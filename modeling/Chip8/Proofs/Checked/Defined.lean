import Chip8.Proofs.Checked.Dump
import Chip8.Proofs.Checked.Simulation
import Chip8.Proofs.StepRules

/-!
# Nothing is done outside its domain

Whatever is done with a machine, the machine with checked operations does it as well and to the same
effect, and so does its dump. What the checks rely on holds all the time: the register that waits
and the key that was pressed have numbers below sixteen, and the stack has no more than sixteen
entries.
-/
namespace Chip8.Checked

theorem awaiting_lt (m : Machine) {x : Nat} (h : m.raw.awaiting = some x) : x < 16 := by
  obtain ⟨r, -, rfl⟩ := Option.map_eq_some_iff.mp h
  exact r.isLt

theorem pressed_lt (m : Machine) {key : Nat} (h : m.raw.keypad.pressed = some key) : key < 16 := by
  obtain ⟨k, -, rfl⟩ := Option.map_eq_some_iff.mp h
  exact k.isLt

/-- A fresh machine is made, any word is decoded, any history is run and the machine at its end is
dumped with all operations checked, and all of this has the result it has without the checks. -/
theorem always_defined {rom : Rom} {random : RandomSource} {m : Machine}
    (hm : Machine.create rom random = .ok m) (history : List Action) :
    create rom random = some (.ok m.raw) ∧
    (∀ w, decode w = some ((Instruction.decode w).map Instruction.raw)) ∧
    ∃ n, run m.raw history = some (m.answers history, n) ∧ n = (m.after history).raw ∧
      dump n = some (m.after history).dump ∧
      (∀ x, n.awaiting = some x → x < 16) ∧ (∀ key, n.keypad.pressed = some key → key < 16) ∧
      n.stack.length ≤ 16 := by
  refine ⟨?_, decode_eq, _, run_raw m history, rfl, dump_raw _, ?_, ?_, ?_⟩
  · rw [create_eq, hm]
    rfl
  · exact fun x => awaiting_lt _
  · exact fun key => pressed_lt _
  · exact (m.after history).stack.length_le

/-- A program that jumps as far as an address behind an offset can lie. -/
def jumpingRom : Rom := ⟨"", [0xBF, 0xFF]⟩

theorem always_defined_jumping :
    ∃ m n, Machine.create jumpingRom (RandomSource.repeating []) = .ok m ∧
      run m.raw [.step, .setKey 100 true] = some ([.stepped (.ok .quiet), .done], n) ∧
      n.pc = 0x0FFF ∧ n.keypad.pressed = some 4 ∧ (dump n).isSome := by
  generalize RandomSource.repeating [] = random
  obtain ⟨memory, hm, hw⟩ := Machine.create_here jumpingRom random rfl (by decide)
  obtain ⟨-, -, n, hrun, hn, hdump, -⟩ := always_defined hm [.step, .setKey 100 true]
  have hd : Instruction.ofWord? (Machine.initial jumpingRom memory random).here =
      some (.jumpOffset ⟨0xFFF, by decide⟩) := by
    rw [hw]
    rfl
  have hzero : (Machine.initial jumpingRom memory random).register 0 = 0 := rfl
  have huntouched : (Machine.initial jumpingRom memory random).keypad = .untouched := rfl
  have hplace : (Machine.initial jumpingRom memory random).pc.toNat ≤ 0xFFE :=
    show 0x200 ≤ 0xFFE by decide
  have hstep := (Machine.StepCase.completed rfl hplace hd (.jumpOffset ⟨0xFFF, by decide⟩)).step_eq
  generalize Machine.initial jumpingRom memory random = m at *
  have hanswers : m.answers [.step, .setKey 100 true] = [.stepped m.step.1, .done] := rfl
  have hafter : m.after [.step, .setKey 100 true] = m.step.2.setKey 100 true := rfl
  have hpc (k : Machine) : (k.setKey 100 true).raw.pc = k.pc := rfl
  have hkeypad (k : Machine) : (k.setKey 100 true).raw.keypad = (k.keypad.set 100 true).raw := rfl
  rw [hanswers, hstep] at hrun
  rw [hafter, hstep] at hn
  refine ⟨m, n, hm, hrun, ?_, ?_, by rw [hdump]; rfl⟩
  · rw [hn, hpc]
    change UInt16.ofNat (0xFFF + (m.register 0).toNat) = _
    rw [hzero]
    rfl
  · rw [hn, hkeypad]
    change Option.map Fin.val (m.keypad.set 100 true).pressed = _
    rw [huntouched]
    rfl

end Chip8.Checked
