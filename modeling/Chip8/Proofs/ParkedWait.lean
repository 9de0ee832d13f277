import Chip8.Proofs.HistoryInvariant
import Chip8.Proofs.StepRules
import Chip8.Proofs.WordForms

/-!
# The place of a wait

A machine that awaits a key stays in front of the instruction that told it to. The instruction is
still in the memory and in the last word, since no other can run before the wait ends and a reset
ends the wait as well.
-/
namespace Chip8.Machine

/-- The machine is in front of the instruction that waits for a key into a register. -/
structure Parked (m : Machine) (x : Register) : Prop where
  register_lt : x.val < 16
  pc_le : m.pc.toNat ≤ 0xFFE
  high : (m.memory.byteAt m.pc.toNat).toNat = 0xF0 + x.val
  low : (m.memory.byteAt (m.pc.toNat + 1)).toNat = 0x0A
  word : m.word.toNat = 0xF00A + 256 * x.val

/-- A machine that awaits a key is parked. -/
def WaitsParked (m : Machine) : Prop := ∀ x, m.awaiting = some x → m.Parked x

/-! ## Steps and waiting -/

theorem step_of_awaiting {m : Machine} {x : Register} (ha : m.awaiting = some x) :
    m.step = (.ok (m.resume x).1, (m.resume x).2) := by
  simp only [step, ha]

/-- A machine that awaits a key looks neither into its memory nor at the last word. -/
theorem step_blind {m : Machine} {x : Register} (ha : m.awaiting = some x) (memory : Memory)
    (word : UInt16) :
    step { m with memory := memory, word := word } =
      (m.step.1, { m.step.2 with memory := memory, word := word }) := by
  cases hk : m.keypad.pressed with
  | none =>
    rw [step_waiting ha hk]
    exact step_waiting (m := { m with memory := memory, word := word }) ha hk
  | some key =>
    rw [step_resumed ha hk]
    exact step_resumed (m := { m with memory := memory, word := word }) ha hk

/-- A step tells the host to wait exactly when it leaves the machine waiting. -/
theorem step_wait_iff (m : Machine) : m.step.1 = .ok .wait ↔ m.step.2.isWaiting := by
  rcases hs : m.step with ⟨result, n⟩
  cases step_cases hs with
  | waiting ha hk => simp [isWaiting, ha]
  | resumed ha hk => simp [isWaiting]
  | unfetched ha hp => simp [isWaiting, ha]
  | undecoded ha hp hd => simp [isWaiting, advance, ha]
  | refused ha hp hd hr => simp [isWaiting, fetched, advance, record, ha]
  | completed ha hp hd hc =>
    rcases hc.awaiting_cases with ⟨x, rfl, rfl, rfl⟩ | ⟨hn, -, hw⟩
    · simp [isWaiting, awaitKey]
    · have hn' : Machine.awaiting _ = none := hn.trans ha
      simp [isWaiting, hn', hw]

/-! ## Where a wait is parked -/

/-- An instruction that waits holds the program counter, so the machine is in front of it again. -/
theorem parked_of_started {m : Machine} {x : Register} (hp : m.pc.toNat ≤ 0xFFE)
    (hd : Instruction.ofWord? m.here = some (.awaitKey x)) :
    (((m.fetched (.awaitKey x)).awaitKey x).move .hold).Parked x := by
  have hw : m.here.toNat = 0xF00A + 256 * x.val := Instruction.ofWord?_eq_awaitKey_iff.mp hd
  have hb : m.here.toNat = 256 * (m.memory.byteAt m.pc.toNat).toNat +
      (m.memory.byteAt (m.pc.toNat + 1)).toNat := Word.toNat_ofBytes _ _
  have hlow := (m.memory.byteAt (m.pc.toNat + 1)).toNat_lt
  have hpc : (((m.fetched (.awaitKey x)).awaitKey x).move .hold).pc = m.pc :=
    UInt16.add_sub_cancel m.pc 2
  constructor
  · exact x.isLt
  · rw [hpc]
    exact hp
  · rw [hpc]
    change (m.memory.byteAt m.pc.toNat).toNat = _
    omega
  · rw [hpc]
    change (m.memory.byteAt (m.pc.toNat + 1)).toNat = _
    omega
  · exact hw

theorem Fresh.waitsParked {m : Machine} (h : m.Fresh) : m.WaitsParked := by
  obtain ⟨rom, memory, random, trace, rfl⟩ := h
  intro x hx
  cases hx

theorem WaitsParked.step {m : Machine} (h : m.WaitsParked) : m.step.2.WaitsParked := by
  rcases hs : m.step with ⟨result, n⟩
  intro x hx
  cases step_cases hs with
  | waiting ha hk => exact h x hx
  | resumed ha hk => cases hx
  | unfetched ha hp => exact h x hx
  | undecoded ha hp hd => cases ha.symm.trans hx
  | refused ha hp hd hr => cases ha.symm.trans hx
  | completed ha hp hd hc =>
    rw [move_awaiting] at hx
    rcases hc.awaiting_cases with ⟨y, rfl, rfl, rfl⟩ | ⟨hn, -⟩
    · cases hx
      exact parked_of_started hp hd
    · cases (hn.trans ha).symm.trans hx

theorem WaitsParked.outside {m : Machine} (h : m.WaitsParked) (keypad : Keypad)
    (delay sound : Timer) (trace : Option (List TraceEntry)) :
    (m.outside keypad delay sound trace).WaitsParked := by
  intro x hx
  obtain ⟨hlt, hpc, hhigh, hlow, hword⟩ := h x hx
  exact ⟨hlt, hpc, hhigh, hlow, hword⟩

/-- Throughout a history a wait is parked, a step out of it cannot fail and fetches nothing, and a
step or cycle tells the host to wait exactly when it leaves the machine waiting. -/
theorem parked_while_awaiting {rom : Rom} {random : RandomSource} {m : Machine}
    (hm : create rom random = .ok m) {history : List Action} (hh : ∀ a ∈ history, a.hosted) :
    let n := m.after history
    (∀ x, n.awaiting = some x →
      n.Parked x ∧ (∃ signal, n.step.1 = .ok signal) ∧
        ∀ memory word, step { n with memory := memory, word := word } =
          (n.step.1, { n.step.2 with memory := memory, word := word })) ∧
    (n.step.1 = .ok .wait ↔ n.step.2.isWaiting) ∧
    ∀ keys, (n.cycle keys).1 = .ok .wait ↔ (n.cycle keys).2.2.isWaiting := by
  have hparked : (m.after history).WaitsParked :=
    hosted_induction (fun m => Fresh.waitsParked) (fun m => WaitsParked.step)
      (fun m keypad delay sound trace h => h.outside keypad delay sound trace) hm hh
  refine ⟨fun x hx => ?_, step_wait_iff _, fun keys => step_wait_iff _⟩
  exact ⟨hparked x hx, ⟨_, congrArg Prod.fst (step_of_awaiting hx)⟩, step_blind hx⟩

/-- A program that waits for a key into the register 3. -/
def waitingRom : Rom := ⟨"", [0xF3, 0x0A]⟩

theorem parked_while_awaiting_pressed :
    ∃ m, create waitingRom (RandomSource.repeating []) = .ok m ∧
      let n := m.after [.step, .tick, .setKey 7 true]
      n.Parked (Nibble.ofNat 3) ∧ n.step.1 = .ok .quiet ∧ n.step.2.isWaiting = false := by
  generalize RandomSource.repeating [] = random
  obtain ⟨memory, hm, hw⟩ := create_here waitingRom random rfl (by decide)
  have hp : (initial waitingRom memory random).pc.toNat ≤ 0xFFE := show 0x200 ≤ 0xFFE by decide
  have hd : Instruction.ofWord? (initial waitingRom memory random).here =
      some (.awaitKey (Nibble.ofNat 3)) := by rw [hw]; rfl
  refine ⟨_, hm, ?_⟩
  generalize hn : Machine.after _ [.step, .tick, .setKey 7 true] = n
  have ha : n = (initial waitingRom memory random).step.2.tick.setKey 7 true := hn.symm
  rw [step_awaitKey rfl hp hd] at ha
  have hx : n.awaiting = some (Nibble.ofNat 3) := by rw [ha]; rfl
  have hk : n.keypad.pressed = some (Nibble.ofNat 7) := by rw [ha]; rfl
  have hq : n.step.1 = .ok .quiet := by rw [step_resumed hx hk]
  have hh : ∀ a ∈ [Action.step, .tick, .setKey 7 true], a.hosted := by decide
  obtain ⟨hparked, hiff, -⟩ := parked_while_awaiting hm hh
  rw [hn] at hparked hiff
  refine ⟨(hparked _ hx).1, hq, Bool.eq_false_iff.mpr fun hwait => ?_⟩
  cases hq.symm.trans (hiff.mpr hwait)

end Chip8.Machine
