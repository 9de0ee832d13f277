import Chip8.Proofs.CounterBounds

/-!
# Where a step goes on

The digits of a word and what they name tell where the program counter is behind a step: at an
address of the word or of the stack, at the word again, or one or two words on. Nothing of this
wraps around. Of two words that test for opposite conditions one skips its successor and the other
does not.
-/
namespace Chip8.Machine

open Word Instruction

/-- A word tests for a condition that holds, so its successor is skipped. -/
def skips (m : Machine) (w : UInt16) : Bool :=
  match family w with
  | 0x3 => m.register (x w) == byte w
  | 0x4 => m.register (x w) != byte w
  | 0x5 => m.register (x w) == m.register (y w)
  | 0x9 => m.register (x w) != m.register (y w)
  | 0xE =>
    let down := m.keypad.held[Nibble.ofNat (m.register (x w)).toNat]
    if byte w = 0x9E then down else !down
  | _ => false

/-- The number that the program counter has behind a word; a return takes it from the stack. -/
def follower? (m : Machine) (w : UInt16) : Option Nat :=
  match family w with
  | 0x0 =>
    if w = 0x00EE then m.stack.entries.getLast?.map UInt16.toNat else some (m.pc.toNat + 2)
  | 0x1 | 0x2 => some (address w)
  | 0xB => some (address w + (m.register (Nibble.ofNat 0)).toNat)
  | 0xF => some (if byte w = 0x0A then m.pc.toNat else m.pc.toNat + 2)
  | _ => some (if m.skips w then m.pc.toNat + 4 else m.pc.toNat + 2)

theorem skips_toWord (m : Machine) (c : Condition) : m.skips (skip c).toWord = m.holds c := by
  cases c <;> simp [skips, toWord, holds, fields_withByte, fields_withDigits, Keypad.isHeld,
    Keypad.key]

/-- The followers of the words, by the instructions they stand for. -/
theorem follower?_toWord (m : Machine) (i : Instruction) :
    m.follower? i.toWord =
      match i with
      | .ret => m.stack.entries.getLast?.map UInt16.toNat
      | .jump a | .call a => some a.val
      | .jumpOffset a => some (a.val + (m.register (Nibble.ofNat 0)).toNat)
      | .awaitKey _ => some m.pc.toNat
      | .skip c => some (if m.holds c then m.pc.toNat + 4 else m.pc.toNat + 2)
      | _ => some (m.pc.toNat + 2) := by
  cases i with
  | clear => rfl
  | ret => rfl
  | skip c =>
    simp only [← skips_toWord]
    cases c <;> simp [follower?, toWord, fields_withByte, fields_withDigits]
  | arithmetic op => simp [follower?, skips, toWord, fields_withDigits _ _ _ op.code_lt]
  | draw _ _ rows => simp [follower?, skips, toWord, fields_withDigits _ _ _ rows.isLt]
  | _ => simp [follower?, skips, toWord, fields_withAddress, fields_withByte]

theorem Completed.follower? {m n : Machine} {i : Instruction} {o : Outcome}
    (h : Completed (m.fetched i) i o n) (hp : m.pc.toNat ≤ 0xFFE) :
    m.follower? i.toWord = some (n.move o.flow).pc.toNat := by
  have hn := h.toNat_pc hp
  rw [follower?_toWord]
  cases h with
  | ret he =>
    have hstack : m.stack.entries = _ := he
    simp [hstack, move]
  | jump a | call a =>
    have := a.isLt
    simp only [move, UInt16.toNat_ofNat']
    congr 1
    omega
  | jumpOffset a =>
    have := a.isLt
    have := (m.register (Nibble.ofNat 0)).toNat_lt
    change some (a.val + (m.register (Nibble.ofNat 0)).toNat) =
      some (UInt16.ofNat (a.val + (m.register (Nibble.ofNat 0)).toNat)).toNat
    congr 1
    rw [UInt16.toNat_ofNat']
    omega
  | awaitKey x =>
    have hh := toNat_hold (m := (m.fetched (.awaitKey x)).awaitKey x) (by omega)
    dsimp only
    congr 1
    omega
  | skip c =>
    have hc : (m.fetched (.skip c)).holds c = m.holds c := by cases c <;> rfl
    have hs := toNat_skip (m := m.fetched (.skip c)) (by omega)
    dsimp only
    rw [hc]
    cases m.holds c with
    | true =>
      change some (m.pc.toNat + 4) = some ((m.fetched (.skip c)).move .skip).pc.toNat
      congr 1
      omega
    | false => exact congrArg some hn.symm
  | _ => exact congrArg some hn.symm

theorem holds_negate (m : Machine) (c : Condition) : m.holds c.negate = !m.holds c := by
  cases c <;> simp [holds, Condition.negate, bne]

/-- A step that completes goes on where its word tells. Two words that test the same operands for
opposite conditions skip their successor in just the other's cases. -/
theorem step_follows (m : Machine) :
    (m.awaiting = none → m.pc.toNat ≤ 0xFFE → ∀ signal n, m.step = (.ok signal, n) →
      m.follower? m.here = some n.pc.toNat) ∧
    ∀ c : Condition,
      m.skips (skip c.negate).toWord = (!m.skips (skip c).toWord) ∧
      (execute (skip c)).on m = (.ok .quiet, m.move (.skipIf (m.skips (skip c).toWord))) := by
  refine ⟨fun ha hp signal n hs => ?_, fun c => ⟨?_, ?_⟩⟩
  · cases step_cases hs with
    | waiting hx | resumed hx => cases ha.symm.trans hx
    | completed _ _ hd hc =>
      rw [← toWord_of_ofWord? hd]
      exact hc.follower? hp
  · rw [skips_toWord, skips_toWord, holds_negate]
  · rw [skips_toWord]
    exact execute_of_completed (.skip c)

/-- A machine about to skip if the key is held that the number 37 names. -/
def testingKey : Machine :=
  let memory := Memory.blank.overlay start [0xE3, 0x9E]
  { (initial ⟨"", []⟩ memory (RandomSource.repeating [])).setRegister (Nibble.ofNat 3) 37 with
    keypad := Keypad.untouched.set 5 true }

theorem step_follows_held :
    ∃ n, testingKey.step = (.ok .quiet, n) ∧ n.pc.toNat = 0x204 := by
  have hw : testingKey.here = 0xE39E := Memory.wordAt_overlay _ 0xE3 0x9E [] (by decide)
  have hd : ofWord? testingKey.here = some (skip (.held (Nibble.ofNat 3))) := by
    rw [hw]
    rfl
  have hp : testingKey.pc.toNat ≤ 0xFFE := show 0x200 ≤ 0xFFE by decide
  obtain ⟨n, hs⟩ : ∃ n, testingKey.step = (.ok .quiet, n) := ⟨_, step_completed rfl hp hd rfl⟩
  have hpc := (step_follows testingKey).1 rfl hp _ n hs
  rw [hw] at hpc
  exact ⟨n, hs, (Option.some.inj hpc).symm⟩

end Chip8.Machine
