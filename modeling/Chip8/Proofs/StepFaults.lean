import Chip8.Proofs.StepRules
import Chip8.Proofs.WordForms

/-!
# When a step fails, and how

The words that stand for an instruction and the bytes an instruction asks of the memory are told by
the digits of a word, without the decoder. With them the fault of a step is known from the program
counter, the word there, the call stack and the index register.
-/
namespace Chip8

namespace Word

/-- The words that fit a pattern of an instruction. -/
def Supported (w : UInt16) : Prop :=
  w = 0x00E0 ∨ w = 0x00EE ∨
    -- every word of the family
    family w ∈ [0x1, 0x2, 0x3, 0x4, 0x6, 0x7, 0xA, 0xB, 0xC, 0xD] ∨
    -- the ones with the right last digit
    (family w ∈ [0x5, 0x9] ∧ (n w).val = 0x0) ∨
    (family w = 0x8 ∧ (n w).val ∈ [0x0, 0x1, 0x2, 0x3, 0x4, 0x5, 0x6, 0x7, 0xE]) ∨
    -- the ones with the right low byte
    (family w = 0xE ∧ byte w ∈ [0x9E, 0xA1]) ∨
    (family w = 0xF ∧ byte w ∈ [0x07, 0x0A, 0x15, 0x18, 0x1E, 0x29, 0x33, 0x55, 0x65])

instance : DecidablePred Supported := fun w => inferInstanceAs (Decidable (w = 0x00E0 ∨ _))

/-- How many bytes at the index register the instruction of a word reads or writes. -/
def access? (w : UInt16) : Option Nat :=
  if family w = 0xD then some (n w)
  else if family w = 0xF ∧ byte w = 0x33 then some 3
  else if family w = 0xF ∧ (byte w = 0x55 ∨ byte w = 0x65) then some (x w + 1)
  else none

theorem supported_of_access? {w : UInt16} {length : Nat} (h : access? w = some length) :
    Supported w := by
  unfold access? at h
  repeat' split at h
  all_goals simp_all [Supported]

end Word

namespace Instruction

open Word

theorem isSome_ofCode? (d : Nat) :
    (Alu.Operation.ofCode? d).isSome ↔ d ∈ [0x0, 0x1, 0x2, 0x3, 0x4, 0x5, 0x6, 0x7, 0xE] := by
  unfold Alu.Operation.ofCode?
  split <;> simp_all

theorem isSome_ofUnary? (r : Register) (code : UInt8) :
    (ofUnary? r code).isSome ↔
      code ∈ [0x07, 0x0A, 0x15, 0x18, 0x1E, 0x29, 0x33, 0x55, 0x65] := by
  unfold ofUnary?
  repeat' split
  all_goals simp_all

/-- The decoder finds an instruction for the words of the patterns, and for no other. -/
theorem isSome_ofWord? (w : UInt16) : (ofWord? w).isSome ↔ Supported w := by
  -- the two words that are patterns by themselves belong to the first family
  have system (h : family w ≠ 0x0) : w ≠ 0x00E0 ∧ w ≠ 0x00EE :=
    ⟨by rintro rfl; exact h rfl, by rintro rfl; exact h rfl⟩
  unfold ofWord? Supported
  split
  case h_1 hf =>
    simp only [hf]
    split <;> simp_all
  case h_6 hf | h_10 hf =>
    simp only [system (by rw [hf]; decide), hf]
    split <;> simp_all
  case h_9 hf =>
    rw [Option.isSome_map, isSome_ofCode?]
    simp [system (by rw [hf]; decide), hf]
  case h_15 hf =>
    simp only [system (by rw [hf]; decide), hf]
    repeat' split
    all_goals simp_all
  case h_16 =>
    have hlt := family_lt w
    have hf : family w = 0xF := by grind
    rw [isSome_ofUnary?]
    simp [system (by rw [hf]; decide), hf]
  all_goals
    rename_i hf
    simp [hf]

theorem ofWord?_eq_none_iff {w : UInt16} : ofWord? w = none ↔ ¬ Supported w := by
  rw [← isSome_ofWord?, Option.not_isSome_iff_eq_none]

theorem exists_of_supported {w : UInt16} (h : Supported w) : ∃ i, ofWord? w = some i :=
  Option.isSome_iff_exists.mp ((isSome_ofWord? w).mpr h)

/-- How many bytes at the index register an instruction reads or writes. -/
def access? : Instruction → Option Nat
  | draw _ _ rows => some rows
  | storeDigits _ => some 3
  | storeRegisters last | fillRegisters last => some (last + 1)
  | _ => none

theorem access?_toWord (i : Instruction) : Word.access? i.toWord = i.access? := by
  cases i with
  | clear => rfl
  | ret => rfl
  | skip c => cases c <;> simp [toWord, Word.access?, access?, fields_withByte, fields_withDigits]
  | arithmetic op => simp [toWord, Word.access?, access?, fields_withDigits _ _ _ op.code_lt]
  | draw _ _ rows => simp [toWord, Word.access?, access?, fields_withDigits _ _ _ rows.isLt]
  | _ => simp [toWord, Word.access?, access?, fields_withAddress, fields_withByte]

section Words

variable {w : UInt16} {i : Instruction} (h : ofWord? w = some i)
include h

theorem eq_ret_iff : i = ret ↔ w = 0x00EE := by
  rw [← toWord_of_ofWord? h]
  constructor
  · rintro rfl
    rfl
  · intro hw
    exact Option.some.inj ((ofWord?_toWord i).symm.trans (by rw [hw]; rfl))

theorem access?_of_ofWord? : Word.access? w = i.access? := by
  rw [← toWord_of_ofWord? h, access?_toWord]

theorem eq_call_iff : (∃ target, i = call target) ↔ family w = 0x2 := by
  constructor
  · rintro ⟨target, rfl⟩
    rw [← toWord_of_ofWord? h]
    exact (fields_withAddress (by decide) target).1
  · intro hf
    simp only [ofWord?, hf, Option.some.injEq] at h
    exact ⟨_, h.symm⟩

end Words
end Instruction

namespace Machine

/-- Why a step refuses the instruction of a word. -/
inductive Denied (m : Machine) (w : UInt16) : Fault → Prop
  | underflow (hw : w = 0x00EE) (hs : m.stack.entries = []) : Denied m w .stackUnderflow
  | overflow (hw : Word.family w = 0x2) (hs : m.stack.entries.length = 16) :
      Denied m w .stackOverflow
  | access {length : Nat} (hw : Word.access? w = some length)
      (hl : 4096 < m.index.toNat + length) : Denied m w (.outOfRange m.index.toNat length 4096)

/-- Why a step fails that awaits no key. -/
inductive Fails (m : Machine) : Fault → Prop
  | unfetched (hp : 0xFFE < m.pc.toNat) : Fails m (.outOfRange m.pc.toNat 2 4096)
  | undecoded (hp : m.pc.toNat ≤ 0xFFE) (hw : ¬ Word.Supported m.here) :
      Fails m (.invalidOpcode m.here)
  | denied {fault : Fault} (hp : m.pc.toNat ≤ 0xFFE) (hd : Denied m m.here fault) : Fails m fault

section Denied

variable {m : Machine} {w : UInt16} {fault : Fault}

theorem Denied.supported (h : Denied m w fault) : Word.Supported w := by
  cases h with
  | underflow hw => exact .inr (.inl hw)
  | overflow hw => simp [Word.Supported, hw]
  | access hw => exact Word.supported_of_access? hw

theorem denied_underflow_iff :
    Denied m w .stackUnderflow ↔ w = 0x00EE ∧ m.stack.entries = [] := by
  constructor
  · intro h
    cases h with
    | underflow hw hs => exact ⟨hw, hs⟩
  · intro ⟨hw, hs⟩
    exact .underflow hw hs

theorem denied_overflow_iff :
    Denied m w .stackOverflow ↔ Word.family w = 0x2 ∧ m.stack.entries.length = 16 := by
  constructor
  · intro h
    cases h with
    | overflow hw hs => exact ⟨hw, hs⟩
  · intro ⟨hw, hs⟩
    exact .overflow hw hs

theorem denied_access_iff {length : Nat} :
    Denied m w (.outOfRange m.index.toNat length 4096) ↔
      Word.access? w = some length ∧ 4096 < m.index.toNat + length := by
  constructor
  · intro h
    cases h with
    | access hw hl => exact ⟨hw, hl⟩
  · intro ⟨hw, hl⟩
    exact .access hw hl

theorem not_denied_iff :
    (∀ fault, ¬ Denied m w fault) ↔
      ¬ (w = 0x00EE ∧ m.stack.entries = []) ∧
      ¬ (Word.family w = 0x2 ∧ m.stack.entries.length = 16) ∧
      ∀ length, Word.access? w = some length → m.index.toNat + length ≤ 4096 := by
  constructor
  · intro h
    refine ⟨fun ⟨hw, hs⟩ => h _ (.underflow hw hs), fun ⟨hw, hs⟩ => h _ (.overflow hw hs), ?_⟩
    intro length hw
    exact Nat.le_of_not_lt fun hl => h _ (.access hw hl)
  · intro ⟨hu, ho, hm⟩ fault h
    cases h with
    | underflow hw hs => exact hu ⟨hw, hs⟩
    | overflow hw hs => exact ho ⟨hw, hs⟩
    | access hw hl => exact Nat.not_lt_of_le (hm _ hw) hl

theorem refused_iff_denied {i : Instruction} (h : Instruction.ofWord? w = some i) :
    Refused m i fault ↔ Denied m w fault := by
  have hret := Instruction.eq_ret_iff h
  have hcall := Instruction.eq_call_iff h
  have haccess := Instruction.access?_of_ofWord? h
  constructor
  · intro hr
    cases hr with
    | ret hs => exact .underflow (hret.mp rfl) hs
    | call target hs => exact .overflow (hcall.mp ⟨target, rfl⟩) hs
    | _ => exact .access haccess (by assumption)
  · intro hd
    cases hd with
    | underflow hw hs =>
      obtain rfl := hret.mpr hw
      exact .ret hs
    | overflow hw hs =>
      obtain ⟨target, rfl⟩ := hcall.mpr hw
      exact .call target hs
    | access hw hl =>
      rw [haccess] at hw
      cases i with
      | draw x y rows =>
        cases hw
        exact .draw x y rows hl
      | storeDigits x =>
        cases hw
        exact .storeDigits x hl
      | storeRegisters last =>
        cases hw
        exact .storeRegisters last hl
      | fillRegisters last =>
        cases hw
        exact .fillRegisters last hl
      | _ => cases hw

end Denied

section Faults

variable {m : Machine} {fault : Fault} (ha : m.awaiting = none)
include ha

theorem step_error_iff : m.step.1 = .error fault ↔ Fails m fault := by
  constructor
  · intro h
    rcases hs : m.step with ⟨result, n⟩
    rw [hs] at h
    cases h
    cases step_cases hs with
    | unfetched _ hp => exact .unfetched hp
    | undecoded _ hp hd => exact .undecoded hp (Instruction.ofWord?_eq_none_iff.mp hd)
    | refused _ hp hd hr => exact .denied hp ((refused_iff_denied hd).mp hr)
  · intro h
    cases h with
    | unfetched hp => rw [step_unfetched ha hp]
    | undecoded hp hw => rw [step_undecoded ha hp (Instruction.ofWord?_eq_none_iff.mpr hw)]
    | denied hp hd =>
      obtain ⟨i, hi⟩ := Instruction.exists_of_supported hd.supported
      rw [step_refused ha hp hi ((refused_iff_denied hi).mpr hd)]

theorem step_ok_iff : (∃ signal, m.step.1 = .ok signal) ↔ ∀ fault, ¬ Fails m fault := by
  simp only [← step_error_iff ha]
  cases m.step.1 <;> simp

end Faults

theorem step_ok_of_awaiting {m : Machine} (ha : m.awaiting ≠ none) :
    ∃ signal, m.step.1 = .ok signal := by
  rcases hs : m.step with ⟨result, n⟩
  cases step_cases hs with
  | waiting => exact ⟨_, rfl⟩
  | resumed => exact ⟨_, rfl⟩
  | completed => exact ⟨_, rfl⟩
  | unfetched hn | undecoded hn | refused hn => exact absurd hn ha

section Fails

variable {m : Machine}

/-- The fault of a fetch is not taken for the fault of an access at the index register. -/
theorem fails_fetch_iff :
    Fails m (.outOfRange m.pc.toNat 2 4096) ↔ 0xFFE < m.pc.toNat := by
  refine ⟨?_, .unfetched⟩
  generalize hf : Fault.outOfRange m.pc.toNat 2 4096 = fault
  intro h
  cases h with
  | unfetched hp => exact hp
  | undecoded hp hw => cases hf
  | denied hp hd =>
    cases hd with
    | underflow => cases hf
    | overflow => cases hf
    | access hw hl =>
      -- where a word lies in the memory, so do the two bytes at its address
      obtain ⟨hi, rfl, -⟩ := Fault.outOfRange.inj hf
      omega

variable (hp : m.pc.toNat ≤ 0xFFE)
include hp

theorem fails_invalidOpcode_iff :
    Fails m (.invalidOpcode m.here) ↔ ¬ Word.Supported m.here := by
  refine ⟨?_, .undecoded hp⟩
  intro h
  cases h with
  | undecoded _ hw => exact hw
  | denied _ hd => cases hd

theorem fails_iff_denied (hw : Word.Supported m.here) {fault : Fault} :
    Fails m fault ↔ Denied m m.here fault := by
  refine ⟨?_, .denied hp⟩
  intro h
  cases h with
  | unfetched hn => omega
  | undecoded _ hn => exact absurd hw hn
  | denied _ hd => exact hd

end Fails

/-- A step fails for the reasons given here and for no other, each with its own fault; it never
fails while it awaits a key. -/
theorem step_faults (m : Machine) :
    (m.awaiting ≠ none → ∃ signal, m.step.1 = .ok signal) ∧
    (m.awaiting = none →
      (m.step.1 = .error (.outOfRange m.pc.toNat 2 4096) ↔ 0xFFE < m.pc.toNat) ∧
      (m.pc.toNat ≤ 0xFFE →
        (m.step.1 = .error (.invalidOpcode m.here) ↔ ¬ Word.Supported m.here) ∧
        (Word.Supported m.here →
          (m.step.1 = .error .stackUnderflow ↔ m.here = 0x00EE ∧ m.stack.entries = []) ∧
          (m.step.1 = .error .stackOverflow ↔
            Word.family m.here = 0x2 ∧ m.stack.entries.length = 16) ∧
          (∀ length, m.step.1 = .error (.outOfRange m.index.toNat length 4096) ↔
            Word.access? m.here = some length ∧ 4096 < m.index.toNat + length) ∧
          ((∃ signal, m.step.1 = .ok signal) ↔
            ¬ (m.here = 0x00EE ∧ m.stack.entries = []) ∧
            ¬ (Word.family m.here = 0x2 ∧ m.stack.entries.length = 16) ∧
            ∀ length, Word.access? m.here = some length →
              m.index.toNat + length ≤ 4096)))) := by
  refine ⟨step_ok_of_awaiting, fun ha => ?_⟩
  simp only [step_ok_iff ha, step_error_iff ha]
  refine ⟨fails_fetch_iff, fun hp => ⟨fails_invalidOpcode_iff hp, fun hw => ?_⟩⟩
  simp only [fails_iff_denied hp hw]
  exact ⟨denied_underflow_iff, denied_overflow_iff, fun length => denied_access_iff,
    not_denied_iff⟩

/-- A machine about to draw a sprite without rows. -/
def drawingNothing (index : UInt16) : Machine :=
  { initial ⟨"", []⟩ (Memory.blank.overlay start [0xD0, 0x10]) (RandomSource.repeating []) with
    index := index }

/-- A sprite without rows still has to begin in the memory or right behind it. -/
theorem step_faults_no_rows :
    (∃ signal, (drawingNothing 0x1000).step.1 = .ok signal) ∧
      (drawingNothing 0x1001).step.1 = .error (.outOfRange 0x1001 0 4096) := by
  have hw (index : UInt16) : (drawingNothing index).here = 0xD010 :=
    Memory.wordAt_overlay _ 0xD0 0x10 [] (by decide)
  have hs (index : UInt16) : Word.Supported (drawingNothing index).here := by
    rw [hw]
    decide
  have ha (index : UInt16) : Word.access? (drawingNothing index).here = some 0 := by
    rw [hw]
    rfl
  have faults (index : UInt16) :=
    (((step_faults (drawingNothing index)).2 rfl).2 (by decide : 0x200 ≤ 0xFFE)).2 (hs index)
  obtain ⟨-, -, -, hok⟩ := faults 0x1000
  obtain ⟨-, -, herror, -⟩ := faults 0x1001
  refine ⟨hok.mpr ⟨?_, ?_, ?_⟩, (herror 0).mpr ⟨ha _, by decide⟩⟩
  · rw [hw]
    decide
  · rw [hw]
    decide
  · intro length hl
    cases (ha _).symm.trans hl
    decide

end Machine
end Chip8
