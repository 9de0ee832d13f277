import Chip8.Proofs.HistoryInvariant
import Chip8.Proofs.StepRules

/-!
# The steps of a history and what they execute

A step finds an instruction or none: none while a key is awaited, where no word lies at the program
counter and where the word there stands for none. A step that finds none reaches the registers, the
program counter, the last word, the keypad and the wait only. One that finds an instruction is
refused, with nothing but the word taken in, or completes it.
-/
namespace Chip8

/-- How the step or the execution ended that an answer tells of. -/
def Answer.result? : Answer → Option (Except Fault Signal)
  | stepped result | cycled result _ => some result
  | _ => none

namespace Machine

/-- The instruction that a step finds, whether or not it is refused then. -/
def found? (m : Machine) : Option Instruction :=
  if m.awaiting = none ∧ m.pc.toNat ≤ 0xFFE then Instruction.ofWord? m.here else none

/-- The instruction that an action executes, whether or not it is refused then. -/
def executed? (m : Machine) : Action → Option Instruction
  | .execute i => some i
  | .step | .cycle _ => m.found?
  | _ => none

/-- The machine from which an action takes a step, if it takes one. -/
def stepper? (m : Machine) : Action → Option Machine
  | .step => some m
  | .cycle keys => some (m.setKeys keys)
  | _ => none

/-- The machines from which a history takes its steps, in order. -/
def steps (m : Machine) : List Action → List Machine
  | [] => []
  | a :: rest => (m.stepper? a).toList ++ (m.act a).2.steps rest

/-- The machine with a word taken in, other keys and other records. -/
def withWord (m : Machine) (word pc : UInt16) (keypad : Keypad)
    (trace : Option (List TraceEntry)) : Machine :=
  { m with word := word, pc := pc, keypad := keypad, trace := trace }

theorem act_step_result (m : Machine) : (m.act .step).1.result? = some m.step.1 := rfl

theorem act_step_left (m : Machine) : (m.act .step).2 = m.step.2 := rfl

theorem act_of_stepper {m s : Machine} {a : Action} (h : m.stepper? a = some s) :
    (m.act a).1.result? = some s.step.1 ∧ (m.act a).2 = s.step.2 := by
  cases a with
  | step =>
    obtain rfl := Option.some.inj h
    exact ⟨rfl, rfl⟩
  | cycle keys =>
    obtain rfl := Option.some.inj h
    exact ⟨rfl, rfl⟩
  | _ => cases h

/-- Only the keys are set before an action takes its step. -/
theorem outside_of_stepper {m s : Machine} {a : Action} (h : m.stepper? a = some s) :
    ∃ keypad, s = m.outside keypad m.delay m.sound m.trace := by
  cases a with
  | step => exact ⟨m.keypad, (Option.some.inj h).symm⟩
  | cycle keys => exact ⟨m.keypad.setAll keys, (Option.some.inj h).symm⟩
  | _ => cases h

section Found

variable {m : Machine} {i : Instruction}

theorem found?_eq_some_iff :
    m.found? = some i ↔
      m.awaiting = none ∧ m.pc.toNat ≤ 0xFFE ∧ Instruction.ofWord? m.here = some i := by
  unfold found?
  split
  · rename_i h
    exact ⟨fun hi => ⟨h.1, h.2, hi⟩, fun hi => hi.2.2⟩
  · rename_i h
    constructor
    · intro hi
      cases hi
    · rintro ⟨ha, hp, -⟩
      exact absurd ⟨ha, hp⟩ h

theorem found?_of_le (ha : m.awaiting = none) (hp : m.pc.toNat ≤ 0xFFE) :
    m.found? = Instruction.ofWord? m.here :=
  if_pos ⟨ha, hp⟩

theorem found?_of_wordAt {address : Nat} {word : UInt16} (ha : m.awaiting = none)
    (hpc : m.pc.toNat = address) (hp : address ≤ 0xFFE) (hw : m.memory.wordAt address = word)
    (hi : Instruction.ofWord? word = some i) : m.found? = some i := by
  rw [← hpc] at hp hw
  rw [found?_of_le ha hp, here, hw, hi]

/-- The instructions of a program are found where its image lies. -/
theorem found?_of_load {rom : Rom} {k : Nat} {high low : UInt8} (hl : load rom = .ok m.memory)
    (ha : m.awaiting = none) (hpc : m.pc.toNat = start + k) (hhigh : rom.data[k]? = some high)
    (hlow : rom.data[k + 1]? = some low)
    (hi : Instruction.ofWord? (Word.ofBytes high low) = some i) : m.found? = some i := by
  rw [load, Memory.storeBlock_of_le _ (by decide), Except.bind] at hl
  have hfit := Memory.le_of_storeBlock hl
  rw [Memory.storeBlock_of_le _ hfit] at hl
  obtain ⟨hk, rfl⟩ := List.getElem?_eq_some_iff.mp hlow
  obtain ⟨_, rfl⟩ := List.getElem?_eq_some_iff.mp hhigh
  have hword := Memory.wordAt_overlay_add (Memory.blank.overlay Font.location Font.bytes)
    start k hk (by omega)
  rw [Except.ok.inj hl] at hword
  exact found?_of_wordAt ha hpc (by omega) hword hi

theorem found?_outside (m : Machine) (keypad : Keypad) (delay sound : Timer)
    (trace : Option (List TraceEntry)) : (m.outside keypad delay sound trace).found? = m.found? := by
  unfold found?
  rfl

/-- An action that takes a step executes what this step finds. -/
theorem executed?_of_stepper {s : Machine} {a : Action} (h : m.stepper? a = some s) :
    m.executed? a = s.found? := by
  obtain ⟨keypad, rfl⟩ := outside_of_stepper h
  rw [found?_outside]
  cases a with
  | step | cycle => rfl
  | _ => cases h

/-- What a step finds is what its fetch and the decoder give it. -/
theorem found?_iff_fetch :
    m.found? = some i ↔
      m.awaiting = none ∧ ∃ word, m.fetch = .ok word ∧ Instruction.decode word = .ok i := by
  rw [found?_eq_some_iff]
  constructor
  · rintro ⟨ha, hp, hi⟩
    exact ⟨ha, m.here, fetch_of_le hp, Instruction.decode_eq_ok_iff.mpr hi⟩
  · rintro ⟨ha, word, hf, hd⟩
    obtain ⟨hp, rfl⟩ := fetch_eq_ok hf
    exact ⟨ha, hp, Instruction.decode_eq_ok_iff.mp hd⟩

/-- A step that finds no instruction goes on waiting, ends a wait or fails. -/
theorem step_idle (h : m.found? = none) :
    ∃ word registers pc keypad awaiting, m.step.2 =
      { m with
        word := word, registers := registers, pc := pc, keypad := keypad, awaiting := awaiting } := by
  rcases hs : m.step with ⟨result, n⟩
  cases step_cases hs with
  | waiting ha hk => exact ⟨m.word, m.registers, m.pc, m.keypad, m.awaiting, rfl⟩
  | resumed ha hk => exact ⟨m.word, _, _, _, _, rfl⟩
  | unfetched ha hp => exact ⟨m.word, m.registers, m.pc, m.keypad, m.awaiting, rfl⟩
  | undecoded ha hp hd => exact ⟨m.here, m.registers, m.pc + 2, m.keypad, m.awaiting, rfl⟩
  | refused ha hp hd hr => cases h.symm.trans ((found?_of_le ha hp).trans hd)
  | completed ha hp hd hc => cases h.symm.trans ((found?_of_le ha hp).trans hd)

/-- A step that finds an instruction is refused or completes it. -/
theorem step_of_found (h : m.found? = some i) :
    (∃ fault, Refused m i fault ∧ m.step = (.error fault, m.fetched i)) ∨
      ∃ o n, Completed (m.fetched i) i o n ∧ m.step = (.ok o.signal, n.move o.flow) := by
  obtain ⟨ha, hp, hd⟩ := found?_eq_some_iff.mp h
  rcases effect_cases (m.fetched i) i with ⟨fault, hr, -⟩ | ⟨o, n, hc, he⟩
  · have hr := (m.refused_fetched i).mp hr
    exact .inl ⟨fault, hr, step_refused ha hp hd hr⟩
  · exact .inr ⟨o, n, hc, step_completed ha hp hd he⟩

theorem step_completes {o : Outcome} {n : Machine} (h : m.found? = some i)
    (hc : Completed (m.fetched i) i o n) : m.step = (.ok o.signal, n.move o.flow) := by
  obtain ⟨ha, hp, hd⟩ := found?_eq_some_iff.mp h
  exact (StepCase.completed ha hp hd hc).step_eq

/-- An instruction that is executed, by a step or without one, is refused or completes. -/
theorem act_of_executed {a : Action} (h : m.executed? a = some i) :
    ∃ word pc keypad trace, let k := m.withWord word pc keypad trace
      (∃ fault, Refused k i fault ∧ (m.act a).1.result? = some (.error fault) ∧
        (m.act a).2 = k) ∨
      ∃ o n, Completed k i o n ∧ (m.act a).1.result? = some (.ok o.signal) ∧
        (m.act a).2 = n.move o.flow := by
  cases hs : m.stepper? a with
  | none =>
    cases a with
    | execute j =>
      obtain rfl := Option.some.inj h
      refine ⟨m.word, m.pc, m.keypad, m.trace, ?_⟩
      rcases execute_cases m j with ⟨fault, hr, he⟩ | ⟨o, n, hc, he⟩
      · simp only [act, he]
        exact .inl ⟨fault, hr, rfl, rfl⟩
      · simp only [act, he]
        exact .inr ⟨o, n, hc, rfl, rfl⟩
    | step | cycle => cases hs
    | _ => cases h
  | some s =>
    have hf : s.found? = some i := (executed?_of_stepper hs).symm.trans h
    obtain ⟨hresult, hleft⟩ := act_of_stepper hs
    obtain ⟨keypad, rfl⟩ := outside_of_stepper hs
    rw [hresult, hleft]
    -- the instruction acts on the machine behind its word
    refine ⟨m.here, m.pc + 2, keypad, m.trace.map (· ++ [(m.pc, i)]), ?_⟩
    rcases step_of_found hf with ⟨fault, hr, he⟩ | ⟨o, n, hc, he⟩
    · rw [he]
      exact .inl ⟨fault, (refused_fetched _ i).mpr hr, rfl, rfl⟩
    · rw [he]
      exact .inr ⟨o, n, hc, rfl, rfl⟩

end Found

theorem steps_append (m : Machine) (first rest : List Action) :
    m.steps (first ++ rest) = m.steps first ++ (m.after first).steps rest := by
  induction first generalizing m with
  | nil => rfl
  | cons a first ih =>
    rw [List.cons_append, steps, steps, ih, List.append_assoc]
    rfl

end Machine
end Chip8
