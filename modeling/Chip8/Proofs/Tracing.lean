import Chip8.Proofs.ExecutedSteps
import Chip8.Proofs.Restart

/-!
# What a trace records

A trace has one entry for each instruction that a step finds, in order, whether or not the
instruction is refused then. A step that waits or fails before it has one adds nothing, and a reset
takes nothing away. The trace itself is of no account to a run.
-/
namespace Chip8.Machine

/-- The entry that a step adds to the trace. -/
def recorded? (m : Machine) : Option TraceEntry := m.found?.map fun i => (m.pc, i)

/-- The entries that a history adds to the trace. -/
def recordedAlong (m : Machine) (history : List Action) : List TraceEntry :=
  (m.steps history).filterMap recorded?

/-- An entry has the place and the instruction of a word that was fetched and decoded. -/
theorem recorded?_eq_some_iff {m : Machine} {pc : UInt16} {i : Instruction} :
    m.recorded? = some (pc, i) ↔
      m.awaiting = none ∧ pc = m.pc ∧ ∃ word, m.fetch = .ok word ∧
        word = Word.ofBytes (m.memory.byteAt pc.toNat) (m.memory.byteAt (pc.toNat + 1)) ∧
          Instruction.decode word = .ok i := by
  rw [recorded?, Option.map_eq_some_iff]
  constructor
  · rintro ⟨j, hj, he⟩
    obtain ⟨rfl, rfl⟩ := Prod.mk.inj he
    obtain ⟨ha, word, hf, hd⟩ := found?_iff_fetch.mp hj
    exact ⟨ha, rfl, word, hf, (fetch_eq_ok hf).2, hd⟩
  · rintro ⟨ha, rfl, word, hf, -, hd⟩
    exact ⟨i, found?_iff_fetch.mpr ⟨ha, word, hf, hd⟩, rfl⟩

theorem recorded?_outside (m : Machine) (keypad : Keypad) (delay sound : Timer)
    (trace : Option (List TraceEntry)) : (m.outside keypad delay sound trace).recorded? = m.recorded? := by
  rw [recorded?, found?_outside]
  rfl

/-- The entry that an action adds to the trace. -/
def recordedBy? (m : Machine) (a : Action) : Option TraceEntry := (m.stepper? a).bind recorded?

theorem recordedAlong_cons (m : Machine) (a : Action) (rest : List Action) :
    m.recordedAlong (a :: rest) = (m.recordedBy? a).toList ++ (m.act a).2.recordedAlong rest := by
  rw [recordedAlong, steps, List.filterMap_append, recordedBy?]
  cases m.stepper? a with
  | none => rfl
  | some s =>
    rw [Option.toList_some, List.filterMap_cons, List.filterMap_nil, Option.bind_some]
    cases s.recorded? <;> rfl

/-! ## What is added to a trace -/

section Record

variable {m : Machine}

theorem step_trace (m : Machine) : m.step.2.trace = m.trace.map (· ++ m.recorded?.toList) := by
  rw [recorded?]
  cases hf : m.found? with
  | none =>
    obtain ⟨word, registers, pc, keypad, awaiting, he⟩ := step_idle hf
    rw [he]
    cases m.trace <;> simp
  | some i =>
    rcases step_of_found hf with ⟨fault, -, he⟩ | ⟨o, n, hc, he⟩
    · rw [he]
      rfl
    · rw [he, move_trace, hc.frame.2.2.1]
      rfl

/-- While a trace is kept, an action adds the entry of the step it takes. -/
theorem act_trace {old : List TraceEntry} (h : m.trace = some old) (a : Action) :
    (m.act a).2.trace = some (old ++ (m.recordedBy? a).toList) := by
  have hidle {n : Machine} (hn : n.trace = m.trace) :
      n.trace = some (old ++ (none : Option TraceEntry).toList) := by
    rw [hn, h, Option.toList_none, List.append_nil]
  cases a with
  | step =>
    rw [act_step_left, step_trace, h]
    rfl
  | cycle keys =>
    rw [(act_of_stepper (a := .cycle keys) rfl).2, step_trace, setKeys_trace, h]
    rfl
  | execute i =>
    rcases execute_cases m i with ⟨fault, -, he⟩ | ⟨o, n, hc, he⟩
    · simp only [act, he]
      exact hidle rfl
    · simp only [act, he]
      exact hidle ((move_trace n o.flow).trans hc.frame.2.2.1)
  | reset =>
    cases hr : m.reset with
    | error fault =>
      simp only [act, hr]
      exact hidle rfl
    | ok n =>
      obtain ⟨memory, -, rfl⟩ := exists_of_reset hr
      simp only [act, hr]
      exact hidle rfl
  | startTrace => exact hidle (show some (m.trace.getD []) = m.trace by rw [h]; rfl)
  | move flow => exact hidle (move_trace m flow)
  | setKeys keys => exact hidle (m.setKeys_trace keys)
  | tick => exact hidle rfl
  | setKey number down => exact hidle rfl
  | toggleKey number => exact hidle rfl

/-- While a trace is kept, a history adds its entries. -/
theorem after_trace {old : List TraceEntry} (h : m.trace = some old) (history : List Action) :
    (m.after history).trace = some (old ++ m.recordedAlong history) := by
  induction history generalizing m old with
  | nil => rw [after, h, recordedAlong, steps, List.filterMap_nil, List.append_nil]
  | cons a rest ih => rw [after, ih (act_trace h a), recordedAlong_cons, List.append_assoc]

theorem recordedBy?_withTrace (trace : Option (List TraceEntry)) (a : Action) :
    (m.withTrace trace).recordedBy? a = m.recordedBy? a := by
  cases a with
  | step => exact m.recorded?_outside m.keypad m.delay m.sound trace
  | cycle keys =>
    exact (m.recorded?_outside (m.keypad.setAll keys) m.delay m.sound trace).trans
      (m.recorded?_outside (m.keypad.setAll keys) m.delay m.sound m.trace).symm
  | _ => rfl

/-- What is in the trace has no part in what is added to it. -/
theorem recordedAlong_withTrace (trace : Option (List TraceEntry)) (history : List Action) :
    (m.withTrace trace).recordedAlong history = m.recordedAlong history := by
  induction history generalizing m trace with
  | nil => rfl
  | cons a rest ih =>
    obtain ⟨after, he, -⟩ : ∃ after,
        (m.withTrace trace).act a = ((m.act a).1, (m.act a).2.withTrace after) ∧ True :=
      act_withTrace lasting_any trivial a
    rw [recordedAlong_cons, recordedAlong_cons, recordedBy?_withTrace, he, ih]

end Record

/-- A trace makes no difference to the answers and to the machine, itself apart. It gets one entry
for each step that fetches and decodes an instruction, whatever becomes of the instruction, and none
for the steps of a wait; a reset does not end it. -/
theorem trace_observes (m : Machine) (old : List TraceEntry) (history : List Action) :
    let plain := m.withTrace none
    let traced := m.withTrace (some old)
    traced.answers history = plain.answers history ∧
    traced.after history =
      (plain.after history).withTrace (some (old ++ (plain.steps history).filterMap recorded?)) ∧
    ∀ s : Machine, ∀ pc i, s.recorded? = some (pc, i) ↔
      s.awaiting = none ∧ pc = s.pc ∧ ∃ word, s.fetch = .ok word ∧
        word = Word.ofBytes (s.memory.byteAt pc.toNat) (s.memory.byteAt (pc.toNat + 1)) ∧
          Instruction.decode word = .ok i := by
  intro plain traced
  have htraced : traced = plain.withTrace (some old) := rfl
  rw [htraced]
  obtain ⟨hanswers, after, hafter, -⟩ :
      (plain.withTrace (some old)).answers history = plain.answers history ∧
      ∃ after, (plain.withTrace (some old)).after history =
        (plain.after history).withTrace after ∧ True :=
    history_withTrace lasting_any trivial history
  refine ⟨hanswers, ?_, fun s pc i => recorded?_eq_some_iff⟩
  have htrace : after = some (old ++ plain.recordedAlong history) := by
    have hkept := after_trace (m := plain.withTrace (some old)) rfl history
    rw [hafter, recordedAlong_withTrace] at hkept
    exact hkept
  rw [← recordedAlong, ← htrace]
  exact hafter

end Chip8.Machine
