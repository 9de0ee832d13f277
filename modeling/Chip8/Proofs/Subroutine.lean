import Chip8.Proofs.HistoryInvariant
import Chip8.Proofs.StepRules
import Chip8.Proofs.WordForms

/-!
# Subroutines

A call puts the address behind it on top of the call stack. A step touches the top of the stack
only, so the address stays where it is until a return takes it, however many calls, faults and waits
lie between; that return goes behind the call and leaves the stack as the call found it.
-/
namespace Chip8.Machine

/-- The next step executes a return. -/
structure Returns (m : Machine) : Prop where
  awaiting : m.awaiting = none
  fetch : m.fetch = .ok 0x00EE
  result : m.step.1 = .ok .quiet

/-- At every moment of a history, its start and its end included, the call stack holds more than a
number of entries. -/
def StaysAbove (m : Machine) (depth : Nat) : List Action → Prop
  | [] => depth < m.stack.entries.length
  | a :: rest => depth < m.stack.entries.length ∧ (m.act a).2.StaysAbove depth rest

/-- The entries at the bottom of the call stack, the newest of them the address of an open call. -/
def Open (m : Machine) (older : List UInt16) (address : UInt16) : Prop :=
  older ++ [address] <+: m.stack.entries

theorem StaysAbove.start {m : Machine} {depth : Nat} {history : List Action}
    (h : m.StaysAbove depth history) : depth < m.stack.entries.length := by
  cases history with
  | nil => exact h
  | cons a rest => exact h.1

/-! ## One step -/

/-- A step leaves the stack alone, puts the address behind the program counter on top of it or
returns to the address on top. -/
theorem step_stack (m : Machine) :
    m.step.2.stack = m.stack ∨ m.step.2.stack.entries = m.stack.entries ++ [m.pc + 2] ∨
      m.Returns ∧ m.stack.entries = m.step.2.stack.entries ++ [m.step.2.pc] := by
  rcases hs : m.step with ⟨result, n⟩
  cases step_cases hs with
  | completed ha hp hd hc =>
    rw [move_stack]
    rcases hc.stack_cases with hk | ⟨target, -, hk⟩ | ⟨target, rfl, rfl, hk⟩
    · exact .inl hk
    · exact .inr (.inl hk)
    · have hw : m.here = 0x00EE := (Instruction.toWord_of_ofWord? hd).symm
      have hf : m.fetch = .ok 0x00EE := hw ▸ fetch_of_le hp
      exact .inr (.inr ⟨⟨ha, hf, by rw [hs]⟩, hk⟩)
  | _ => exact .inl rfl

section Open

variable {m : Machine} {older : List UInt16} {address : UInt16} (h : m.Open older address)
include h

/-- A call stays open in a step, or the step returns from it. -/
theorem Open.step :
    m.step.2.Open older address ∨
      m.Returns ∧ m.step.2.pc = address ∧ m.step.2.stack.entries = older := by
  rcases m.step_stack with hs | hs | ⟨hr, hs⟩
  · left
    unfold Open
    rw [hs]
    exact h
  · refine .inl (h.trans ?_)
    rw [hs]
    exact List.prefix_append _ _
  · unfold Open at h
    rw [hs, List.prefix_concat_iff] at h
    rcases h with he | hin
    · obtain ⟨hold, hnew⟩ := List.append_inj' he rfl
      exact .inr ⟨hr, (List.singleton_inj.mp hnew).symm, hold.symm⟩
    · exact .inl hin

theorem Open.act {a : Action} (ha : a.runs) :
    (m.act a).2.Open older address ∨
      a = .step ∧ m.Returns ∧ (m.act a).2.pc = address ∧ (m.act a).2.stack.entries = older := by
  rcases act_of_runs (m := m) ha with rfl | ⟨keypad, delay, sound, he⟩
  · exact h.step.imp_right fun hr => ⟨rfl, hr⟩
  · rw [he]
    exact .inl h

/-- As long as the stack stays deeper than it was at a call, the call stays open. -/
theorem Open.after {history : List Action} (hh : ∀ a ∈ history, a.runs)
    (hd : m.StaysAbove older.length history) : (m.after history).Open older address := by
  induction history generalizing m with
  | nil => exact h
  | cons a rest ih =>
    obtain ⟨ha, hrest⟩ := List.forall_mem_cons.mp hh
    refine ih ?_ hrest hd.2
    rcases h.act ha with hopen | ⟨-, -, -, hs⟩
    · exact hopen
    · have hdeep := hd.2.start
      rw [hs] at hdeep
      exact absurd hdeep (Nat.lt_irrefl _)

end Open

/-! ## A call and its return -/

theorem step_call {m : Machine} {target : Address} (ha : m.awaiting = none)
    (hp : m.pc.toNat ≤ 0xFFE) (hd : Instruction.ofWord? m.here = some (.call target))
    (hl : m.stack.entries.length < 16) :
    m.step.1 = .ok .quiet ∧ m.step.2.stack.entries = m.stack.entries ++ [m.pc + 2] ∧
      m.step.2.pc = UInt16.ofNat target := by
  rcases effect_cases (m.fetched (.call target)) (.call target) with ⟨fault, hr, -⟩ | ⟨o, n, hc, he⟩
  · cases hr with
    | call _ hfull =>
      change m.stack.entries.length = 16 at hfull
      omega
  · rw [step_completed ha hp hd he]
    cases hc with
    | call _ hs => exact ⟨rfl, hs, rfl⟩

/-- A call as a whole: what it puts on the stack, how long that stays there and which step takes it
away again. -/
theorem call_returns {m : Machine} {target : Address} (ha : m.awaiting = none)
    (hp : m.pc.toNat ≤ 0xFFE) (hw : m.here.toNat = 0x2000 + target)
    (hl : m.stack.entries.length < 16) :
    let called := m.step.2
    m.step.1 = .ok .quiet ∧ called.stack.entries = m.stack.entries ++ [m.pc + 2] ∧
    (m.pc + 2).toNat = m.pc.toNat + 2 ∧ called.pc.toNat = target ∧
    ∀ history : List Action, (∀ a ∈ history, a.runs) →
      called.StaysAbove m.stack.entries.length history →
      let n := called.after history
      m.stack.entries ++ [m.pc + 2] <+: n.stack.entries ∧
      ∀ a : Action, a.runs → (n.act a).2.stack.entries.length ≤ m.stack.entries.length →
        a = .step ∧ n.Returns ∧ n.step.2.pc = m.pc + 2 ∧ n.step.2.stack = m.stack := by
  have hd := Instruction.ofWord?_eq_call_iff.mpr hw
  obtain ⟨hresult, hstack, hpc⟩ := step_call ha hp hd hl
  have hlt := target.isLt
  refine ⟨hresult, hstack, toNat_add_two (by omega), ?_, fun history hh hdeep => ?_⟩
  · rw [hpc, UInt16.toNat_ofNat']
    omega
  have hopen : m.step.2.Open m.stack.entries (m.pc + 2) :=
    ⟨[], (List.append_nil _).trans hstack.symm⟩
  have hafter := hopen.after hh hdeep
  refine ⟨hafter, fun a har hle => ?_⟩
  rcases hafter.act har with hstill | ⟨rfl, hr, hback, hs⟩
  · have hlen := hstill.length_le
    rw [List.length_append, List.length_singleton] at hlen
    omega
  · exact ⟨rfl, hr, hback, CallStack.ext hs⟩

/-- A machine with one older entry on its stack, at some place of a program that calls 0x204, where
it calls 0x202 and returns behind that call; at 0x202 it returns at once. -/
def nesting (word pc : UInt16) (stack : List UInt16) (h : (0x300 :: stack).length ≤ 16) : Machine :=
  { initial ⟨"", []⟩ (Memory.blank.overlay start [0x22, 0x04, 0x00, 0xEE, 0x22, 0x02, 0x00, 0xEE])
      (RandomSource.repeating []) with
    word := word, pc := pc, stack := ⟨0x300 :: stack, h⟩ }

theorem call_returns_nested :
    let m := nesting 0 0x200 [] (by decide)
    let n := m.step.2.after [.step, .tick, .step]
    m.step.2.stack.entries = [0x300, 0x202] ∧ n.Returns ∧ n.step.2.pc = 0x202 ∧
      n.step.2.stack.entries = [0x300] := by
  intro m n
  have hm : m.here = 0x2204 :=
    Memory.blank.wordAt_overlay_add start 0 (by decide) (by decide)
  have h4 {word stack h} : (nesting word 0x204 stack h).here = 0x2202 :=
    Memory.blank.wordAt_overlay_add start 4 (by decide) (by decide)
  have h2 {word stack h} : (nesting word 0x202 stack h).here = 0x00EE :=
    Memory.blank.wordAt_overlay_add start 2 (by decide) (by decide)
  have h6 {word stack h} : (nesting word 0x206 stack h).here = 0x00EE :=
    Memory.blank.wordAt_overlay_add start 6 (by decide) (by decide)
  have hcall : m.step.2 = nesting 0x2204 0x204 [0x202] (by decide) := by
    rw [step_completed rfl (by decide) (by rw [hm]; rfl) rfl, fetched, hm]
    rfl
  have hagain : (nesting 0x2204 0x204 [0x202] (by decide)).step.2 =
      nesting 0x2202 0x202 [0x202, 0x206] (by decide) := by
    rw [step_completed rfl (by decide) (by rw [h4]; rfl) rfl, fetched, h4]
    rfl
  have hback : (nesting 0x2202 0x202 [0x202, 0x206] (by decide)).step.2 =
      nesting 0x00EE 0x206 [0x202] (by decide) := by
    rw [step_completed rfl (by decide) (by rw [h2]; rfl) rfl, fetched, h2]
    rfl
  have hend : (nesting 0x00EE 0x206 [0x202] (by decide)).step.2 =
      nesting 0x00EE 0x202 [] (by decide) := by
    rw [step_completed rfl (by decide) (by rw [h6]; rfl) rfl, fetched, h6]
    rfl
  have htick : (nesting 0x2202 0x202 [0x202, 0x206] (by decide)).tick =
      nesting 0x2202 0x202 [0x202, 0x206] (by decide) := rfl
  have hrun (k : Machine) : k.after [.step, .tick, .step] = k.step.2.tick.step.2 := rfl
  have hn : n = nesting 0x00EE 0x206 [0x202] (by decide) := by
    rw [show n = m.step.2.after _ from rfl, hrun, hcall, hagain, htick, hback]
  have hdeep : m.step.2.StaysAbove m.stack.entries.length [.step, .tick, .step] := by
    have hall (k : Machine) : k.StaysAbove 1 [.step, .tick, .step] ↔
      1 < k.stack.entries.length ∧ 1 < k.step.2.stack.entries.length ∧
        1 < k.step.2.tick.stack.entries.length ∧
          1 < k.step.2.tick.step.2.stack.entries.length := Iff.rfl
    refine (hall _).mpr ?_
    rw [hcall, hagain, htick, hback]
    decide
  have hw : m.here.toNat = 0x2000 + (⟨0x204, by decide⟩ : Address) := by
    rw [hm]
    decide
  obtain ⟨-, hstack, -, -, hgo⟩ := call_returns rfl (by decide) hw (by decide)
  have hle : (n.act .step).2.stack.entries.length ≤ m.stack.entries.length := by
    have hact (k : Machine) : (k.act .step).2 = k.step.2 := rfl
    rw [hact, hn, hend]
    exact Nat.le_refl 1
  obtain ⟨-, hr, hpc, hs⟩ := (hgo [.step, .tick, .step] (by decide) hdeep).2 .step rfl hle
  exact ⟨hstack, hr, hpc, by rw [hs]; rfl⟩

end Chip8.Machine
