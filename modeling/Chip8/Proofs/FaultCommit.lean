import Chip8.Proofs.HistoryInvariant
import Chip8.Proofs.StepRules

/-!
# What a failed step leaves behind

A step that finds no word leaves the machine alone, so every later step fails in the same way until
the program counter is moved or the program is started again. A step that fails later has moved
behind the word and kept it, and has changed nothing else; an instruction that was found is on
record even when it was refused.
-/
namespace Chip8.Machine

/-- No step and no change from outside moves a program counter that has left the memory. -/
theorem unfetched_after {m : Machine} (ha : m.awaiting = none) (hp : 0xFFE < m.pc.toNat)
    {history : List Action} (hh : ∀ a ∈ history, a.runs) :
    (m.after history).step = (.error (.outOfRange m.pc.toNat 2 4096), m.after history) := by
  obtain ⟨ha', hp'⟩ : (m.after history).awaiting = none ∧ (m.after history).pc = m.pc := by
    refine runs_induction (P := fun n => n.awaiting = none ∧ n.pc = m.pc) ?_ ?_ ⟨ha, rfl⟩ hh
    · rintro n ⟨hn, hpc⟩
      rw [step_unfetched hn (by rw [hpc]; exact hp)]
      exact ⟨hn, hpc⟩
    · exact fun n keypad delay sound trace h => h
  rw [step_unfetched ha' (by rw [hp']; exact hp), hp']

/-- The commit rule of a failed step, by the place where it failed. -/
theorem step_fault_commits {m : Machine} {fault : Fault} (h : m.step.1 = .error fault) :
    (0xFFE < m.pc.toNat ∧ fault = .outOfRange m.pc.toNat 2 4096 ∧ m.step.2 = m ∧
      ∀ history : List Action, (∀ a ∈ history, a.runs) →
        (m.after history).step = (.error fault, m.after history)) ∨
    (m.pc.toNat ≤ 0xFFE ∧
      ((Instruction.ofWord? m.here = none ∧ fault = .invalidOpcode m.here ∧
          m.step.2 = { m with pc := m.pc + 2, word := m.here }) ∨
        ∃ i, Instruction.ofWord? m.here = some i ∧ Refused m i fault ∧
          m.step.2 = { m with
            pc := m.pc + 2, word := m.here, trace := m.trace.map (· ++ [(m.pc, i)]) })) := by
  rcases hs : m.step with ⟨result, n⟩
  rw [hs] at h
  cases h
  cases step_cases hs with
  | unfetched ha hp =>
    exact .inl ⟨hp, rfl, rfl, fun history hh => unfetched_after ha hp hh⟩
  | undecoded ha hp hd => exact .inr ⟨hp, .inl ⟨hd, rfl, rfl⟩⟩
  | refused ha hp hd hr => exact .inr ⟨hp, .inr ⟨_, hd, hr, rfl⟩⟩

/-- A machine about to draw two rows of which only the first one lies in the memory. -/
def drawingPastEnd : Machine :=
  { initial ⟨"", []⟩ (Memory.blank.overlay start [0xD0, 0x12]) (RandomSource.repeating []) with
    index := 0xFFF }

theorem step_fault_commits_drawing :
    drawingPastEnd.step.1 = .error (.outOfRange 0xFFF 2 4096) ∧
      drawingPastEnd.step.2 = { drawingPastEnd with pc := 0x202, word := 0xD012 } := by
  have hw : drawingPastEnd.here = 0xD012 := Memory.wordAt_overlay _ 0xD0 0x12 [] (by decide)
  have hd : Instruction.ofWord? drawingPastEnd.here =
      some (.draw (Nibble.ofNat 0) (Nibble.ofNat 1) (Nibble.ofNat 2)) := by rw [hw]; rfl
  have hf : drawingPastEnd.step.1 = .error (.outOfRange 0xFFF 2 4096) := by
    rw [step_refused rfl (by decide) hd (.draw _ _ _ (by decide))]
    rfl
  rcases step_fault_commits hf with ⟨hp, -⟩ | ⟨-, ⟨hn, -⟩ | ⟨i, -, -, hs⟩⟩
  · exact absurd hp (by decide)
  · rw [hd] at hn
    cases hn
  · exact ⟨hf, hs.trans (by rw [hw]; rfl)⟩

end Chip8.Machine
