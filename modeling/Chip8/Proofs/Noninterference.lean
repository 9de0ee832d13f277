import Mathlib.Data.List.Forall2
import Chip8.Proofs.ExecutedSteps

/-!
# What the outside world can reach

A host reaches the keypad, the timers and the random source of a machine, and five kinds of
instructions look there: the one for random bytes, the two skips on a key, the one that reads the
delay timer and the one that waits for a key. As long as a program executes none of them, nothing
that its host does shows in its steps. Two runs of such a program, in surroundings that have nothing
in common and with whatever ticks and keys between the steps, go the same way step by step, and fail
in the same way where they fail.
-/
namespace Chip8

/-- The instructions that take something from outside the program: a random byte, the state of a
key, the delay timer or a press. -/
def Instruction.asksOutside : Instruction → Bool
  | random .. | skip (.held _) | skip (.released _) | readDelay _ | awaitKey _ => true
  | _ => false

def Action.isStep : Action → Bool
  | step => true
  | _ => false

theorem Action.isStep_iff {a : Action} : a.isStep = true ↔ a = .step := by
  cases a <;> simp [isStep]

namespace Machine

/-- Two machines that await no key and have in common what a program works on. -/
structure Alike (m n : Machine) : Prop where
  running : m.awaiting = none ∧ n.awaiting = none
  pc : n.pc = m.pc
  index : n.index = m.index
  registers : n.registers = m.registers
  stack : n.stack = m.stack
  memory : n.memory = m.memory
  word : n.word = m.word
  screen : n.screen = m.screen

/-- The machine in other surroundings: with the image, the timers, the keypad, the random source and
the record of another one. -/
def among (m s : Machine) : Machine :=
  { m with
    rom := s.rom, delay := s.delay, sound := s.sound, keypad := s.keypad, random := s.random,
    trace := s.trace }

/-- Machines that are alike differ in their surroundings only. -/
theorem alike_iff {m n : Machine} : m.Alike n ↔ m.awaiting = none ∧ n = m.among n := by
  constructor
  · intro h
    obtain ⟨⟨ha, hn⟩, hpc, hindex, hregisters, hstack, hmemory, hword, hscreen⟩ := h
    refine ⟨ha, ?_⟩
    obtain ⟨rom, word, memory, registers, index, pc, stack, delay, sound, screen, keypad, awaiting,
      random, trace⟩ := n
    simp only at hn hpc hindex hregisters hstack hmemory hword hscreen
    simp only [among, hn, ha, hpc, hindex, hregisters, hstack, hmemory, hword, hscreen]
  · rintro ⟨ha, hn⟩
    rw [hn]
    exact ⟨⟨ha, ha⟩, rfl, rfl, rfl, rfl, rfl, rfl, rfl⟩

/-! ## Instructions in other surroundings -/

theorem arithmetic_among (m s : Machine) (op : Alu.Operation) (x y : Register) :
    (m.arithmetic op x y).among s = (m.among s).arithmetic op x y := by
  have hf : op.flag? ((m.among s).register x) ((m.among s).register y) =
    op.flag? (m.register x) (m.register y) := rfl
  simp only [arithmetic, hf]
  cases op.flag? (m.register x) (m.register y) <;> rfl

theorem move_among (m s : Machine) (flow : Flow) : (m.move flow).among s = (m.among s).move flow := by
  cases flow <;> rfl

/-- An instruction that asks for nothing outside does the same wherever it is executed. It may set a
timer, and sets it to the same then. -/
theorem Completed.among {m n : Machine} {i : Instruction} {o : Outcome} (h : Completed m i o n)
    (hi : i.asksOutside = false) (s : Machine) :
    ∃ t, Completed (m.among s) i o (n.among t) := by
  cases h with
  | clear => exact ⟨s, .clear⟩
  | ret he => exact ⟨s, .ret he⟩
  | jump target => exact ⟨s, .jump target⟩
  | call target he => exact ⟨s, .call target he⟩
  | skip c =>
    cases c with
    | held x | released x => cases hi
    | equal | unequal | same | different => exact ⟨s, .skip _⟩
  | load x kk => exact ⟨s, .load x kk⟩
  | add x kk => exact ⟨s, .add x kk⟩
  | arithmetic op x y =>
    refine ⟨s, ?_⟩
    rw [arithmetic_among]
    exact .arithmetic op x y
  | loadIndex a => exact ⟨s, .loadIndex a⟩
  | jumpOffset base => exact ⟨s, .jumpOffset base⟩
  | draw x y rows hr hs => exact ⟨s, .draw x y rows hr hs⟩
  | setDelay x => exact ⟨{ s with delay := ⟨m.register x⟩ }, .setDelay x⟩
  | setSound x => exact ⟨{ s with sound := ⟨m.register x⟩ }, .setSound x⟩
  | addIndex x => exact ⟨s, .addIndex x⟩
  | loadGlyph x => exact ⟨s, .loadGlyph x⟩
  | storeDigits x hs => exact ⟨s, .storeDigits x hs⟩
  | storeRegisters last hs => exact ⟨s, .storeRegisters last hs⟩
  | fillRegisters last hr => exact ⟨s, .fillRegisters last hr⟩
  | random | readDelay | awaitKey => cases hi

/-- A step that asks for nothing outside ends in the same way in all surroundings. -/
theorem StepCase.among {m n : Machine} {result : Except Fault Signal} (h : StepCase m result n)
    (ha : m.awaiting = none) (hi : ∀ i, m.found? = some i → i.asksOutside = false) (s : Machine) :
    n.awaiting = none ∧ ∃ t, StepCase (m.among s) result (n.among t) := by
  cases h with
  | waiting hx | resumed hx => cases ha.symm.trans hx
  | unfetched _ hp => exact ⟨ha, s, .unfetched ha hp⟩
  | undecoded _ hp hd => exact ⟨ha, s, .undecoded ha hp hd⟩
  | @refused i fault _ hp hd hr =>
    exact ⟨ha, s.record (m.pc, i), .refused ha hp hd (hr.congr rfl rfl)⟩
  | @completed i o n _ hp hd hc =>
    have hq := hi i ((found?_of_le ha hp).trans hd)
    obtain ⟨t, hc'⟩ := hc.among hq (s.record (m.pc, i))
    refine ⟨?_, t, ?_⟩
    · rw [move_awaiting]
      rcases hc.awaiting_cases with ⟨x, rfl, -, -⟩ | ⟨hn, -⟩
      · cases hq
      · exact hn.trans ha
    · rw [move_among]
      exact .completed ha hp hd hc'

/-! ## Runs in other surroundings -/

section Alike

variable {m n : Machine} (h : m.Alike n)
include h

/-- A step of either machine is a step of the other one. -/
theorem Alike.step (hi : ∀ i, m.found? = some i → i.asksOutside = false) :
    m.step.1 = n.step.1 ∧ m.step.2.Alike n.step.2 := by
  obtain ⟨ha, hn⟩ := alike_iff.mp h
  rcases hs : m.step with ⟨result, k⟩
  obtain ⟨hk, t, hc⟩ := (step_cases hs).among ha hi n
  rw [hn, hc.step_eq]
  exact ⟨rfl, alike_iff.mpr ⟨hk, rfl⟩⟩

theorem Alike.outside_left (keypad : Keypad) (delay sound : Timer)
    (trace : Option (List TraceEntry)) : (m.outside keypad delay sound trace).Alike n := by
  obtain ⟨ha, hpc, hindex, hregisters, hstack, hmemory, hword, hscreen⟩ := h
  exact ⟨ha, hpc, hindex, hregisters, hstack, hmemory, hword, hscreen⟩

theorem Alike.outside_right (keypad : Keypad) (delay sound : Timer)
    (trace : Option (List TraceEntry)) : m.Alike (n.outside keypad delay sound trace) := by
  obtain ⟨ha, hpc, hindex, hregisters, hstack, hmemory, hword, hscreen⟩ := h
  exact ⟨ha, hpc, hindex, hregisters, hstack, hmemory, hword, hscreen⟩

end Alike

theorem stepper?_of_runs {m : Machine} {a : Action} (ha : a.runs) (hs : a ≠ .step) :
    m.stepper? a = none := by
  cases a with
  | step => exact absurd rfl hs
  | cycle => cases ha
  | _ => rfl

theorem steps_without_steps {m : Machine} {history : List Action}
    (hh : ∀ a ∈ history, a.runs ∧ a ≠ .step) : m.steps history = [] := by
  induction history generalizing m with
  | nil => rfl
  | cons a rest ih =>
    obtain ⟨⟨ha, hs⟩, hrest⟩ := List.forall_mem_cons.mp hh
    rw [steps, stepper?_of_runs ha hs, ih hrest]
    rfl

theorem length_steps {m : Machine} {history : List Action} (hh : ∀ a ∈ history, a.runs) :
    (m.steps history).length = history.countP Action.isStep := by
  induction history generalizing m with
  | nil => rfl
  | cons a rest ih =>
    obtain ⟨ha, hrest⟩ := List.forall_mem_cons.mp hh
    rw [steps, List.length_append, ih hrest, List.countP_cons]
    by_cases hs : a = .step
    · subst hs
      exact Nat.add_comm ..
    · rw [stepper?_of_runs ha hs, if_neg (mt Action.isStep_iff.mp hs)]
      exact Nat.zero_add _

/-- A run with a step in it, taken apart at the first one. -/
theorem exists_first_step {m : Machine} {history : List Action} (hh : ∀ a ∈ history, a.runs)
    (hc : 0 < history.countP Action.isStep) :
    ∃ keypad delay sound rest, (∀ a ∈ rest, a.runs) ∧
      history.countP Action.isStep = rest.countP Action.isStep + 1 ∧
      let n := m.outside keypad delay sound m.trace
      m.steps history = n :: n.step.2.steps rest ∧ m.after history = n.step.2.after rest := by
  obtain ⟨a, hin, hs⟩ := List.countP_pos_iff.mp hc
  obtain rfl := Action.isStep_iff.mp hs
  obtain ⟨quiet, rest, rfl, hq⟩ := List.eq_append_cons_of_mem hin
  obtain ⟨hquiet, htail⟩ := List.forall_mem_append.mp hh
  have hidle : ∀ a ∈ quiet, a.runs ∧ a ≠ .step :=
    fun a ha => ⟨hquiet a ha, fun he => hq (he ▸ ha)⟩
  obtain ⟨keypad, delay, sound, he⟩ := after_without_steps (m := m) hidle
  refine ⟨keypad, delay, sound, rest, (List.forall_mem_cons.mp htail).2, ?_, ?_, ?_⟩
  · have hnone : quiet.countP Action.isStep = 0 :=
      List.countP_eq_zero.mpr fun a ha => mt Action.isStep_iff.mp (hidle a ha).2
    rw [List.countP_append, hnone, Nat.zero_add]
    exact List.countP_cons_of_pos rfl
  · rw [steps_append, steps_without_steps hidle, he]
    rfl
  · rw [after_append, he]
    rfl

/-- Two machines that are alike stay so along runs with equally many steps, and each step of the one
ends as the step of the other one does. -/
theorem Alike.after {m n : Machine} (h : m.Alike n) {first second : List Action}
    (hf : ∀ a ∈ first, a.runs) (hs : ∀ a ∈ second, a.runs)
    (hcount : first.countP Action.isStep = second.countP Action.isStep)
    (hi : ∀ s ∈ m.steps first, ∀ i, s.found? = some i → i.asksOutside = false) :
    List.Forall₂ (fun s t => s.step.1 = t.step.1 ∧ s.step.2.Alike t.step.2)
      (m.steps first) (n.steps second) ∧ (m.after first).Alike (n.after second) := by
  induction first generalizing m n second with
  | nil =>
    have hidle : ∀ a ∈ second, a.runs ∧ a ≠ .step := by
      intro a ha
      have hnot := List.countP_eq_zero.mp hcount.symm a ha
      exact ⟨hs a ha, mt Action.isStep_iff.mpr hnot⟩
    obtain ⟨keypad, delay, sound, he⟩ := after_without_steps (m := n) hidle
    rw [steps_without_steps hidle, he]
    exact ⟨.nil, h.outside_right keypad delay sound n.trace⟩
  | cons a rest ih =>
    obtain ⟨ha, hrest⟩ := List.forall_mem_cons.mp hf
    by_cases hst : a = .step
    · subst hst
      rw [List.countP_cons_of_pos rfl] at hcount
      obtain ⟨keypad, delay, sound, later, hlater, hlen, hsteps, hafter⟩ :=
        exists_first_step (m := n) hs (by omega)
      obtain ⟨hfirst, hothers⟩ := List.forall_mem_cons.mp hi
      -- the ticks and keys before the other step are not seen
      obtain ⟨hresult, hnext⟩ := (h.outside_right keypad delay sound n.trace).step hfirst
      obtain ⟨hall, hend⟩ := ih hnext hrest hlater (by omega) hothers
      rw [hsteps, hafter]
      exact ⟨.cons ⟨hresult, hnext⟩ hall, hend⟩
    · obtain ⟨keypad, delay, sound, he⟩ := (act_of_runs (m := m) ha).resolve_left hst
      have hnext : (m.act a).2.Alike n := by
        rw [he]
        exact h.outside_left keypad delay sound m.trace
      rw [List.countP_cons_of_neg (mt Action.isStep_iff.mp hst)] at hcount
      rw [steps, stepper?_of_runs ha hst] at hi ⊢
      exact ih hnext hrest hs hcount hi

/-- Two machines that are alike, in any surroundings and with any ticks and keys between equally
many steps. As long as the first one asks for nothing outside, the steps of both end in the same
way, one after the other, and leave the machines alike. -/
theorem surroundings_unseen {m n : Machine} (h : m.Alike n) {first second : List Action}
    (hf : ∀ a ∈ first, a.runs) (hs : ∀ a ∈ second, a.runs)
    (hcount : first.countP Action.isStep = second.countP Action.isStep)
    (hi : ∀ s ∈ m.steps first, ∀ i, s.found? = some i → i.asksOutside = false) :
    (m.steps first).length = first.countP Action.isStep ∧
    List.Forall₂ (fun s t => s.step.1 = t.step.1 ∧ s.step.2.Alike t.step.2)
      (m.steps first) (n.steps second) ∧
    (m.after first).Alike (n.after second) :=
  ⟨length_steps hf, h.after hf hs hcount hi⟩

/-- A machine with a program that loads the register 1 and then returns, with no call open. -/
def returningAstray (delay : Timer) (keypad : Keypad) (random : RandomSource) : Machine :=
  { initial ⟨"", []⟩ (Memory.blank.overlay start [0x61, 0x05, 0x00, 0xEE]) random with
    delay := delay, keypad := keypad }

/-- Other timers, other keys and other random bytes do not keep the return from failing. -/
theorem surroundings_unseen_failing :
    let m := returningAstray .stopped .untouched (RandomSource.repeating [])
    let n := returningAstray ⟨9⟩ (Keypad.untouched.set 3 true) (RandomSource.repeating [7])
    let second := [.setKey 5 true, .step, .step, .toggleKey 44]
    (n.steps second).map (·.step.1) = [.ok .quiet, .error .stackUnderflow] ∧
      (m.after [.step, .tick, .step]).Alike (n.after second) := by
  intro m n second
  have hload : m.found? = some (.load (Nibble.ofNat 1) 5) := by
    have hw : m.memory.wordAt 0x200 = 0x6105 :=
      Memory.blank.wordAt_overlay_add start 0 (by decide) (by decide)
    exact found?_of_wordAt rfl rfl (by decide) hw rfl
  have hstep : m.step =
      (.ok .quiet, (m.fetched (.load (Nibble.ofNat 1) 5)).setRegister (Nibble.ofNat 1) 5) := by
    obtain ⟨ha, hp, hd⟩ := found?_eq_some_iff.mp hload
    exact step_completed ha hp hd rfl
  generalize hk : m.step.2.tick = k
  have hreturn : k.found? = some .ret := by
    have hpc : k.pc.toNat = 0x202 := by
      rw [← hk, hstep]
      rfl
    have hw : k.memory.wordAt 0x202 = 0x00EE := by
      rw [← hk, hstep]
      exact Memory.blank.wordAt_overlay_add start 2 (by decide) (by decide)
    exact found?_of_wordAt (by rw [← hk, hstep]; rfl) hpc (by decide) hw rfl
  have hfail : k.step.1 = .error .stackUnderflow := by
    obtain ⟨ha, hp, hd⟩ := found?_eq_some_iff.mp hreturn
    rw [step_refused ha hp hd (.ret (by rw [← hk, hstep]; rfl))]
  have hfirst (k : Machine) : k.steps [.step, .tick, .step] = [k, k.step.2.tick] := rfl
  have hsecond (k : Machine) :
      k.steps second = [k.setKey 5 true, (k.setKey 5 true).step.2] := rfl
  have hsteps : m.steps [.step, .tick, .step] = [m, k] := by rw [hfirst, hk]
  have hi : ∀ s ∈ m.steps [.step, .tick, .step], ∀ i, s.found? = some i →
      i.asksOutside = false := by
    rw [hsteps]
    simp [hload, hreturn, Instruction.asksOutside]
  have halike : m.Alike n := ⟨⟨rfl, rfl⟩, rfl, rfl, rfl, rfl, rfl, rfl, rfl⟩
  have hf : ∀ a ∈ [Action.step, .tick, .step], a.runs := by decide
  have hs : ∀ a ∈ second, a.runs := by decide
  obtain ⟨-, hall, hend⟩ := surroundings_unseen halike hf hs rfl hi
  refine ⟨?_, hend⟩
  rw [hsteps, hsecond] at hall
  obtain ⟨⟨h0, -⟩, hall⟩ := List.forall₂_cons.mp hall
  obtain ⟨⟨h1, -⟩, -⟩ := List.forall₂_cons.mp hall
  rw [hsecond, List.map_cons, List.map_cons, ← h0, ← h1, hstep, hfail]
  rfl

end Machine
end Chip8
