import Chip8.Proofs.KeyEdges
import Chip8.Proofs.StepRules
import Chip8.Proofs.WordForms

/-!
# Waiting for a key

The instruction that waits for a key holds the program counter and forgets the presses up to then.
While no key goes down, steps change nothing. The first step behind a press takes over the key that
went down last and goes on with the program, whether or not the key is still held.
-/
namespace Chip8.Machine

/-- While a key is awaited and no step finds a press, only the keypad and the timers change, and the
keypad remembers the last key that went down. -/
theorem after_of_awaiting {w : Machine} {x : Register} (hx : w.awaiting = some x)
    {history : List Action} (hh : ∀ a ∈ history, a.runs)
    (hs : ∀ before rest, history = before ++ .step :: rest →
      w.keypad.pressed = none ∧ w.presses before = []) :
    ∃ keypad delay sound, w.after history = w.outside keypad delay sound w.trace ∧
      keypad.pressed = (w.presses history).getLast?.or w.keypad.pressed := by
  induction history generalizing w with
  | nil => exact ⟨w.keypad, w.delay, w.sound, rfl, rfl⟩
  | cons a rest ih =>
    obtain ⟨ha, hrest⟩ := List.forall_mem_cons.mp hh
    by_cases hst : a = .step
    · subst hst
      have hk := (hs [] rest rfl).1
      have hw : (w.act .step).2 = w := congrArg Prod.snd (step_waiting hx hk)
      rw [after, presses, hw]
      refine ih hx hrest fun before later he => ⟨hk, ?_⟩
      have hb := (hs (.step :: before) later (by rw [he]; rfl)).2
      rw [presses, hw] at hb
      exact hb
    · obtain ⟨keypad, delay, sound, he⟩ := (act_of_runs (m := w) ha).resolve_left hst
      have hpr := pressed_act ha hst (m := w)
      obtain ⟨keypad', delay', sound', ho, hk'⟩ := ih (w := (w.act a).2) (by rw [he]; exact hx)
        hrest fun before later hl => by
          obtain ⟨hk, hb⟩ := hs (a :: before) later (by rw [hl]; rfl)
          obtain ⟨hea, hb⟩ := List.append_eq_nil_iff.mp hb
          rw [hpr, hea, hk]
          exact ⟨rfl, hb⟩
      refine ⟨keypad', delay', sound', ?_, ?_⟩
      · rw [after, ho, he]
        rfl
      · rw [hk', hpr, presses, List.getLast?_append, Option.or_assoc]

section Awaiting

variable {w : Machine} {x : Register} (hx : w.awaiting = some x) (hk : w.keypad.pressed = none)
  {idle : List Action} (hi : ∀ a ∈ idle, a.runs) (hn : w.presses idle = [])
include hx hk hi hn

theorem wait_goes_on :
    let v := w.after idle
    v = { w with keypad := v.keypad, delay := v.delay, sound := v.sound } ∧
      v.step = (.ok .wait, v) := by
  obtain ⟨keypad, delay, sound, hafter, hkeys⟩ := after_of_awaiting hx hi
    fun before rest he => ⟨hk, presses_eq_nil_of_append (he ▸ hn)⟩
  rw [hn, hk] at hkeys
  simp only [hafter]
  exact ⟨rfl, step_waiting hx hkeys⟩

theorem wait_ends {events : List Action} {key : Key} (hev : ∀ a ∈ events, a.runs ∧ a ≠ .step)
    (hlast : (w.presses (idle ++ events)).getLast? = some key) :
    let v := w.after (idle ++ events)
    v = { w with keypad := v.keypad, delay := v.delay, sound := v.sound } ∧
      v.step = (.ok .quiet,
        { v with
          registers := (v.setRegister x (UInt8.ofNat key)).registers, pc := v.pc + 2,
          keypad := { v.keypad with pressed := none }, awaiting := none }) := by
  have hall : ∀ a ∈ idle ++ events, a.runs :=
    List.forall_mem_append.mpr ⟨hi, fun a hm => (hev a hm).1⟩
  obtain ⟨keypad, delay, sound, hafter, hkeys⟩ := after_of_awaiting hx hall fun before rest he => by
    -- a step among all the actions lies in the idle part
    rcases List.append_eq_append_iff.mp he with ⟨late, -, hl⟩ | ⟨later, hl, -⟩
    · exact absurd rfl (hev .step (by rw [hl]; simp)).2
    · exact ⟨hk, presses_eq_nil_of_append (hl ▸ hn)⟩
  rw [hlast] at hkeys
  simp only [hafter]
  exact ⟨rfl, step_resumed hx hkeys⟩

end Awaiting

/-- A wait as a whole: how it starts, how it goes on while no key goes down and how the first step
behind a press ends it. -/
theorem key_wait {m : Machine} {x : Register} (ha : m.awaiting = none)
    (hp : m.pc.toNat ≤ 0xFFE) (hw : m.here.toNat = 0xF00A + 256 * x.val)
    {lead : List Action} (hl : ∀ a ∈ lead, a.runs ∧ a ≠ .step) :
    let s := m.after lead
    s = { m with keypad := s.keypad, delay := s.delay, sound := s.sound } ∧
    s.step = (.ok .wait,
      { s with
        word := m.here, keypad := { s.keypad with pressed := none }, awaiting := some x,
        trace := m.trace.map (· ++ [(m.pc, .awaitKey x)]) }) ∧
    ∀ idle : List Action, (∀ a ∈ idle, a.runs) → s.step.2.presses idle = [] →
      let w := s.step.2.after idle
      (w = { s.step.2 with keypad := w.keypad, delay := w.delay, sound := w.sound } ∧
        w.step = (.ok .wait, w)) ∧
      ∀ (events : List Action) (key : Key), (∀ a ∈ events, a.runs ∧ a ≠ .step) →
        (s.step.2.presses (idle ++ events)).getLast? = some key →
        let v := s.step.2.after (idle ++ events)
        v = { s.step.2 with keypad := v.keypad, delay := v.delay, sound := v.sound } ∧
        v.step = (.ok .quiet,
          { v with
            registers := (v.setRegister x (UInt8.ofNat key)).registers, pc := v.pc + 2,
            keypad := { v.keypad with pressed := none }, awaiting := none }) ∧
        (v.pc + 2).toNat = m.pc.toNat + 2 := by
  obtain ⟨keypad, delay, sound, hs⟩ := after_without_steps (m := m) hl
  have hd : Instruction.ofWord? (m.after lead).here = some (.awaitKey x) := by
    rw [hs]
    exact Instruction.ofWord?_eq_awaitKey_iff.mpr hw
  have hstep := step_awaitKey (by rw [hs]; exact ha) (by rw [hs]; exact hp) hd
  have hx : (m.after lead).step.2.awaiting = some x := by rw [hstep]
  have hk : (m.after lead).step.2.keypad.pressed = none := by rw [hstep]
  have hpc : (m.after lead).step.2.pc = m.pc := by rw [hstep, hs]; rfl
  refine ⟨by rw [hs]; rfl, by rw [hstep, hs]; rfl, fun idle hi hn => ?_⟩
  refine ⟨wait_goes_on hx hk hi hn, fun events key hev hlast => ?_⟩
  obtain ⟨hv, he⟩ := wait_ends hx hk hi hn hev hlast
  refine ⟨hv, he, ?_⟩
  rw [hv]
  change ((m.after lead).step.2.pc + 2).toNat = _
  rw [hpc]
  exact toNat_add_two (by omega)

/-- A machine that starts with a wait into the register 3. -/
def startingToWait : Machine :=
  initial ⟨"", []⟩ (Memory.blank.overlay start [0xF3, 0x0A]) (RandomSource.repeating [])

/-- The key 5 is held across the start of the wait, then pressed once more and followed by the key
12, which the number 44 names too and which is released again before the step. -/
theorem key_wait_released :
    let s := startingToWait.after [.setKey 5 true]
    let v := s.step.2.after
      ([.step, .tick, .setKey 5 true, .setKey 5 false] ++
        [.setKey 5 true, .toggleKey 44, .setKey 12 false])
    s.step.1 = .ok .wait ∧ v.step.1 = .ok .quiet ∧ v.step.2.register 3 = 12 ∧
      v.step.2.pc = 0x202 := by
  have hw : startingToWait.here.toNat = 0xF00A + 256 * (Nibble.ofNat 3).val := by
    have hh : startingToWait.here = 0xF30A := here_initial _ _ _ 0xF3 0x0A []
    rw [hh]
    rfl
  have hl : ∀ a ∈ [Action.setKey 5 true], a.runs ∧ a ≠ .step := by simp [Action.runs]
  obtain ⟨hs, hstep, hgo⟩ := key_wait rfl (by decide) hw hl
  have hi : ∀ a ∈ [Action.step, .tick, .setKey 5 true, .setKey 5 false], a.runs := by decide
  have hev : ∀ a ∈ [Action.setKey 5 true, .toggleKey 44, .setKey 12 false],
      a.runs ∧ a ≠ .step := by simp [Action.runs]
  obtain ⟨-, hend⟩ := hgo _ hi (by rw [hstep]; rfl)
  obtain ⟨hv, he, -⟩ := hend _ (Nibble.ofNat 12) hev (by rw [hstep]; rfl)
  refine ⟨by rw [hstep], by rw [he], ?_, ?_⟩
  · rw [he]
    exact Vector.getElem_set_self _
  · rw [he, hv, hstep]
    rfl

end Chip8.Machine
