import Chip8.Machine.Action

/-!
# Invariants along histories

While a program runs, a host takes steps, lets the timers tick and presses keys. Nothing but a step
reaches more than the keypad and the timers, so a property that does not speak of these has to be
shown for steps alone, and for fresh machines where a history may start the program again.
-/
namespace Chip8

/-- The actions that go on while a program runs: steps, ticks and key events. -/
def Action.runs : Action → Bool
  | .step | .tick | .setKey .. | .toggleKey _ | .setKeys _ => true
  | _ => false

/-- The actions that leave the program in charge: all but executing an instruction that was not
fetched and moving the program counter. -/
def Action.hosted : Action → Bool
  | .execute _ | .move _ => false
  | _ => true

namespace Machine

/-- The machine with other keys, timers and records. -/
def outside (m : Machine) (keypad : Keypad) (delay sound : Timer)
    (trace : Option (List TraceEntry)) : Machine :=
  { m with keypad := keypad, delay := delay, sound := sound, trace := trace }

/-- A machine at the start of its program. -/
def Fresh (m : Machine) : Prop :=
  ∃ rom memory random trace, m = { initial rom memory random with trace := trace }

theorem exists_of_map_eq_ok {α β : Type} {e : Except Fault α} {f : α → β} {b : β}
    (h : e.map f = .ok b) : ∃ a, e = .ok a ∧ f a = b := by
  cases e with
  | error fault => cases h
  | ok a => exact ⟨a, rfl, Except.ok.inj h⟩

theorem exists_of_create {rom : Rom} {random : RandomSource} {m : Machine}
    (h : create rom random = .ok m) :
    ∃ memory, load rom = .ok memory ∧ m = initial rom memory random := by
  obtain ⟨memory, hl, he⟩ := exists_of_map_eq_ok h
  exact ⟨memory, hl, he.symm⟩

theorem fresh_of_create {rom : Rom} {random : RandomSource} {m : Machine}
    (h : create rom random = .ok m) : m.Fresh := by
  obtain ⟨memory, -, rfl⟩ := exists_of_create h
  exact ⟨rom, memory, random, none, rfl⟩

/-- What a reset leaves, if the image can be loaded. -/
theorem exists_of_reset {m n : Machine} (h : m.reset = .ok n) :
    ∃ memory, load m.rom = .ok memory ∧
      n = { initial m.rom memory m.random with trace := m.trace } := by
  rw [reset_eq] at h
  obtain ⟨memory, hl, he⟩ := exists_of_map_eq_ok h
  exact ⟨memory, hl, he.symm⟩

theorem fresh_of_reset {m n : Machine} (h : m.reset = .ok n) : n.Fresh := by
  obtain ⟨memory, -, rfl⟩ := exists_of_reset h
  exact ⟨m.rom, memory, m.random, m.trace, rfl⟩

theorem act_of_runs {m : Machine} {a : Action} (h : a.runs) :
    a = .step ∨ ∃ keypad delay sound, (m.act a).2 = m.outside keypad delay sound m.trace := by
  cases a with
  | step => exact .inl rfl
  | tick => exact .inr ⟨m.keypad, m.delay.tick, m.sound.tick, rfl⟩
  | setKey number down => exact .inr ⟨m.keypad.set number down, m.delay, m.sound, rfl⟩
  | toggleKey number => exact .inr ⟨m.keypad.toggle number, m.delay, m.sound, rfl⟩
  | setKeys keys => exact .inr ⟨m.keypad.setAll keys, m.delay, m.sound, rfl⟩
  | _ => cases h

theorem act_of_hosted {m : Machine} {a : Action} (h : a.hosted) :
    (∃ keypad, (m.act a).2 = (m.outside keypad m.delay m.sound m.trace).step.2) ∨
      (∃ keypad delay sound trace, (m.act a).2 = m.outside keypad delay sound trace) ∨
      (m.act a).2.Fresh := by
  cases a with
  | step => exact .inl ⟨m.keypad, rfl⟩
  | cycle keys => exact .inl ⟨m.keypad.setAll keys, rfl⟩
  | tick => exact .inr (.inl ⟨m.keypad, m.delay.tick, m.sound.tick, m.trace, rfl⟩)
  | setKey number down =>
    exact .inr (.inl ⟨m.keypad.set number down, m.delay, m.sound, m.trace, rfl⟩)
  | toggleKey number =>
    exact .inr (.inl ⟨m.keypad.toggle number, m.delay, m.sound, m.trace, rfl⟩)
  | setKeys keys => exact .inr (.inl ⟨m.keypad.setAll keys, m.delay, m.sound, m.trace, rfl⟩)
  | startTrace =>
    exact .inr (.inl ⟨m.keypad, m.delay, m.sound, some (m.trace.getD []), rfl⟩)
  | reset =>
    cases hr : m.reset with
    | error fault =>
      refine .inr (.inl ⟨m.keypad, m.delay, m.sound, m.trace, ?_⟩)
      simp only [act, hr, outside]
    | ok n =>
      refine .inr (.inr ?_)
      simp only [act, hr]
      exact fresh_of_reset hr
  | execute i => cases h
  | move flow => cases h

theorem after_without_steps {m : Machine} {history : List Action}
    (hh : ∀ a ∈ history, a.runs ∧ a ≠ .step) :
    ∃ keypad delay sound, m.after history = m.outside keypad delay sound m.trace := by
  induction history generalizing m with
  | nil => exact ⟨m.keypad, m.delay, m.sound, rfl⟩
  | cons a rest ih =>
    obtain ⟨⟨ha, hs⟩, hrest⟩ := List.forall_mem_cons.mp hh
    obtain ⟨keypad, delay, sound, he⟩ := (act_of_runs (m := m) ha).resolve_left hs
    obtain ⟨keypad', delay', sound', hr⟩ := ih (m := (m.act a).2) hrest
    refine ⟨keypad', delay', sound', ?_⟩
    rw [after, hr, he]
    rfl

section Induction

variable {P : Machine → Prop}

/-- What every step and every change from outside keeps holds as long as the program runs. -/
theorem runs_induction (step : ∀ m, P m → P m.step.2)
    (outside : ∀ m keypad delay sound trace, P m → P (m.outside keypad delay sound trace))
    {m : Machine} (h : P m) {history : List Action} (hh : ∀ a ∈ history, a.runs) :
    P (m.after history) := by
  induction history generalizing m with
  | nil => exact h
  | cons a rest ih =>
    obtain ⟨ha, hrest⟩ := List.forall_mem_cons.mp hh
    refine ih ?_ hrest
    rcases act_of_runs (m := m) ha with rfl | ⟨keypad, delay, sound, he⟩
    · exact step m h
    · rw [he]
      exact outside m keypad delay sound m.trace h

/-- What holds of fresh machines and is kept by every step and every change from outside holds
throughout the histories that leave the program in charge. -/
theorem hosted_induction (fresh : ∀ m, Fresh m → P m) (step : ∀ m, P m → P m.step.2)
    (outside : ∀ m keypad delay sound trace, P m → P (m.outside keypad delay sound trace))
    {rom : Rom} {random : RandomSource} {m : Machine} (hm : create rom random = .ok m)
    {history : List Action} (hh : ∀ a ∈ history, a.hosted) : P (m.after history) := by
  have h : P m := fresh m (fresh_of_create hm)
  clear hm
  induction history generalizing m with
  | nil => exact h
  | cons a rest ih =>
    obtain ⟨ha, hrest⟩ := List.forall_mem_cons.mp hh
    refine ih hrest ?_
    rcases act_of_hosted (m := m) ha with ⟨keypad, he⟩ | ⟨keypad, delay, sound, trace, he⟩ | hf
    · rw [he]
      exact step _ (outside m keypad m.delay m.sound m.trace h)
    · rw [he]
      exact outside m keypad delay sound trace h
    · exact fresh _ hf

end Induction
end Machine
end Chip8
