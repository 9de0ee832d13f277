import Mathlib.Data.List.Induction
import Chip8.Proofs.ExecutedSteps
import Chip8.Proofs.Restart

/-!
# How the timers run

A timer is set by the one instruction that names it, stopped by a reset and counted down by ticks.
Nothing else reaches it: no step by itself, no fault, no wait and no other instruction. So at every
moment a timer holds what it was set to last less the ticks since then, and nothing once these are
more.
-/
namespace Chip8

/-- The timers of a machine. -/
inductive TimerName where
  | delay
  | sound
  deriving DecidableEq, Repr

/-- The instruction that sets a timer to a register. -/
def TimerName.setter : TimerName → Register → Instruction
  | delay => .setDelay
  | sound => .setSound

/-- The register to which an instruction sets a timer, if it sets it. -/
def TimerName.setFrom? : TimerName → Instruction → Option Register
  | delay, .setDelay x | sound, .setSound x => some x
  | _, _ => none

theorem TimerName.setFrom?_eq_some_iff {t : TimerName} {i : Instruction} {x : Register} :
    t.setFrom? i = some x ↔ i = t.setter x := by
  cases t <;> cases i <;> simp [setFrom?, setter]

/-- What befalls a timer. -/
inductive TimerEvent where
  | tick
  | set (count : UInt8)
  deriving DecidableEq, Repr

namespace TimerEvent

def applyTo (t : Timer) : TimerEvent → Timer
  | tick => t.tick
  | set count => ⟨count⟩

def count? : TimerEvent → Option UInt8
  | tick => none
  | set count => some count

/-- What a timer was set to last; it starts at zero. -/
def lastSet (events : List TimerEvent) : UInt8 := (events.filterMap count?).getLastD 0

/-- The ticks behind the last setting. -/
def ticksSince (events : List TimerEvent) : Nat :=
  (events.reverse.takeWhile (· = tick)).length

theorem toNat_foldl (events : List TimerEvent) :
    (events.foldl applyTo .stopped).value.toNat =
      (lastSet events).toNat - ticksSince events := by
  induction events using List.reverseRecOn with
  | nil => rfl
  | append_singleton events e ih =>
    rw [List.foldl_append]
    cases e with
    | tick =>
      have hlast : lastSet (events ++ [tick]) = lastSet events := by
        simp [lastSet, count?]
      have hticks : ticksSince (events ++ [tick]) = ticksSince events + 1 := by
        simp [ticksSince]
      rw [hlast, hticks, ← Nat.sub_sub, ← ih]
      exact Timer.toNat_tick _
    | set count =>
      have hlast : lastSet (events ++ [set count]) = count := by
        simp [lastSet, count?]
      have hticks : ticksSince (events ++ [set count]) = 0 := by
        simp [ticksSince]
      rw [hlast, hticks]
      rfl

end TimerEvent

namespace Machine

def timer (m : Machine) : TimerName → Timer
  | .delay => m.delay
  | .sound => m.sound

/-- What befalls a timer in an action. A reset stops it. -/
def befalls (m : Machine) (t : TimerName) : Action → List TimerEvent
  | .tick => [.tick]
  | .reset => [.set 0]
  | a => (((m.executed? a).bind t.setFrom?).map fun x => .set (m.register x)).toList

/-- What befalls a timer along a history, in order. -/
def timerEvents (m : Machine) (t : TimerName) : List Action → List TimerEvent
  | [] => []
  | a :: rest => m.befalls t a ++ (m.act a).2.timerEvents t rest

/-! ## What reaches a timer -/

theorem move_timer (m : Machine) (flow : Flow) (t : TimerName) :
    (m.move flow).timer t = m.timer t := by
  cases flow <;> rfl

theorem outside_timer (m : Machine) (keypad : Keypad) (trace : Option (List TraceEntry))
    (t : TimerName) : (m.outside keypad m.delay m.sound trace).timer t = m.timer t := by
  cases t <;> rfl

theorem setKeys_timer (m : Machine) (keys : Vector Bool 16) (t : TimerName) :
    (m.setKeys keys).timer t = m.timer t :=
  m.outside_timer (m.keypad.setAll keys) m.trace t

theorem step_timer_of_idle {m : Machine} (h : m.found? = none) (t : TimerName) :
    m.step.2.timer t = m.timer t := by
  obtain ⟨word, registers, pc, keypad, awaiting, he⟩ := step_idle h
  rw [he]
  cases t <;> rfl

theorem Completed.timer {m n : Machine} {i : Instruction} {o : Outcome} (h : Completed m i o n)
    (t : TimerName) :
    n.timer t = ((t.setFrom? i).map fun x => ⟨m.register x⟩).getD (m.timer t) := by
  cases h with
  | arithmetic op x y =>
    obtain ⟨registers, he⟩ := arithmetic_frame m op x y
    rw [he]
    cases t <;> rfl
  | _ => cases t <;> rfl

section Action

variable {m : Machine} {a : Action}

/-- Of the instructions that are executed, the one that names a timer sets it. -/
theorem timer_of_executed {i : Instruction} (h : m.executed? a = some i) (t : TimerName) :
    (m.act a).2.timer t = ((t.setFrom? i).map fun x => ⟨m.register x⟩).getD (m.timer t) := by
  obtain ⟨word, pc, keypad, trace, ⟨fault, hr, -, he⟩ | ⟨o, n, hc, -, he⟩⟩ := act_of_executed h
  · rw [he]
    cases hr <;> cases t <;> rfl
  · rw [he, move_timer, hc.timer]
    cases t <;> rfl

/-- Nothing but an instruction, a tick and a reset reaches a timer. -/
theorem timer_of_idle (h : m.executed? a = none) (ht : a ≠ .tick) (hr : a ≠ .reset)
    (t : TimerName) : (m.act a).2.timer t = m.timer t := by
  cases a with
  | step => exact step_timer_of_idle h t
  | cycle keys =>
    have hk : (m.setKeys keys).found? = none :=
      (executed?_of_stepper (a := .cycle keys) rfl).symm.trans h
    exact (step_timer_of_idle hk t).trans (m.setKeys_timer keys t)
  | setKeys keys => exact m.setKeys_timer keys t
  | move flow => exact m.move_timer flow t
  | setKey number down => exact m.outside_timer (m.keypad.set number down) m.trace t
  | toggleKey number => exact m.outside_timer (m.keypad.toggle number) m.trace t
  | startTrace => exact m.outside_timer m.keypad (some (m.trace.getD [])) t
  | execute => cases h
  | tick => exact absurd rfl ht
  | reset => exact absurd rfl hr

/-- An action that executes another instruction or none leaves a timer as it is. -/
theorem timer_untouched {t : TimerName} (hs : ∀ x, m.executed? a ≠ some (t.setter x))
    (ht : a ≠ .tick) (hr : a ≠ .reset) : (m.act a).2.timer t = m.timer t := by
  cases he : m.executed? a with
  | none => exact timer_of_idle he ht hr t
  | some i =>
    have hi : t.setFrom? i = none := by
      apply Option.eq_none_iff_forall_ne_some.mpr
      intro x hx
      exact hs x (he.trans (congrArg some (TimerName.setFrom?_eq_some_iff.mp hx)))
    rw [timer_of_executed he, hi]
    rfl

theorem timer_of_fault {fault : Fault} (h : (m.act a).1.result? = some (.error fault))
    (t : TimerName) : (m.act a).2.timer t = m.timer t := by
  cases he : m.executed? a with
  | none =>
    refine timer_of_idle he ?_ ?_ t
    · rintro rfl
      cases h
    · rintro rfl
      cases hr : m.reset <;> simp only [act, hr] at h <;> cases h
  | some i =>
    obtain ⟨word, pc, keypad, trace, ⟨other, -, -, hk⟩ | ⟨o, n, -, hresult, -⟩⟩ :=
      act_of_executed he
    · rw [hk]
      cases t <;> rfl
    · cases hresult.symm.trans h

theorem befalls_of_ne (ht : a ≠ .tick) (hr : a ≠ .reset) (t : TimerName) :
    m.befalls t a =
      (((m.executed? a).bind t.setFrom?).map fun x => .set (m.register x)).toList := by
  cases a with
  | tick => exact absurd rfl ht
  | reset => exact absurd rfl hr
  | _ => rfl

/-- An action does to a timer what it is said to do. -/
theorem timer_act {memory : Memory} (hl : load m.rom = .ok memory) (t : TimerName) :
    (m.act a).2.timer t = (m.befalls t a).foldl TimerEvent.applyTo (m.timer t) := by
  by_cases ht : a = .tick
  · subst ht
    cases t <;> rfl
  by_cases hr : a = .reset
  · subst hr
    simp only [act, reset_of_load hl]
    cases t <;> rfl
  rw [befalls_of_ne ht hr]
  cases he : m.executed? a with
  | none => exact timer_of_idle he ht hr t
  | some i =>
    rw [timer_of_executed he, Option.bind_some]
    cases t.setFrom? i <;> rfl

end Action

/-- A timer has been through everything that befell it. -/
theorem timer_after {m : Machine} {memory : Memory} (hl : load m.rom = .ok memory)
    (t : TimerName) (history : List Action) :
    (m.after history).timer t = (m.timerEvents t history).foldl TimerEvent.applyTo (m.timer t) := by
  induction history generalizing m with
  | nil => rfl
  | cons a rest ih =>
    have hrom : load (m.act a).2.rom = .ok memory := by rw [(descends_act m a).rom, hl]
    rw [after, ih hrom, timer_act hl, timerEvents, List.foldl_append]

/-- The delay timer is read as it is. -/
theorem register_of_readDelay {m : Machine} {a : Action} {x : Register}
    (h : m.executed? a = some (.readDelay x)) :
    (m.act a).1.result? = some (.ok .quiet) ∧ (m.act a).2.register x = m.delay.value := by
  obtain ⟨word, pc, keypad, trace, ⟨fault, hr, -⟩ | ⟨o, n, hc, hresult, he⟩⟩ := act_of_executed h
  · cases hr
  · cases hc
    refine ⟨hresult, ?_⟩
    rw [he]
    exact (register_setRegister _ x x _).trans (if_pos rfl)

open TimerEvent in
/-- After any history each timer holds what it was set to last less the ticks since then. The delay
timer is read as it is, a tone is heard while the sound timer is not at zero, and apart from ticks
and resets only the instruction that names a timer reaches it, not even a step that fails. -/
theorem timers_count_down {rom : Rom} {random : RandomSource} {m : Machine}
    (hm : create rom random = .ok m) (history : List Action) :
    let n := m.after history
    (∀ t, let events := m.timerEvents t history
      (n.timer t).value.toNat = (lastSet events).toNat - ticksSince events) ∧
    (∀ a x, n.executed? a = some (.readDelay x) →
      (n.act a).1.result? = some (.ok .quiet) ∧ (n.act a).2.register x = n.delay.value) ∧
    (n.isSounding = true ↔ 0 < n.sound.value.toNat) ∧
    ∀ t a, a ≠ .tick → a ≠ .reset →
      ((∀ x, n.executed? a ≠ some (t.setter x)) → (n.act a).2.timer t = n.timer t) ∧
      ∀ fault, (n.act a).1.result? = some (.error fault) → (n.act a).2.timer t = n.timer t := by
  intro n
  obtain ⟨memory, hl, rfl⟩ := exists_of_create hm
  refine ⟨fun t => ?_, fun a x h => register_of_readDelay h, ?_, fun t a ht hr => ⟨?_, ?_⟩⟩
  · have hstopped : (initial rom memory random).timer t = .stopped := by cases t <;> rfl
    have hafter := timer_after (m := initial rom memory random) hl t history
    rw [hstopped] at hafter
    rw [hafter]
    exact toNat_foldl _
  · rw [isSounding, decide_eq_true_iff, UInt8.lt_iff_toNat_lt]
    rfl
  · exact fun hs => timer_untouched hs ht hr
  · exact fun fault hf => timer_of_fault hf t

/-- A program that sets the delay timer to five and reads it back. -/
def countingDownRom : Rom := ⟨"", [0x61, 0x05, 0xF1, 0x15, 0xF2, 0x07]⟩

theorem timers_count_down_read :
    ∃ m, create countingDownRom (RandomSource.repeating []) = .ok m ∧
      let n := m.after [.step, .step, .tick, .tick]
      n.delay.value.toNat = 3 ∧ n.step.2.register (Nibble.ofNat 2) = 3 := by
  generalize RandomSource.repeating [] = random
  have hm := create_of_le (show start + countingDownRom.data.length ≤ 4096 by decide) random
  have hl := load_of_le (show start + countingDownRom.data.length ≤ 4096 by decide)
  generalize (Memory.blank.overlay Font.location Font.bytes).overlay start
    countingDownRom.data = memory at hm hl
  generalize hi : initial countingDownRom memory random = m at hm
  have hload : m.found? = some (.load (Nibble.ofNat 1) 5) := by
    rw [← hi]
    exact found?_of_load (k := 0) hl rfl rfl rfl rfl rfl
  have hloaded := step_completes hload (.load _ _)
  generalize hk : m.step.2 = k
  have hset : k.found? = some (.setDelay (Nibble.ofNat 1)) := by
    rw [← hk, hloaded, ← hi]
    exact found?_of_load (k := 2) hl rfl rfl rfl rfl rfl
  have hstarted := step_completes hset (.setDelay _)
  have hread : k.step.2.tick.tick.found? = some (.readDelay (Nibble.ofNat 2)) := by
    rw [hstarted, ← hk, hloaded, ← hi]
    exact found?_of_load (k := 4) hl rfl rfl rfl rfl rfl
  have hfive : k.register (Nibble.ofNat 1) = 5 := by
    rw [← hk, hloaded]
    exact (register_setRegister _ _ _ _).trans (if_pos rfl)
  have hrun (m : Machine) : m.after [.step, .step, .tick, .tick] = m.step.2.step.2.tick.tick := rfl
  have hevents (m : Machine) : m.timerEvents .delay [.step, .step, .tick, .tick] =
      m.befalls .delay .step ++ (m.step.2.befalls .delay .step ++ [.tick, .tick]) := rfl
  have hbefalls (m : Machine) : m.befalls .delay .step =
      ((m.found?.bind TimerName.delay.setFrom?).map fun x => .set (m.register x)).toList := rfl
  obtain ⟨hlaw, hregister, -⟩ := timers_count_down hm [.step, .step, .tick, .tick]
  have hthree := hlaw .delay
  rw [hrun, hk] at hregister hthree
  have hdelay : k.step.2.tick.tick.delay.value.toNat = 3 := by
    refine hthree.trans ?_
    rw [hevents, hk, hbefalls, hbefalls]
    simp only [hload, hset, Option.bind_some, TimerName.setFrom?, Option.map_some,
      Option.map_none, hfive]
    decide
  refine ⟨m, hm, ?_⟩
  rw [hrun, hk]
  refine ⟨hdelay, ?_⟩
  obtain ⟨-, hvalue⟩ := hregister .step _ hread
  rw [act_step_left] at hvalue
  exact hvalue.trans (UInt8.toNat_inj.mp hdelay)

end Machine
end Chip8
