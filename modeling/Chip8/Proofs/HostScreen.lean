import Chip8.Proofs.Footprint
import Chip8.Proofs.HistoryInvariant

/-!
# The screen of the host

A host that takes all steps in cycles and does with its own screen what a cycle asks for shows the
screen of the machine at every moment: whatever changes the screen of the machine draws, and a cycle
that draws ends with the one call that shows the whole of it.
-/
namespace Chip8

/-- What the host's screen shows after a call. -/
def HostCall.applyTo : HostCall → Screen → Screen
  | blank, _ => .blank
  | paint s, _ => s

/-- The calls that come with an answer. -/
def Answer.calls : Answer → List HostCall
  | cycled _ calls => calls
  | _ => []

/-- The actions of a host that takes its steps in cycles. -/
def Action.cycles : Action → Bool
  | .cycle _ | .tick | .setKey .. | .toggleKey _ | .setKeys _ => true
  | _ => false

namespace Screen

/-- What a host shows after some calls, from what it showed before. -/
def shown (s : Screen) (calls : List HostCall) : Screen := calls.foldl (fun s c => c.applyTo s) s

theorem eq_blank_of_isBlank {s : Screen} (h : s.isBlank = true) : s = blank := by
  obtain ⟨rows⟩ := s
  congr 1
  ext y hy : 1
  have hrow : (rows[y] == 0) = true := Vector.all_eq_true.mp h y hy
  exact (eq_of_beq hrow).trans (Vector.getElem_replicate hy).symm

/-- The call that shows a screen shows it, whatever was shown before. -/
theorem applyTo_present (s before : Screen) : s.present.applyTo before = s := by
  unfold present
  split
  · rename_i h
    exact (eq_blank_of_isBlank h).symm
  · rfl

/-- A host is never asked to paint a blank screen. -/
theorem isBlank_of_present {s painted : Screen} (h : s.present = .paint painted) :
    painted.isBlank = false := by
  unfold present at h
  split at h
  · cases h
  · rename_i hs
    cases h
    exact Bool.eq_false_iff.mpr hs

end Screen

namespace Machine

/-! ## What draws -/

theorem drawing_of_mem_footprint {i : Instruction} {index : Nat}
    (h : Part.screen ∈ i.footprint index) :
    i = .clear ∨ ∃ x y rows, i = .draw x y rows := by
  cases i with
  | clear => exact .inl rfl
  | draw x y rows => exact .inr ⟨x, y, rows, rfl⟩
  | arithmetic op x y => cases hs : op.setsFlag <;> simp [Instruction.footprint, hs] at h
  | _ => simp [Instruction.footprint, Part.cells, Part.registersTo] at h

theorem Completed.screen_cases {m n : Machine} {i : Instruction} {o : Outcome}
    (h : Completed m i o n) : o.signal = .draw ∨ n.screen = m.screen := by
  by_cases hs : Part.screen ∈ i.footprint m.index.toNat
  · rcases drawing_of_mem_footprint hs with rfl | ⟨x, y, rows, rfl⟩ <;> cases h <;> exact .inl rfl
  · exact .inr (h.agree hs)

/-- A step that does not draw leaves the screen as it is. -/
theorem step_screen (m : Machine) : m.step.1 = .ok .draw ∨ m.step.2.screen = m.screen := by
  rcases hs : m.step with ⟨result, n⟩
  cases step_cases hs with
  | @completed i o n ha hp hd hc =>
    rcases hc.screen_cases with hdraw | hsame
    · exact .inl (congrArg Except.ok hdraw)
    · refine .inr (Eq.trans ?_ hsame)
      cases o.flow <;> rfl
  | _ => exact .inr rfl

/-- A sprite that lies in the memory is drawn. -/
theorem step_draw {m : Machine} {x y : Register} {rows : Nibble} (ha : m.awaiting = none)
    (hp : m.pc.toNat ≤ 0xFFE) (hd : Instruction.ofWord? m.here = some (.draw x y rows))
    (hl : m.index.toNat + rows ≤ 4096) : m.step.1 = .ok .draw := by
  rcases effect_cases (m.fetched (.draw x y rows)) (.draw x y rows) with
    ⟨fault, hr, -⟩ | ⟨o, n, hc, he⟩
  · cases hr with
    | draw _ _ _ hlt =>
      change 4096 < m.index.toNat + rows at hlt
      omega
  · rw [step_completed ha hp hd he]
    cases hc
    rfl

/-! ## Cycles -/

theorem calls_of_ne_draw (m : Machine) {result : Except Fault Signal} (h : result ≠ .ok .draw) :
    m.calls result = [] := by
  rcases result with fault | signal
  · rfl
  · cases signal with
    | quiet | wait => rfl
    | draw => exact absurd rfl h

/-- A host that shows the machine's screen shows it again after a step and the calls that follow. -/
theorem shown_step (m : Machine) :
    m.screen.shown (m.step.2.calls m.step.1) = m.step.2.screen := by
  by_cases hdraw : m.step.1 = .ok .draw
  · rw [hdraw]
    exact Screen.applyTo_present _ _
  · rw [calls_of_ne_draw _ hdraw]
    exact (m.step_screen.resolve_left hdraw).symm

theorem screen_outside (m : Machine) (keypad : Keypad) (delay sound : Timer)
    (trace : Option (List TraceEntry)) :
    (m.outside keypad delay sound trace).screen = m.screen := rfl

theorem shown_act {m : Machine} {a : Action} (ha : a.cycles) :
    m.screen.shown (m.act a).1.calls = (m.act a).2.screen := by
  cases a with
  | cycle keys =>
    have hscreen : (m.setKeys keys).screen = m.screen :=
      m.screen_outside (m.keypad.setAll keys) m.delay m.sound m.trace
    rw [← hscreen]
    exact shown_step (m.setKeys keys)
  | tick => exact (m.screen_outside m.keypad m.delay.tick m.sound.tick m.trace).symm
  | setKey number down =>
    exact (m.screen_outside (m.keypad.set number down) m.delay m.sound m.trace).symm
  | toggleKey number =>
    exact (m.screen_outside (m.keypad.toggle number) m.delay m.sound m.trace).symm
  | setKeys keys =>
    exact (m.screen_outside (m.keypad.setAll keys) m.delay m.sound m.trace).symm
  | _ => cases ha

theorem shown_answers {m : Machine} {history : List Action} (hh : ∀ a ∈ history, a.cycles) :
    m.screen.shown ((m.answers history).flatMap Answer.calls) = (m.after history).screen := by
  induction history generalizing m with
  | nil => rfl
  | cons a rest ih =>
    obtain ⟨ha, hrest⟩ := List.forall_mem_cons.mp hh
    rw [answers, List.flatMap_cons, Screen.shown, List.foldl_append]
    have hact := shown_act ha (m := m)
    unfold Screen.shown at hact
    rw [hact]
    exact ih hrest

theorem cycled_of_mem_answers {m : Machine} {history : List Action}
    {result : Except Fault Signal} {calls : List HostCall}
    (h : .cycled result calls ∈ m.answers history) : ∃ n : Machine, calls = n.calls result := by
  induction history generalizing m with
  | nil => cases h
  | cons a rest ih =>
    rw [answers, List.mem_cons] at h
    rcases h with ha | hin
    · cases a with
      | cycle keys =>
        obtain ⟨rfl, rfl⟩ := Answer.cycled.inj ha
        exact ⟨_, rfl⟩
      | reset =>
        cases hr : m.reset <;> simp only [act, hr] at ha <;> cases ha
      | _ => cases ha
    · exact ih hin

/-- A cycle that draws makes one call, which blanks the screen or paints one that is not blank; any
other cycle makes none. -/
theorem calls_iff {m : Machine} {result : Except Fault Signal} :
    (m.calls result).length ≤ 1 ∧ ((m.calls result).length = 1 ↔ result = .ok .draw) ∧
    (m.calls result = [] ↔
      (∃ fault, result = .error fault) ∨ result = .ok .quiet ∨ result = .ok .wait) ∧
    ∀ painted, .paint painted ∈ m.calls result → painted.isBlank = false := by
  rcases result with fault | signal
  · simp [calls]
  · cases signal with
    | draw =>
      simp only [calls, List.mem_singleton]
      exact ⟨by simp, by simp, by simp, fun painted h => Screen.isBlank_of_present h.symm⟩
    | quiet | wait => simp [calls]

/-- A host that starts blank and takes its steps in cycles shows the machine's screen after any
history. A cycle that draws makes one call, which paints the screen unless it is blank, and a cycle
that fails, waits or has nothing to tell makes none. -/
theorem host_screen_current {rom : Rom} {random : RandomSource} {m : Machine}
    (hm : create rom random = .ok m) {history : List Action} (hh : ∀ a ∈ history, a.cycles) :
    Screen.blank.shown ((m.answers history).flatMap Answer.calls) = (m.after history).screen ∧
    ∀ result calls, .cycled result calls ∈ m.answers history →
      calls.length ≤ 1 ∧ (calls.length = 1 ↔ result = .ok .draw) ∧
      (calls = [] ↔
        (∃ fault, result = .error fault) ∨ result = .ok .quiet ∨ result = .ok .wait) ∧
      ∀ painted, .paint painted ∈ calls → painted.isBlank = false := by
  obtain ⟨memory, -, rfl⟩ := exists_of_create hm
  refine ⟨shown_answers (m := initial rom memory random) hh, fun result calls hin => ?_⟩
  obtain ⟨n, rfl⟩ := cycled_of_mem_answers hin
  exact calls_iff

/-- A program that draws the picture of the digit 0. -/
def drawingRom : Rom := ⟨"", [0xD0, 0x05]⟩

theorem host_screen_current_drawing :
    ∃ m calls, create drawingRom (RandomSource.repeating []) = .ok m ∧
      let history := [.cycle (Vector.replicate 16 true), .tick, .toggleKey 3]
      m.answers history = [.cycled (.ok .draw) calls, .done, .done] ∧ calls.length = 1 ∧
        Screen.blank.shown calls = (m.after history).screen := by
  generalize RandomSource.repeating [] = random
  generalize Vector.replicate 16 true = keys
  obtain ⟨memory, hm, hw⟩ := create_here drawingRom random rfl (by decide)
  have hdraw (keypad : Keypad) :
      ((initial drawingRom memory random).outside keypad .stopped .stopped none).step.1 =
        .ok .draw := by
    have hd : Instruction.ofWord? (initial drawingRom memory random).here =
        some (.draw (Nibble.ofNat 0) (Nibble.ofNat 0) (Nibble.ofNat 5)) := by
      rw [hw]
      rfl
    exact step_draw rfl (by decide : 0x200 ≤ 0xFFE) hd (by decide : 0 + 5 ≤ 4096)
  have hcycle : ((initial drawingRom memory random).setKeys keys).step.1 = .ok .draw :=
    hdraw ((initial drawingRom memory random).keypad.setAll keys)
  have hanswers (m : Machine) : m.answers [.cycle keys, .tick, .toggleKey 3] =
      [.cycled (m.setKeys keys).step.1
        ((m.setKeys keys).step.2.calls (m.setKeys keys).step.1), .done, .done] := rfl
  have hh : ∀ a ∈ [Action.cycle keys, .tick, .toggleKey 3], a.cycles := by simp [Action.cycles]
  obtain ⟨hshown, hcalls⟩ := host_screen_current hm hh
  rw [hanswers, hcycle] at hshown hcalls
  refine ⟨_, _, hm, ?_, ((hcalls _ _ (List.mem_cons_self ..)).2.1).mpr rfl, ?_⟩
  · rw [hanswers, hcycle]
  · exact (congrArg (Screen.shown _) (List.append_nil _).symm).trans hshown

end Machine
end Chip8
