import Chip8.Proofs.HistoryInvariant
import Chip8.Proofs.StepRules

/-!
# Starting a program again

A reset keeps nothing of what ran before but the place in the random source and the record of the
instructions. Nothing that a machine does depends on its record, so from a reset on it does what a
fresh machine does that takes its random bytes from that place on.
-/
namespace Chip8.Machine

/-- The machine with another record. -/
def withTrace (m : Machine) (trace : Option (List TraceEntry)) : Machine := { m with trace := trace }

/-- A relation of two records that lasts while both go on in the same way. -/
structure Lasting (R : Option (List TraceEntry) → Option (List TraceEntry) → Prop) : Prop where
  record : ∀ {s t}, R s t → ∀ entry, R (s.map (· ++ [entry])) (t.map (· ++ [entry]))
  start : ∀ {s t}, R s t → R (some (s.getD [])) (some (t.getD []))

/-- A machine that runs the image of another one and draws on the same random bytes. -/
structure Descends (m n : Machine) : Prop where
  rom : n.rom = m.rom
  stream : n.random.stream = m.random.stream

/-! ## What the record has to do with the rest -/

theorem arithmetic_withTrace (m : Machine) (trace : Option (List TraceEntry))
    (op : Alu.Operation) (x y : Register) :
    (m.arithmetic op x y).withTrace trace = (m.withTrace trace).arithmetic op x y := by
  have hf : op.flag? ((m.withTrace trace).register x) ((m.withTrace trace).register y) =
    op.flag? (m.register x) (m.register y) := rfl
  simp only [arithmetic, hf]
  cases op.flag? (m.register x) (m.register y) <;> rfl

theorem move_withTrace (m : Machine) (trace : Option (List TraceEntry)) (flow : Flow) :
    (m.move flow).withTrace trace = (m.withTrace trace).move flow := by
  cases flow <;> rfl

theorem move_trace (m : Machine) (flow : Flow) : (m.move flow).trace = m.trace := by
  cases flow <;> rfl

theorem setKeys_trace (m : Machine) (keys : Vector Bool 16) : (m.setKeys keys).trace = m.trace := by
  rw [setKeys]

theorem reset_withTrace (m : Machine) (trace : Option (List TraceEntry)) :
    (m.withTrace trace).reset = m.reset.map (·.withTrace trace) := by
  rw [reset_eq, reset_eq, show (m.withTrace trace).rom = m.rom from rfl]
  cases load m.rom <;> rfl

theorem Completed.withTrace {m n : Machine} {i : Instruction} {o : Outcome}
    (h : Completed m i o n) (trace : Option (List TraceEntry)) :
    Completed (m.withTrace trace) i o (n.withTrace trace) := by
  cases h with
  | clear => exact .clear
  | ret he => exact .ret he
  | jump target => exact .jump target
  | call target he => exact .call target he
  | skip c => exact .skip c
  | load x kk => exact .load x kk
  | add x kk => exact .add x kk
  | arithmetic op x y =>
    rw [arithmetic_withTrace]
    exact .arithmetic op x y
  | loadIndex a => exact .loadIndex a
  | jumpOffset base => exact .jumpOffset base
  | random x mask => exact .random x mask
  | draw x y rows hr hs => exact .draw x y rows hr hs
  | readDelay x => exact .readDelay x
  | awaitKey x => exact .awaitKey x
  | setDelay x => exact .setDelay x
  | setSound x => exact .setSound x
  | addIndex x => exact .addIndex x
  | loadGlyph x => exact .loadGlyph x
  | storeDigits x hs => exact .storeDigits x hs
  | storeRegisters last hs => exact .storeRegisters last hs
  | fillRegisters last hr => exact .fillRegisters last hr

section Lasting

variable {R : Option (List TraceEntry) → Option (List TraceEntry) → Prop} (hR : Lasting R)
variable {m : Machine} {trace : Option (List TraceEntry)} (h : R m.trace trace)
include hR h

theorem StepCase.withTrace {n : Machine} {result : Except Fault Signal}
    (hs : StepCase m result n) :
    ∃ after, StepCase (m.withTrace trace) result (n.withTrace after) ∧ R n.trace after := by
  cases hs with
  | waiting ha hk => exact ⟨trace, .waiting ha hk, h⟩
  | resumed ha hk => exact ⟨trace, .resumed ha hk, h⟩
  | unfetched ha hp => exact ⟨trace, .unfetched ha hp, h⟩
  | undecoded ha hp hd => exact ⟨trace, .undecoded ha hp hd, h⟩
  | @refused i _ ha hp hd hf =>
    exact ⟨_, .refused ha hp hd (hf.congr rfl rfl), hR.record h (m.pc, i)⟩
  | @completed i o n ha hp hd hc =>
    refine ⟨trace.map (· ++ [(m.pc, i)]), ?_, ?_⟩
    · rw [move_withTrace]
      exact .completed ha hp hd (hc.withTrace _)
    · rw [move_trace, hc.frame.2.2.1]
      exact hR.record h (m.pc, i)

/-- An action gives its answer and leaves its machine whatever is in the record. -/
theorem act_withTrace (a : Action) :
    ∃ after, (m.withTrace trace).act a = ((m.act a).1, (m.act a).2.withTrace after) ∧
      R (m.act a).2.trace after := by
  cases a with
  | step =>
    rcases hs : m.step with ⟨result, n⟩
    obtain ⟨after, hc, hr⟩ := (step_cases hs).withTrace hR h
    simp only [act, hs, hc.step_eq]
    exact ⟨after, rfl, hr⟩
  | cycle keys =>
    rcases hs : (m.setKeys keys).step with ⟨result, n⟩
    have hk : R (m.setKeys keys).trace trace := by rwa [setKeys_trace]
    obtain ⟨after, hc, hr⟩ := (step_cases hs).withTrace hR hk
    have hs' : ((m.withTrace trace).setKeys keys).step = (result, n.withTrace after) := hc.step_eq
    simp only [act, cycle, hs, hs']
    exact ⟨after, rfl, hr⟩
  | execute i =>
    rcases execute_cases m i with ⟨fault, hf, he⟩ | ⟨o, n, hc, he⟩
    · have he' := execute_of_refused (hf.congr (n := m.withTrace trace) rfl rfl)
      simp only [act, he, he']
      exact ⟨trace, rfl, h⟩
    · have he' := execute_of_completed (hc.withTrace trace)
      simp only [act, he, he']
      refine ⟨trace, by rw [move_withTrace], ?_⟩
      rw [move_trace, hc.frame.2.2.1]
      exact h
  | reset =>
    simp only [act, reset_withTrace]
    cases hr : m.reset with
    | error fault => exact ⟨trace, rfl, h⟩
    | ok n =>
      obtain ⟨memory, -, rfl⟩ := exists_of_reset hr
      exact ⟨trace, rfl, h⟩
  | move flow =>
    refine ⟨trace, ?_, ?_⟩
    · rw [act, act, move_withTrace]
    · rw [act, move_trace]
      exact h
  | startTrace => exact ⟨_, rfl, hR.start h⟩
  | tick => exact ⟨trace, rfl, h⟩
  | setKey number down => exact ⟨trace, rfl, h⟩
  | toggleKey number => exact ⟨trace, rfl, h⟩
  | setKeys keys =>
    refine ⟨trace, rfl, ?_⟩
    rw [act, setKeys_trace]
    exact h

theorem history_withTrace (history : List Action) :
    (m.withTrace trace).answers history = m.answers history ∧
      ∃ after, (m.withTrace trace).after history = (m.after history).withTrace after ∧
        R (m.after history).trace after := by
  induction history generalizing m trace with
  | nil => exact ⟨rfl, trace, rfl, h⟩
  | cons a rest ih =>
    obtain ⟨after, ha, hr⟩ := act_withTrace hR h a
    obtain ⟨hanswers, hafter⟩ := ih hr
    simp only [answers, Machine.after, ha]
    exact ⟨congrArg _ hanswers, hafter⟩

end Lasting

/-! ## What a history leaves -/

section Descends

variable {m n : Machine}

theorem Descends.refl (m : Machine) : m.Descends m := ⟨rfl, rfl⟩

theorem Descends.trans {k : Machine} (h : m.Descends n) (h' : n.Descends k) : m.Descends k :=
  ⟨h'.rom.trans h.rom, h'.stream.trans h.stream⟩

theorem descends_outside (m : Machine) (keypad : Keypad) (delay sound : Timer)
    (trace : Option (List TraceEntry)) : m.Descends (m.outside keypad delay sound trace) :=
  ⟨rfl, rfl⟩

theorem descends_move (m : Machine) (flow : Flow) : m.Descends (m.move flow) := by
  cases flow <;> exact ⟨rfl, rfl⟩

theorem Completed.descends {i : Instruction} {o : Outcome} (h : Completed m i o n) :
    m.Descends n := by
  cases h with
  | arithmetic op x y =>
    obtain ⟨registers, he⟩ := arithmetic_frame m op x y
    rw [he]
    exact ⟨rfl, rfl⟩
  | _ => exact ⟨rfl, rfl⟩

theorem descends_step (m : Machine) : m.Descends m.step.2 := by
  rcases hs : m.step with ⟨result, n⟩
  cases step_cases hs with
  | @completed i o n ha hp hd hc =>
    have hf : m.Descends (m.fetched i) := ⟨rfl, rfl⟩
    exact (hf.trans hc.descends).trans (descends_move n o.flow)
  | _ => exact ⟨rfl, rfl⟩

theorem descends_act (m : Machine) (a : Action) : m.Descends (m.act a).2 := by
  cases a with
  | step => exact descends_step m
  | cycle keys =>
    have hk : m.Descends (m.setKeys keys) :=
      m.descends_outside (m.keypad.setAll keys) m.delay m.sound m.trace
    exact hk.trans (descends_step _)
  | execute i =>
    rcases execute_cases m i with ⟨fault, -, he⟩ | ⟨o, n, hc, he⟩
    · simp only [act, he]
      exact .refl m
    · simp only [act, he]
      exact hc.descends.trans (descends_move n o.flow)
  | reset =>
    cases hr : m.reset with
    | error fault =>
      simp only [act, hr]
      exact .refl m
    | ok n =>
      obtain ⟨memory, -, rfl⟩ := exists_of_reset hr
      simp only [act, hr]
      exact ⟨rfl, rfl⟩
  | move flow => exact descends_move m flow
  | tick => exact m.descends_outside m.keypad m.delay.tick m.sound.tick m.trace
  | setKey number down =>
    exact m.descends_outside (m.keypad.set number down) m.delay m.sound m.trace
  | toggleKey number => exact m.descends_outside (m.keypad.toggle number) m.delay m.sound m.trace
  | setKeys keys => exact m.descends_outside (m.keypad.setAll keys) m.delay m.sound m.trace
  | startTrace => exact m.descends_outside m.keypad m.delay m.sound (some (m.trace.getD []))

theorem descends_after (m : Machine) (history : List Action) : m.Descends (m.after history) := by
  induction history generalizing m with
  | nil => exact .refl m
  | cons a rest ih => exact (descends_act m a).trans (ih _)

end Descends

/-! ## The machine behind a reset -/

/-- Every record. -/
theorem lasting_any : Lasting fun _ _ => True := ⟨fun _ _ => trivial, fun _ => trivial⟩

/-- What one record has behind some older entries. -/
theorem lasting_behind (old : List TraceEntry) :
    Lasting fun s t => ∃ new, s = some new ∧ t = some (old ++ new) := by
  constructor
  · rintro _ _ ⟨new, rfl, rfl⟩ entry
    exact ⟨new ++ [entry], rfl, congrArg some (List.append_assoc ..)⟩
  · rintro _ _ ⟨new, rfl, rfl⟩
    exact ⟨new, rfl, rfl⟩

theorem reset_of_create {rom : Rom} {random : RandomSource} {m n : Machine}
    (hm : create rom random = .ok m) (h : m.Descends n) :
    ∃ fresh, create rom n.random = .ok fresh ∧ fresh.trace = none ∧
      n.reset = .ok (fresh.withTrace n.trace) := by
  obtain ⟨memory, hl, rfl⟩ := exists_of_create hm
  have hrom : n.rom = rom := h.rom
  refine ⟨initial rom memory n.random, by rw [create, hl]; rfl, rfl, ?_⟩
  rw [reset_of_load (hrom.symm ▸ hl), hrom]
  rfl

/-- After any history a reset succeeds and gives the fresh machine for the image, with the random
source at the place it has reached and the record as it is. What happens from then on is what would
happen with that fresh machine; where instructions are recorded, with a fresh machine that records
them, whose entries come behind the older ones. -/
theorem reset_like_fresh {rom : Rom} {random : RandomSource} {m : Machine}
    (hm : create rom random = .ok m) (history : List Action) :
    let n := m.after history
    n.random.stream = random.stream ∧
    ∃ fresh, create rom n.random = .ok fresh ∧ n.reset = .ok { fresh with trace := n.trace } ∧
    ∀ later : List Action,
      let again := { fresh with trace := n.trace }
      again.answers later = fresh.answers later ∧
      (∃ trace, again.after later = { fresh.after later with trace := trace }) ∧
      (n.trace = none → again.after later = fresh.after later) ∧
      ∀ old, n.trace = some old → ∃ new,
        (fresh.startTrace.after later).trace = some new ∧
        again.after later = { fresh.startTrace.after later with trace := some (old ++ new) } := by
  intro n
  have hn : m.Descends n := descends_after m history
  have hstream : m.random.stream = random.stream := by
    obtain ⟨memory, -, rfl⟩ := exists_of_create hm
    rfl
  obtain ⟨fresh, hfresh, hnone, hreset⟩ := reset_of_create hm hn
  refine ⟨hn.stream.trans hstream, fresh, hfresh, hreset, fun later => ?_⟩
  obtain ⟨hanswers, trace, hafter, -⟩ := history_withTrace lasting_any
    (show (fun _ _ => True) fresh.trace n.trace from trivial) later
  refine ⟨hanswers, ⟨trace, hafter⟩, fun hn => ?_, fun old ho => ?_⟩
  · have heq : fresh.withTrace n.trace = fresh := by
      rw [hn, ← hnone]
      rfl
    exact congrArg (·.after later) heq
  · have hstart : fresh.startTrace.trace = some [] := by
      rw [startTrace, hnone]
      rfl
    have hold : ∃ new, fresh.startTrace.trace = some new ∧ some old = some (old ++ new) :=
      ⟨[], hstart, by rw [List.append_nil]⟩
    obtain ⟨-, _, hbehind, new, hnew, rfl⟩ := history_withTrace (lasting_behind old) hold later
    refine ⟨new, hnew, ?_⟩
    rw [ho]
    exact hbehind

/-- A program that stores the register 0 at the start of the memory, over the font. -/
def overwritingRom : Rom := ⟨"", [0xF0, 0x55]⟩

theorem reset_like_fresh_overwritten :
    ∃ m, create overwritingRom (RandomSource.repeating []) = .ok m ∧
      let n := m.after [.step, .setKey 7 true]
      n.memory.byteAt 0 = 0 ∧ n.keypad.isHeld 7 ∧
        ∃ again, n.reset = .ok again ∧ again.memory.byteAt 0 = 0xF0 ∧
          again.keypad = .untouched ∧ again.pc = 0x200 := by
  generalize RandomSource.repeating [] = random
  have hm := create_of_le (show start + overwritingRom.data.length ≤ 4096 by decide) random
  generalize hfont : Memory.blank.overlay Font.location Font.bytes = font at hm
  have hbyte : (font.overlay start overwritingRom.data).byteAt 0 = 0xF0 := by
    rw [Memory.byteAt_overlay _ _ _ (by decide), if_neg (by decide), ← hfont,
      Memory.byteAt_overlay _ _ _ (by decide)]
    rfl
  have hw := here_initial overwritingRom font random 0xF0 0x55 []
  refine ⟨_, hm, ?_⟩
  generalize hn : Machine.after _ [.step, .setKey 7 true] = n
  obtain ⟨-, fresh, hfresh, hreset, -⟩ := reset_like_fresh hm [.step, .setKey 7 true]
  rw [hn] at hfresh hreset
  generalize hi : initial overwritingRom (font.overlay start overwritingRom.data) random = m at hn
  have hindex : m.index.toNat = 0 := by rw [← hi]; rfl
  have hregisters : m.registersTo (Nibble.ofNat 0) = [0] := by rw [← hi]; rfl
  have ha : m.awaiting = none := by rw [← hi]; rfl
  have hp : m.pc.toNat ≤ 0xFFE := by rw [← hi]; exact show 0x200 ≤ 0xFFE by decide
  have hd : Instruction.ofWord? m.here = some (.storeRegisters (Nibble.ofNat 0)) := by
    rw [← hi]
    change Instruction.ofWord? (initial overwritingRom (font.overlay start [0xF0, 0x55])
      random).here = _
    rw [hw]
    rfl
  generalize hmemory : m.memory.overlay 0 [0] = memory
  have hs : m.memory.storeBlock m.index.toNat (m.registersTo (Nibble.ofNat 0)) = .ok memory := by
    rw [hindex, hregisters, ← hmemory]
    exact Memory.storeBlock_of_le _ (by decide)
  -- with any word in the place of the fetched one, as that one is not to be computed here
  have hc (word : UInt16) (entry : TraceEntry) : Completed ((m.advance word).record entry)
      (.storeRegisters (Nibble.ofNat 0)) {}
      { (m.advance word).record entry with memory := memory } := .storeRegisters _ hs
  have hrun (k : Machine) : k.after [.step, .setKey 7 true] = k.step.2.setKey 7 true := rfl
  have hkey (k : Machine) : (k.setKey 7 true).memory = k.memory ∧
      (k.setKey 7 true).keypad = k.keypad.set 7 true := ⟨rfl, rfl⟩
  rw [hrun, (StepCase.completed ha hp hd (hc _ _)).step_eq] at hn
  refine ⟨?_, ?_, _, hreset, ?_⟩
  · rw [← hn, (hkey _).1]
    change memory.byteAt 0 = 0
    rw [← hmemory, Memory.byteAt_overlay _ _ _ (by decide)]
    rfl
  · rw [← hn, (hkey _).2, Keypad.isHeld_set, if_pos rfl]
  · cases (create_of_le (show start + overwritingRom.data.length ≤ 4096 by decide)
      n.random).symm.trans hfresh
    rw [hfont]
    exact ⟨hbyte, rfl, rfl⟩

end Chip8.Machine
