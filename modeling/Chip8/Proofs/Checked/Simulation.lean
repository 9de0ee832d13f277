import Chip8.Proofs.Checked.Machine
import Chip8.Proofs.HistoryInvariant
import Chip8.Proofs.InstructionRules

/-!
# The checks never fail

From any machine the machine with checked operations does what the machine does, on the same state
with bare numbers: every check is passed, so no operation is used outside its domain. Computations
that end in the same way are put together by `Follows.bind`.
-/
namespace Chip8.Checked

open RawExec

/-! ## Computations -/

section Exec

variable {α β : Type}

theorem on_pure (a : α) (m : RawMachine) : (pure a : RawExec α).on m = some (.ok a, m) := rfl

theorem on_get (m : RawMachine) : (get : RawExec RawMachine).on m = some (.ok m, m) := rfl

theorem on_set (m n : RawMachine) : (set n : RawExec PUnit).on m = some (.ok ⟨⟩, n) := rfl

theorem on_modify (f : RawMachine → RawMachine) (m : RawMachine) :
    (modify f : RawExec PUnit).on m = some (.ok ⟨⟩, f m) := rfl

theorem on_throw (fault : Fault) (m : RawMachine) :
    (throw fault : RawExec α).on m = some (.error fault, m) := rfl

theorem on_check (a : α) (m : RawMachine) : (check (some a)).on m = some (.ok a, m) := rfl

theorem on_bind (e : RawExec α) (f : α → RawExec β) (m : RawMachine) :
    (e >>= f).on m = (e.on m).bind fun ended =>
      match ended with
      | (.ok a, n) => (f a).on n
      | (.error fault, n) => some (.error fault, n) := by
  change (e.run.run m).bind (fun ended => ExceptT.bindCont f ended.1 ended.2) = _
  refine congrArg (e.run.run m).bind (funext fun ended => ?_)
  rcases ended with ⟨result, n⟩
  cases result <;> rfl

/-- A computation that ends with a result hands it on. -/
theorem on_bind_ok {e : RawExec α} {m n : RawMachine} {a : α} (h : e.on m = some (.ok a, n))
    (f : α → RawExec β) : (e >>= f).on m = (f a).on n := by
  rw [on_bind, h, Option.bind_some]

theorem on_bind_error {e : RawExec α} {m n : RawMachine} {fault : Fault}
    (h : e.on m = some (.error fault, n)) (f : α → RawExec β) :
    (e >>= f).on m = some (.error fault, n) := by
  rw [on_bind, h, Option.bind_some]

/-- From a machine a checked computation does what one without checks does. -/
def Follows (e : RawExec α) (f : Exec α) (m : Machine) : Prop :=
  e.on m.raw = some ((f.on m).1, (f.on m).2.raw)

theorem Follows.bind {e : RawExec α} {f : Exec α} {g : α → RawExec β} {h : α → Exec β}
    {m : Machine} (he : Follows e f m)
    (hg : ∀ a n, f.on m = (.ok a, n) → Follows (g a) (h a) n) :
    Follows (e >>= g) (f >>= h) m := by
  unfold Follows at he ⊢
  rw [Exec.on_bind]
  rcases hf : f.on m with ⟨fault | a, n⟩
  · rw [hf] at he
    rw [on_bind_error he]
  · rw [hf] at he
    rw [on_bind_ok he]
    exact hg a n hf

theorem on_access (result : Except Fault α) (m : RawMachine) :
    (access (some result)).on m = some (result, m) := by
  cases result <;> rfl

end Exec

/-! ## Registers -/

section Registers

variable (m : Machine)

theorem register_raw (x : Register) : (register x).on m.raw = some (.ok (m.register x), m.raw) := by
  have hx : lookup m.raw.registers x = some (m.register x) := lookup_of_fin m.registers x
  rw [register, on_bind_ok (on_get _), hx, on_check]

theorem setRegister_raw (x : Register) (value : UInt8) :
    (setRegister x value).on m.raw = some (.ok ⟨⟩, (m.setRegister x value).raw) := by
  have hx : replace m.raw.registers x value = some (m.setRegister x value).registers :=
    replace_of_fin m.registers x value
  rw [setRegister, on_bind_ok (on_get _), hx, on_bind_ok (on_check _ _), on_set]
  rfl

theorem setFlag_raw (value : UInt8) :
    (setFlag value).on m.raw = some (.ok ⟨⟩, (m.setRegister Machine.flag value).raw) := by
  have hflag : flag = some Machine.flag.val := rfl
  rw [setFlag, hflag, on_bind_ok (on_check _ _), setRegister_raw]

theorem holds_raw (c : Condition) : (holds c.raw).on m.raw = some (.ok (m.holds c), m.raw) := by
  cases c with
  | equal x kk | unequal x kk =>
    rw [Condition.raw, holds, on_bind_ok (register_raw m x), on_pure]
    rfl
  | same x y | different x y =>
    rw [Condition.raw, holds, on_bind_ok (register_raw m x), on_bind_ok (register_raw m y), on_pure]
    rfl
  | held x =>
    rw [Condition.raw, holds, on_bind_ok (register_raw m x), on_bind_ok (on_get _),
      Machine.raw_keypad, isHeld_raw, on_check]
    rfl
  | released x =>
    rw [Condition.raw, holds, on_bind_ok (register_raw m x), on_bind_ok (on_get _),
      Machine.raw_keypad, isHeld_raw, on_bind_ok (on_check _ _), on_pure]
    rfl

theorem arithmetic_raw (op : Alu.Operation) (x y : Register) :
    (arithmetic op x y).on m.raw = some (.ok ⟨⟩, (m.arithmetic op x y).raw) := by
  rw [arithmetic, on_bind_ok (register_raw m x), on_bind_ok (register_raw m y), operate_eq,
    on_bind_ok (on_check _ _), on_bind_ok (setRegister_raw m x _)]
  simp only [Machine.arithmetic]
  cases op.flag? (m.register x) (m.register y) with
  | none => rfl
  | some flag => exact setFlag_raw _ _

end Registers

/-! ## Instructions -/

section Instructions

variable (m : Machine)

theorem enter_follows : Follows enter Machine.enter m := by
  rw [Follows, enter, on_bind_ok (on_get _), Machine.raw_stack]
  rcases m.enter_cases with ⟨hfull, he⟩ | ⟨stack, hs, he⟩
  · have hge : ¬ m.stack.entries.length < CallStack.capacity := by
      rw [hfull]
      decide
    rw [he, if_neg hge, on_throw]
  · have hlt : m.stack.entries.length < CallStack.capacity := by
      have hl := stack.length_le
      rw [hs, List.length_append, List.length_singleton] at hl
      exact hl
    rw [he, if_pos hlt, Machine.raw_pc, ← hs, on_set]
    rfl

theorem leave_follows : Follows leave Machine.leave m := by
  rw [Follows, leave, on_bind_ok (on_get _), Machine.raw_stack]
  rcases m.leave_cases with ⟨hempty, hl⟩ | ⟨target, stack, hs, hl⟩
  · rw [hl, hempty, List.getLast?_nil]
    rfl
  · rw [hl, hs, List.getLast?_concat, List.dropLast_concat]
    rfl

theorem readBlock_raw (address length : Nat) :
    (access (readBlock m.memory address length)).on m.raw =
      some (m.memory.readBlock address length, m.raw) := by
  rw [readBlock_eq, on_access]

theorem draw_follows (x y : Register) (rows : Nibble) :
    Follows (draw x y rows) (Machine.draw x y rows) m := by
  have hx := (m.register x).toNat_lt
  have hy := (m.register y).toNat_lt
  have hblock := readBlock_raw m m.index.toNat rows
  rw [Follows, draw, on_bind_ok (register_raw m x), on_bind_ok (register_raw m y),
    on_bind_ok (on_get _), Machine.raw_memory, Machine.raw_index, Machine.raw_screen]
  rcases m.draw_cases x y rows with ⟨h, hd⟩ | ⟨sprite, met, screen, hr, ht, hd⟩
  · rw [m.memory.readBlock_of_lt h] at hblock
    rw [hd, on_bind_error hblock]
    rfl
  · have hl : sprite.length ≤ 256 := by
      have := rows.isLt
      have := Memory.length_of_readBlock hr
      omega
    rw [hr] at hblock
    rw [hd, on_bind_ok hblock, drawSprite_eq _ _ hx hy hl, ht, on_bind_ok (on_check _ _),
      on_bind_ok (on_set _ _)]
    exact setFlag_raw { m with screen := screen } _

theorem putBlock_follows (data : List UInt8) :
    Follows (putBlock data) (Machine.store data) m := by
  have hblock : (access (storeBlock m.memory m.index.toNat data)).on m.raw =
      some (m.memory.storeBlock m.index.toNat data, m.raw) := by
    rw [storeBlock_eq, on_access]
  rw [Follows, putBlock, on_bind_ok (on_get _), Machine.raw_memory, Machine.raw_index]
  rcases m.store_cases data with ⟨h, hs⟩ | ⟨memory, hm, hs⟩
  · rw [m.memory.storeBlock_of_lt h] at hblock
    rw [hs, on_bind_error hblock]
    rfl
  · rw [hm] at hblock
    rw [hs, on_bind_ok hblock, on_set]
    rfl

theorem stored_follows (data : List UInt8) :
    Follows (putBlock data >>= fun _ => pure ({} : Outcome))
      (Machine.store data >>= fun _ => pure {}) m :=
  (putBlock_follows m data).bind fun _ _ _ => rfl

theorem registersTo_raw (last : Register) :
    (registersTo last).on m.raw = some (.ok (m.registersTo last), m.raw) := by
  have hlast := last.isLt
  rw [registersTo, on_bind_ok (on_get _), add_of_lt (by omega), on_bind_ok (on_check _ _),
    slice_of_le m.raw.registers (Nat.zero_le _) hlast, on_check]
  rfl

theorem fill_follows (last : Register) : Follows (fill last) (Machine.fill last) m := by
  have hlast := last.isLt
  have hblock := readBlock_raw m m.index.toNat (last + 1)
  rw [Follows, fill, on_bind_ok (on_get _), add_of_lt (by omega), on_bind_ok (on_check _ _),
    Machine.raw_memory, Machine.raw_index]
  rcases m.fill_cases last with ⟨h, hf⟩ | ⟨block, hr, hf⟩
  · rw [m.memory.readBlock_of_lt h] at hblock
    rw [hf, on_bind_error hblock]
    rfl
  · have hl := Memory.length_of_readBlock hr
    rw [hr] at hblock
    rw [hf, on_bind_ok hblock, paste_of_le m.raw.registers hlast (by omega),
      on_bind_ok (on_check _ _), on_set]
    rfl

/-- Every instruction does with checked operations what it does without them. -/
theorem effect_follows (i : Instruction) : Follows (effect i.raw) (Machine.effect i) m := by
  cases i with
  | clear | jump a | loadIndex a | awaitKey x => rfl
  | ret => exact (leave_follows m).bind fun _ _ _ => rfl
  | call a => exact (enter_follows m).bind fun _ _ _ => rfl
  | draw x y rows => exact (draw_follows m x y rows).bind fun _ _ _ => rfl
  | fillRegisters last => exact (fill_follows m last).bind fun _ _ _ => rfl
  | storeDigits x =>
    rw [Instruction.raw, Follows, effect, on_bind_ok (register_raw m x), digits_eq,
      on_bind_ok (on_check _ _), Machine.effect, Exec.on_bind, Exec.on_get]
    exact stored_follows m (Machine.decimalDigits (m.register x))
  | storeRegisters last =>
    rw [Instruction.raw, Follows, effect, on_bind_ok (registersTo_raw m last), Machine.effect,
      Exec.on_bind, Exec.on_get]
    exact stored_follows m (m.registersTo last)
  | skip c =>
    rw [Instruction.raw, Follows, effect, on_bind_ok (holds_raw m c)]
    rfl
  | load x kk =>
    rw [Instruction.raw, Follows, effect, on_bind_ok (setRegister_raw m x kk)]
    rfl
  | add x kk =>
    rw [Instruction.raw, Follows, effect, on_bind_ok (register_raw m x),
      on_bind_ok (setRegister_raw m x _)]
    rfl
  | arithmetic op x y =>
    rw [Instruction.raw, Follows, effect, on_bind_ok (arithmetic_raw m op x y)]
    rfl
  | jumpOffset base =>
    have hbase : (UInt16.ofNat base).toNat = base := by
      have := base.isLt
      rw [UInt16.toNat_ofNat']
      omega
    have hv0 : (register 0).on m.raw = some (.ok (m.register 0), m.raw) := register_raw m 0
    have hfits : base.val + (m.register 0).toNat < 2 ^ 16 := by
      have := base.isLt
      have := (m.register 0).toNat_lt
      omega
    rw [Instruction.raw, Follows, effect, on_bind_ok hv0, hbase, add_of_lt hfits,
      on_bind_ok (on_check _ _)]
    rfl
  | random x mask =>
    have hset := setRegister_raw { m with random := m.random.next.2 } x (mask &&& m.random.next.1)
    rw [Instruction.raw, Follows, effect, on_bind_ok (on_get _), on_bind_ok (on_set _ _)]
    exact on_bind_ok hset _
  | readDelay x =>
    rw [Instruction.raw, Follows, effect, on_bind_ok (on_get _),
      on_bind_ok (setRegister_raw m x _)]
    rfl
  | setDelay x | setSound x | addIndex x =>
    rw [Instruction.raw, Follows, effect, on_bind_ok (register_raw m x)]
    rfl
  | loadGlyph x =>
    rw [Instruction.raw, Follows, effect, on_bind_ok (register_raw m x), glyph_eq,
      on_bind_ok (on_check _ _)]
    rfl

theorem move_raw (flow : Flow) : (m.move flow).raw = m.raw.move flow := by
  cases flow <;> rfl

theorem execute_follows (i : Instruction) : Follows (execute i.raw) (Machine.execute i) m :=
  (effect_follows m i).bind fun o n _ => by
    rw [Follows, on_bind_ok (on_modify _ _), ← move_raw]
    rfl

end Instructions

/-! ## Steps and histories -/

section Histories

variable (m : Machine)

theorem fetch_of_ok {word : UInt16} (h : m.fetch = .ok word) :
    fetch.on m.raw = some (.ok word, (m.advance word).raw) := by
  have hblock := readBlock_raw m m.pc.toNat Word.size
  rw [Machine.fetch] at h
  rw [fetch, on_bind_ok (on_get _), Machine.raw_memory, Machine.raw_pc]
  cases hr : m.memory.readBlock m.pc.toNat Word.size with
  | error fault =>
    rw [hr] at h
    cases h
  | ok bytes =>
    rw [hr] at h hblock
    rw [on_bind_ok hblock, show Word.readAt bytes 0 = .ok word from h]
    rfl

theorem fetch_of_error {fault : Fault} (h : m.fetch = .error fault) :
    fetch.on m.raw = some (.error fault, m.raw) := by
  have hblock := readBlock_raw m m.pc.toNat Word.size
  rw [Machine.fetch] at h
  rw [fetch, on_bind_ok (on_get _), Machine.raw_memory, Machine.raw_pc]
  cases hr : m.memory.readBlock m.pc.toNat Word.size with
  | error other =>
    rw [hr] at h hblock
    rw [on_bind_error hblock]
    cases h
    rfl
  | ok bytes =>
    rw [hr] at h hblock
    rw [on_bind_ok hblock, show Word.readAt bytes 0 = .error fault from h]
    rfl

theorem resume_raw (x : Register) :
    (resume x).on m.raw = some (.ok (m.resume x).1, (m.resume x).2.raw) := by
  rw [resume, on_bind_ok (on_get _), Machine.resume, Keypad.takePress, Machine.raw_keypad,
    Keypad.raw]
  cases m.keypad.pressed with
  | none => rfl
  | some key =>
    have hset := setRegister_raw m x (UInt8.ofNat key)
    simp only [Option.map_some]
    rw [on_bind_ok hset]
    rfl

theorem step_raw : step.on m.raw = some (m.step.1, m.step.2.raw) := by
  rw [step, on_bind_ok (on_get _), Machine.step, Machine.raw_awaiting]
  cases m.awaiting with
  | some x => exact resume_raw m x
  | none =>
    simp only [Option.map_none]
    cases hf : m.fetch with
    | error fault => exact on_bind_error (fetch_of_error m hf) _
    | ok word =>
      have hdecode (n : RawMachine) : (access (decode word)).on n =
          some ((Instruction.decode word).map Instruction.raw, n) := by
        rw [decode_eq, on_access]
      rw [on_bind_ok (fetch_of_ok m hf)]
      simp only
      cases hd : Instruction.decode word with
      | error fault =>
        rw [hd] at hdecode
        exact on_bind_error (hdecode _) _
      | ok i =>
        rw [hd] at hdecode
        rw [on_bind_ok (hdecode _)]
        exact execute_follows ((m.advance word).record (m.pc, i)) i

theorem with_keypad_raw (keypad : Keypad) :
    Machine.raw { m with keypad := keypad } = { m.raw with keypad := keypad.raw } := rfl

theorem with_keys_raw (keys : Vector Bool 16) :
    { m.raw with keypad := (m.keypad.setAll keys).raw } = (m.setKeys keys).raw :=
  (with_keypad_raw m (m.keypad.setAll keys)).symm

theorem cycle_raw (keys : Vector Bool 16) :
    cycle m.raw keys =
      some ((m.cycle keys).1, (m.cycle keys).2.1, (m.cycle keys).2.2.raw) := by
  rw [cycle, Machine.raw_keypad, setKeys_raw, Option.bind_eq_bind, Option.bind_some, with_keys_raw,
    step_raw, Option.bind_eq_bind, Option.bind_some, Machine.cycle]
  rcases (m.setKeys keys).step with ⟨fault | signal, n⟩
  · rfl
  · cases signal <;> rfl

theorem load_eq (rom : Rom) : load rom = some (Machine.load rom) := by
  rw [load, storeBlock_eq, Option.bind_eq_bind, Option.bind_some, Machine.load]
  cases Memory.blank.storeBlock Font.location Font.bytes with
  | ok m => exact storeBlock_eq m Machine.start rom.data
  | error fault => rfl

theorem create_eq (rom : Rom) (random : RandomSource) :
    create rom random = some ((Machine.create rom random).map Machine.raw) := by
  rw [create, load_eq, Option.bind_eq_bind, Option.bind_some, Machine.create]
  cases Machine.load rom <;> rfl

theorem reset_raw : reset m.raw = some (m.reset.map Machine.raw) := by
  have hload : load m.raw.rom = some (Machine.load m.rom) := load_eq m.rom
  rw [reset, hload, Option.bind_eq_bind, Option.bind_some, Machine.reset]
  cases Machine.load m.rom <;> rfl

theorem act_raw (a : Action) : act m.raw a = some ((m.act a).1, (m.act a).2.raw) := by
  cases a with
  | step => rw [act, step_raw]; rfl
  | execute i => rw [act, execute_follows]; rfl
  | cycle keys => rw [act, cycle_raw]; rfl
  | move flow => rw [act, ← move_raw]; rfl
  | tick => rfl
  | setKey number down => rw [act, Machine.raw_keypad, setKey_raw]; rfl
  | toggleKey number => rw [act, Machine.raw_keypad, toggleKey_raw]; rfl
  | setKeys keys =>
    rw [act, Machine.raw_keypad, setKeys_raw, Option.bind_eq_bind, Option.bind_some, with_keys_raw]
    rfl
  | reset =>
    rw [act, reset_raw, Option.bind_eq_bind, Option.bind_some, Machine.act]
    cases m.reset <;> rfl
  | startTrace => rfl

theorem run_raw (history : List Action) :
    run m.raw history = some (m.answers history, (m.after history).raw) := by
  induction history generalizing m with
  | nil => rfl
  | cons a rest ih =>
    rw [run, act_raw, Option.bind_eq_bind, Option.bind_some]
    dsimp only
    rw [ih]
    rfl

end Histories

end Chip8.Checked
