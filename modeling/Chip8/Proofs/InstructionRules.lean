import Chip8.Machine.Execute

/-!
# What an instruction can do

An instruction is refused on six grounds, each of them checked before anything is changed, and has
one effect otherwise. Later proofs take an effect apart by these rules and do not look into the
functions again.
-/
namespace Chip8.Machine

/-- The grounds on which an instruction is refused. -/
inductive Refused (m : Machine) : Instruction → Fault → Prop
  | ret (h : m.stack.entries = []) : Refused m .ret .stackUnderflow
  | call (target : Address) (h : m.stack.entries.length = 16) :
      Refused m (.call target) .stackOverflow
  | draw (x y : Register) (rows : Nibble) (h : 4096 < m.index.toNat + rows) :
      Refused m (.draw x y rows) (.outOfRange m.index.toNat rows 4096)
  | storeDigits (x : Register) (h : 4096 < m.index.toNat + 3) :
      Refused m (.storeDigits x) (.outOfRange m.index.toNat 3 4096)
  | storeRegisters (last : Register) (h : 4096 < m.index.toNat + (last + 1)) :
      Refused m (.storeRegisters last) (.outOfRange m.index.toNat (last + 1) 4096)
  | fillRegisters (last : Register) (h : 4096 < m.index.toNat + (last + 1)) :
      Refused m (.fillRegisters last) (.outOfRange m.index.toNat (last + 1) 4096)

/-- What an instruction that is not refused asks for and the machine it leaves. -/
inductive Completed (m : Machine) : Instruction → Outcome → Machine → Prop
  | clear : Completed m .clear { signal := .draw } { m with screen := .blank }
  | ret {target : UInt16} {stack : CallStack} (h : m.stack.entries = stack.entries ++ [target]) :
      Completed m .ret { flow := .jump target } { m with stack := stack }
  | jump (target : Address) :
      Completed m (.jump target) { flow := .jump (UInt16.ofNat target) } m
  | call (target : Address) {stack : CallStack} (h : stack.entries = m.stack.entries ++ [m.pc]) :
      Completed m (.call target) { flow := .jump (UInt16.ofNat target) } { m with stack := stack }
  | skip (c : Condition) : Completed m (.skip c) { flow := .skipIf (m.holds c) } m
  | load (x : Register) (kk : UInt8) : Completed m (.load x kk) {} (m.setRegister x kk)
  | add (x : Register) (kk : UInt8) :
      Completed m (.add x kk) {} (m.setRegister x (m.register x + kk))
  | arithmetic (op : Alu.Operation) (x y : Register) :
      Completed m (.arithmetic op x y) {} (m.arithmetic op x y)
  | loadIndex (a : Address) : Completed m (.loadIndex a) {} { m with index := UInt16.ofNat a }
  | jumpOffset (base : Address) :
      Completed m (.jumpOffset base)
        { flow := .jump (UInt16.ofNat (base + (m.register 0).toNat)) } m
  | random (x : Register) (mask : UInt8) : Completed m (.random x mask) {} (m.loadRandom x mask)
  | draw (x y : Register) (rows : Nibble) {sprite : List UInt8} {met : Bool} {screen : Screen}
      (hr : m.memory.readBlock m.index.toNat rows = .ok sprite)
      (hs : m.screen.toggleAll (Sprite.pixels sprite (m.register x).toNat (m.register y).toNat) =
        (met, screen)) :
      Completed m (.draw x y rows) { signal := .draw } ({ m with screen := screen }.setFlag met)
  | readDelay (x : Register) : Completed m (.readDelay x) {} (m.setRegister x m.delay.value)
  | awaitKey (x : Register) :
      Completed m (.awaitKey x) { flow := .hold, signal := .wait } (m.awaitKey x)
  | setDelay (x : Register) : Completed m (.setDelay x) {} { m with delay := ⟨m.register x⟩ }
  | setSound (x : Register) : Completed m (.setSound x) {} { m with sound := ⟨m.register x⟩ }
  | addIndex (x : Register) :
      Completed m (.addIndex x) {} { m with index := m.index + (m.register x).toUInt16 }
  | loadGlyph (x : Register) :
      Completed m (.loadGlyph x) {} { m with index := Font.glyph (m.register x) }
  | storeDigits (x : Register) {memory : Memory}
      (h : m.memory.storeBlock m.index.toNat (decimalDigits (m.register x)) = .ok memory) :
      Completed m (.storeDigits x) {} { m with memory := memory }
  | storeRegisters (last : Register) {memory : Memory}
      (h : m.memory.storeBlock m.index.toNat (m.registersTo last) = .ok memory) :
      Completed m (.storeRegisters last) {} { m with memory := memory }
  | fillRegisters (last : Register) {block : List UInt8}
      (h : m.memory.readBlock m.index.toNat (last + 1) = .ok block) :
      Completed m (.fillRegisters last) {}
        { m with registers := Vector.ofFn fun i => block.getD i (m.register i) }

/-! ## The operations that can be refused -/

open Exec in
theorem enter_cases (m : Machine) :
    (m.stack.entries.length = 16 ∧ enter.on m = (.error .stackOverflow, m)) ∨
      ∃ stack : CallStack, stack.entries = m.stack.entries ++ [m.pc] ∧
        enter.on m = (.ok ⟨⟩, { m with stack := stack }) := by
  rcases m.stack.push_cases m.pc with ⟨hl, hp⟩ | ⟨stack, he, hp⟩
  · exact .inl ⟨hl, by simp only [enter, on_bind, on_get, on_lift, hp]⟩
  · exact .inr ⟨stack, he, by simp only [enter, on_bind, on_get, on_lift, on_set, hp]⟩

open Exec in
theorem leave_cases (m : Machine) :
    (m.stack.entries = [] ∧ leave.on m = (.error .stackUnderflow, m)) ∨
      ∃ (target : UInt16) (stack : CallStack), m.stack.entries = stack.entries ++ [target] ∧
        leave.on m = (.ok target, { m with stack := stack }) := by
  rcases m.stack.pop_cases with ⟨he, hp⟩ | ⟨target, stack, he, hp⟩
  · exact .inl ⟨he, by simp only [leave, on_bind, on_get, on_lift, hp]⟩
  · exact .inr ⟨target, stack, he,
      by simp only [leave, on_bind, on_get, on_lift, on_set, on_pure, hp]⟩

open Exec in
theorem draw_cases (m : Machine) (x y : Register) (rows : Nat) :
    (4096 < m.index.toNat + rows ∧
      (draw x y rows).on m = (.error (.outOfRange m.index.toNat rows 4096), m)) ∨
    ∃ (sprite : List UInt8) (met : Bool) (screen : Screen),
      m.memory.readBlock m.index.toNat rows = .ok sprite ∧
      m.screen.toggleAll (Sprite.pixels sprite (m.register x).toNat (m.register y).toNat) =
        (met, screen) ∧
      (draw x y rows).on m = (.ok ⟨⟩, { m with screen := screen }.setFlag met) := by
  rcases Nat.lt_or_ge 4096 (m.index.toNat + rows) with h | h
  · have hr := m.memory.readBlock_of_lt h
    exact .inl ⟨h, by simp only [draw, on_bind, on_get, on_lift, hr, Memory.capacity]⟩
  · have hr := m.memory.readBlock_of_le h
    obtain ⟨⟨met, screen⟩, ht⟩ : ∃ drawn, m.screen.toggleAll (Sprite.pixels
      (List.ofFn fun i : Fin rows => m.memory.bytes[m.index.toNat + i])
      (m.register x).toNat (m.register y).toNat) = drawn := ⟨_, rfl⟩
    exact .inr ⟨_, met, screen, hr, ht,
      by simp only [draw, on_bind, on_get, on_lift, on_set, hr, ht]⟩

open Exec in
theorem store_cases (m : Machine) (data : List UInt8) :
    (4096 < m.index.toNat + data.length ∧
      (store data).on m = (.error (.outOfRange m.index.toNat data.length 4096), m)) ∨
    ∃ memory : Memory, m.memory.storeBlock m.index.toNat data = .ok memory ∧
      (store data).on m = (.ok ⟨⟩, { m with memory := memory }) := by
  rcases Nat.lt_or_ge 4096 (m.index.toNat + data.length) with h | h
  · have hs := m.memory.storeBlock_of_lt h
    exact .inl ⟨h, by simp only [store, on_bind, on_get, on_lift, hs, Memory.capacity]⟩
  · have hs := m.memory.storeBlock_of_le h
    exact .inr ⟨_, hs, by simp only [store, on_bind, on_get, on_lift, on_set, hs]⟩

open Exec in
theorem fill_cases (m : Machine) (last : Register) :
    (4096 < m.index.toNat + (last + 1) ∧
      (fill last).on m = (.error (.outOfRange m.index.toNat (last + 1) 4096), m)) ∨
    ∃ block : List UInt8, m.memory.readBlock m.index.toNat (last + 1) = .ok block ∧
      (fill last).on m =
        (.ok ⟨⟩, { m with registers := Vector.ofFn fun i => block.getD i (m.register i) }) := by
  rcases Nat.lt_or_ge 4096 (m.index.toNat + (last + 1)) with h | h
  · have hr := m.memory.readBlock_of_lt h
    exact .inl ⟨h, by simp only [fill, on_bind, on_get, on_lift, hr, Memory.capacity]⟩
  · have hr := m.memory.readBlock_of_le h
    exact .inr ⟨_, hr, by simp only [fill, on_bind, on_get, on_lift, on_set, hr]⟩

theorem length_registersTo (m : Machine) (last : Register) :
    (m.registersTo last).length = last + 1 := by
  have h := last.isLt
  rw [registersTo, List.length_take, Vector.length_toList]
  omega

open Exec in
/-- Every instruction is refused on one of the grounds, with the machine as it was, or completes. -/
theorem effect_cases (m : Machine) (i : Instruction) :
    (∃ fault, Refused m i fault ∧ (effect i).on m = (.error fault, m)) ∨
      ∃ o n, Completed m i o n ∧ (effect i).on m = (.ok o, n) := by
  cases i with
  | ret =>
    rcases leave_cases m with ⟨he, hl⟩ | ⟨target, stack, he, hl⟩
    · exact .inl ⟨_, .ret he, by simp only [effect, on_bind, hl]⟩
    · exact .inr ⟨_, _, .ret he, by simp only [effect, on_bind, hl, on_pure]⟩
  | call target =>
    rcases enter_cases m with ⟨hf, he⟩ | ⟨stack, hs, he⟩
    · exact .inl ⟨_, .call target hf, by simp only [effect, on_bind, he]⟩
    · exact .inr ⟨_, _, .call target hs, by simp only [effect, on_bind, he, on_pure]⟩
  | draw x y rows =>
    rcases draw_cases m x y rows with ⟨h, hd⟩ | ⟨sprite, met, screen, hr, hs, hd⟩
    · exact .inl ⟨_, .draw x y rows h, by simp only [effect, on_bind, hd]⟩
    · exact .inr ⟨_, _, .draw x y rows hr hs, by simp only [effect, on_bind, hd, on_pure]⟩
  | storeDigits x =>
    rcases store_cases m (decimalDigits (m.register x)) with ⟨h, hs⟩ | ⟨memory, hm, hs⟩
    · exact .inl ⟨_, .storeDigits x h, by simp only [effect, on_bind, on_get, hs]; rfl⟩
    · exact .inr ⟨_, _, .storeDigits x hm, by simp only [effect, on_bind, on_get, hs, on_pure]⟩
  | storeRegisters last =>
    have hl := length_registersTo m last
    rcases store_cases m (m.registersTo last) with ⟨h, hs⟩ | ⟨memory, hm, hs⟩
    · rw [hl] at h hs
      exact .inl ⟨_, .storeRegisters last h, by simp only [effect, on_bind, on_get, hs]⟩
    · exact .inr ⟨_, _, .storeRegisters last hm,
        by simp only [effect, on_bind, on_get, hs, on_pure]⟩
  | fillRegisters last =>
    rcases fill_cases m last with ⟨h, hf⟩ | ⟨block, hr, hf⟩
    · exact .inl ⟨_, .fillRegisters last h, by simp only [effect, on_bind, hf]⟩
    · exact .inr ⟨_, _, .fillRegisters last hr, by simp only [effect, on_bind, hf, on_pure]⟩
  | clear => exact .inr ⟨_, _, .clear, rfl⟩
  | jump target => exact .inr ⟨_, _, .jump target, rfl⟩
  | skip c => exact .inr ⟨_, _, .skip c, rfl⟩
  | load x kk => exact .inr ⟨_, _, .load x kk, rfl⟩
  | add x kk => exact .inr ⟨_, _, .add x kk, rfl⟩
  | arithmetic op x y => exact .inr ⟨_, _, .arithmetic op x y, rfl⟩
  | loadIndex a => exact .inr ⟨_, _, .loadIndex a, rfl⟩
  | jumpOffset base => exact .inr ⟨_, _, .jumpOffset base, rfl⟩
  | random x mask => exact .inr ⟨_, _, .random x mask, rfl⟩
  | readDelay x => exact .inr ⟨_, _, .readDelay x, rfl⟩
  | awaitKey x => exact .inr ⟨_, _, .awaitKey x, rfl⟩
  | setDelay x => exact .inr ⟨_, _, .setDelay x, rfl⟩
  | setSound x => exact .inr ⟨_, _, .setSound x, rfl⟩
  | addIndex x => exact .inr ⟨_, _, .addIndex x, rfl⟩
  | loadGlyph x => exact .inr ⟨_, _, .loadGlyph x, rfl⟩

/-- An instruction that is executed has its effect, and the program counter moves on behind it. -/
theorem completed_of_execute {m n : Machine} {i : Instruction} {signal : Signal}
    (h : (execute i).on m = (.ok signal, n)) :
    ∃ o k, Completed m i o k ∧ o.signal = signal ∧ n = k.move o.flow := by
  rcases effect_cases m i with ⟨fault, -, he⟩ | ⟨o, k, hc, he⟩
  · simp only [execute, Exec.on_bind, he] at h
    cases h
  · simp only [execute, Exec.on_bind, he, Exec.on_modify, Exec.on_pure] at h
    cases h
    exact ⟨o, k, hc, rfl, rfl⟩

theorem Refused.not_completed {m n : Machine} {i : Instruction} {fault : Fault} {o : Outcome}
    (h : Refused m i fault) : ¬ Completed m i o n := by
  intro hc
  cases h with
  | ret h =>
    cases hc with
    | ret he => simp [h] at he
  | call target h =>
    cases hc with
    | @call _ stack he =>
      have hl := stack.length_le
      rw [he, List.length_append, h] at hl
      simp at hl
  | draw x y rows h =>
    cases hc with
    | draw _ _ _ hr hs =>
      rw [m.memory.readBlock_of_lt h] at hr
      cases hr
  | storeDigits x h =>
    cases hc with
    | storeDigits _ hs =>
      rw [m.memory.storeBlock_of_lt h] at hs
      cases hs
  | storeRegisters last h =>
    cases hc with
    | storeRegisters _ hs =>
      rw [m.memory.storeBlock_of_lt (by rw [length_registersTo]; exact h)] at hs
      cases hs
  | fillRegisters last h =>
    cases hc with
    | fillRegisters _ hr =>
      rw [m.memory.readBlock_of_lt h] at hr
      cases hr

theorem Refused.unique {m : Machine} {i : Instruction} {fault other : Fault}
    (h : Refused m i fault) (ho : Refused m i other) : fault = other := by
  cases h <;> cases ho <;> rfl

/-- The grounds of a refusal lie in the stack and the index register. -/
theorem Refused.congr {m n : Machine} {i : Instruction} {fault : Fault} (h : Refused m i fault)
    (hs : n.stack = m.stack) (hi : n.index = m.index) : Refused n i fault := by
  cases h with
  | ret h => exact .ret (hs ▸ h)
  | call target h => exact .call target (hs ▸ h)
  | draw x y rows h =>
    rw [← hi] at h ⊢
    exact .draw x y rows h
  | storeDigits x h =>
    rw [← hi] at h ⊢
    exact .storeDigits x h
  | storeRegisters last h =>
    rw [← hi] at h ⊢
    exact .storeRegisters last h
  | fillRegisters last h =>
    rw [← hi] at h ⊢
    exact .fillRegisters last h

theorem effect_of_refused {m : Machine} {i : Instruction} {fault : Fault}
    (h : Refused m i fault) : (effect i).on m = (.error fault, m) := by
  rcases effect_cases m i with ⟨other, ho, he⟩ | ⟨o, n, hc, -⟩
  · rw [he, h.unique ho]
  · exact absurd hc h.not_completed

/-- An instruction asks for one thing and leaves one machine. -/
theorem Completed.unique {m n n' : Machine} {i : Instruction} {o o' : Outcome}
    (h : Completed m i o n) (h' : Completed m i o' n') : o = o' ∧ n = n' := by
  cases h with
  | ret he =>
    cases h' with
    | ret he' =>
      obtain ⟨hs, ht⟩ := List.append_inj' (he.symm.trans he') rfl
      cases CallStack.ext hs
      cases ht
      exact ⟨rfl, rfl⟩
  | call target he =>
    cases h' with
    | call _ he' =>
      cases CallStack.ext (he.trans he'.symm)
      exact ⟨rfl, rfl⟩
  | draw x y rows hr hs =>
    cases h' with
    | draw _ _ _ hr' hs' =>
      cases hr.symm.trans hr'
      cases hs.symm.trans hs'
      exact ⟨rfl, rfl⟩
  | storeDigits x hs =>
    cases h' with
    | storeDigits _ hs' =>
      cases hs.symm.trans hs'
      exact ⟨rfl, rfl⟩
  | storeRegisters last hs =>
    cases h' with
    | storeRegisters _ hs' =>
      cases hs.symm.trans hs'
      exact ⟨rfl, rfl⟩
  | fillRegisters last hr =>
    cases h' with
    | fillRegisters _ hr' =>
      cases hr.symm.trans hr'
      exact ⟨rfl, rfl⟩
  | _ =>
    cases h'
    exact ⟨rfl, rfl⟩

theorem effect_of_completed {m n : Machine} {i : Instruction} {o : Outcome}
    (h : Completed m i o n) : (effect i).on m = (.ok o, n) := by
  rcases effect_cases m i with ⟨fault, hr, -⟩ | ⟨o', n', hc, he⟩
  · exact absurd h hr.not_completed
  · obtain ⟨rfl, rfl⟩ := h.unique hc
    exact he

/-! ## What an execution comes to -/

theorem execute_of_refused {m : Machine} {i : Instruction} {fault : Fault}
    (h : Refused m i fault) : (execute i).on m = (.error fault, m) := by
  simp only [execute, Exec.on_bind, effect_of_refused h]

theorem execute_of_completed {m n : Machine} {i : Instruction} {o : Outcome}
    (h : Completed m i o n) : (execute i).on m = (.ok o.signal, n.move o.flow) := by
  simp only [execute, Exec.on_bind, effect_of_completed h, Exec.on_modify, Exec.on_pure]

/-- An instruction that is executed is refused, with the machine as it was, or completes. -/
theorem execute_cases (m : Machine) (i : Instruction) :
    (∃ fault, Refused m i fault ∧ (execute i).on m = (.error fault, m)) ∨
      ∃ o n, Completed m i o n ∧ (execute i).on m = (.ok o.signal, n.move o.flow) := by
  rcases effect_cases m i with ⟨fault, hr, -⟩ | ⟨o, n, hc, -⟩
  · exact .inl ⟨fault, hr, execute_of_refused hr⟩
  · exact .inr ⟨o, n, hc, execute_of_completed hc⟩

/-! ## What an instruction leaves alone -/

/-- Arithmetic reaches the registers only. -/
theorem arithmetic_frame (m : Machine) (op : Alu.Operation) (x y : Register) :
    ∃ registers, m.arithmetic op x y = { m with registers := registers } := by
  refine ⟨(m.arithmetic op x y).registers, ?_⟩
  cases hf : op.flag? (m.register x) (m.register y) <;> simp only [arithmetic, hf] <;> rfl

section Frames

variable {m n : Machine} {i : Instruction} {o : Outcome}

theorem Completed.frame (h : Completed m i o n) :
    n.pc = m.pc ∧ n.word = m.word ∧ n.trace = m.trace ∧ n.rom = m.rom := by
  cases h with
  | arithmetic op x y =>
    obtain ⟨registers, he⟩ := arithmetic_frame m op x y
    rw [he]
    exact ⟨rfl, rfl, rfl, rfl⟩
  | _ => exact ⟨rfl, rfl, rfl, rfl⟩

/-- Only the instruction that waits for a key starts a wait, holds and tells the host to wait. -/
theorem Completed.awaiting_cases (h : Completed m i o n) :
    (∃ x, i = .awaitKey x ∧ o = ⟨.hold, .wait⟩ ∧ n = m.awaitKey x) ∨
      (n.awaiting = m.awaiting ∧ o.flow ≠ .hold ∧ o.signal ≠ .wait) := by
  cases h with
  | awaitKey x => exact .inl ⟨x, rfl, rfl, rfl⟩
  | arithmetic op x y =>
    obtain ⟨registers, he⟩ := arithmetic_frame m op x y
    rw [he]
    exact .inr ⟨rfl, nofun, nofun⟩
  | skip c =>
    refine .inr ⟨rfl, ?_, nofun⟩
    cases m.holds c <;> nofun
  | _ => exact .inr ⟨rfl, nofun, nofun⟩

/-- An instruction leaves the stack alone, puts the program counter behind its entries or takes the
newest entry and goes there. -/
theorem Completed.stack_cases (h : Completed m i o n) :
    n.stack = m.stack ∨
      (∃ target, i = .call target ∧ n.stack.entries = m.stack.entries ++ [m.pc]) ∨
      ∃ target, i = .ret ∧ o = { flow := .jump target } ∧
        m.stack.entries = n.stack.entries ++ [target] := by
  cases h with
  | ret he => exact .inr (.inr ⟨_, rfl, rfl, he⟩)
  | call target he => exact .inr (.inl ⟨target, rfl, he⟩)
  | arithmetic op x y =>
    obtain ⟨registers, he⟩ := arithmetic_frame m op x y
    rw [he]
    exact .inl rfl
  | _ => exact .inl rfl

/-- What lies on the stack was there before or is where the call returns to. -/
theorem Completed.mem_stack (h : Completed m i o n) {a : UInt16} (ha : a ∈ n.stack.entries) :
    a ∈ m.stack.entries ∨ a = m.pc := by
  rcases h.stack_cases with hs | ⟨target, -, hs⟩ | ⟨target, -, -, hs⟩
  · exact .inl (hs ▸ ha)
  · rw [hs] at ha
    exact (List.mem_append.mp ha).imp_right List.mem_singleton.mp
  · rw [hs]
    exact .inl (List.mem_append_left _ ha)

/-- A jump goes to an address of the instruction, up to a byte behind it or to the newest return
address. -/
theorem Completed.jump_cases (h : Completed m i o n) {target : UInt16}
    (ht : o.flow = .jump target) : target.toNat ≤ 0x10FE ∨ target ∈ m.stack.entries := by
  cases h with
  | ret he =>
    cases ht
    rw [he]
    exact .inr (List.mem_append_right _ (List.mem_singleton_self _))
  | jump a | call a =>
    cases ht
    have := a.isLt
    rw [UInt16.toNat_ofNat']
    omega
  | jumpOffset base =>
    cases ht
    have := base.isLt
    have := (m.register 0).toNat_lt
    rw [UInt16.toNat_ofNat']
    omega
  | skip c => cases hc : m.holds c <;> rw [hc] at ht <;> cases ht
  | _ => cases ht

end Frames

end Chip8.Machine
