import Chip8.Proofs.StepRules
import Mathlib.Data.Set.Insert

/-!
# The footprint of an instruction

For each instruction a set of parts of the machine, read off its operands and the index register. An
instruction that completes changes no part outside its set, the program counter apart; the image,
the last word and the trace belong to no set. Of a changed part it is said what is left in it where
that is more than a result of arithmetic: the cells, the call stack, the keypad and the random
source. The parts are all that there is to change, so an instruction with an empty set only moves
the program counter.
-/
namespace Chip8

/-- The operations that report what their result lost. -/
def Alu.Operation.setsFlag : Alu.Operation → Bool
  | add | sub | shiftRight | subFrom | shiftLeft => true
  | assign | or | and | xor => false

theorem Alu.Operation.flag?_eq_none {op : Alu.Operation} (h : op.setsFlag = false) (a b : UInt8) :
    op.flag? a b = none := by
  cases op <;> first | rfl | cases h

/-- The parts of a machine that instructions change, besides the program counter. -/
inductive Part where
  | register (r : Register)
  | index
  | cell (address : Nat)
  | stack
  | delay
  | sound
  | screen
  | keypad
  | awaiting
  | random
  deriving DecidableEq

namespace Part

/-- Some cells in a row. -/
def cells (first count : Nat) : Set Part := {p | ∃ k < count, p = .cell (first + k)}

/-- The registers up to a last one. -/
def registersTo (last : Register) : Set Part := {p | ∃ r ≤ last, p = .register r}

end Part

/-- The parts an instruction may change, from the number in the index register. -/
def Instruction.footprint (index : Nat) : Instruction → Set Part
  | clear => {.screen}
  | ret | call _ => {.stack}
  | jump _ | skip _ | jumpOffset _ => ∅
  | load x _ | add x _ | readDelay x => {.register x}
  | arithmetic op x _ =>
    if op.setsFlag then {.register x, .register Machine.flag} else {.register x}
  | loadIndex _ | addIndex _ | loadGlyph _ => {.index}
  | random x _ => {.register x, .random}
  | draw _ _ _ => {.screen, .register Machine.flag}
  | awaitKey _ => {.keypad, .awaiting}
  | setDelay _ => {.delay}
  | setSound _ => {.sound}
  | storeDigits _ => Part.cells index 3
  | storeRegisters last => Part.cells index (last + 1)
  | fillRegisters last => Part.registersTo last

namespace Machine

/-- Two machines have the same in a part. -/
def Agree (m n : Machine) : Part → Prop
  | .register r => n.register r = m.register r
  | .index => n.index = m.index
  | .cell address => n.memory.byteAt address = m.memory.byteAt address
  | .stack => n.stack = m.stack
  | .delay => n.delay = m.delay
  | .sound => n.sound = m.sound
  | .screen => n.screen = m.screen
  | .keypad => n.keypad = m.keypad
  | .awaiting => n.awaiting = m.awaiting
  | .random => n.random = m.random

/-- What an instruction leaves in the cells, the stack, the keypad and the random source. -/
def Leaves (m n : Machine) : Instruction → Prop
  | .ret => ∃ newest, m.stack.entries = n.stack.entries ++ [newest]
  | .call _ => ∃ newest, n.stack.entries = m.stack.entries ++ [newest]
  | .storeDigits x => m.index.toNat + 3 ≤ 4096 ∧
      (∀ k < 3, n.memory.byteAt (m.index.toNat + k) ≤ 9) ∧
      100 * (n.memory.byteAt m.index.toNat).toNat +
        10 * (n.memory.byteAt (m.index.toNat + 1)).toNat +
        (n.memory.byteAt (m.index.toNat + 2)).toNat = (m.register x).toNat
  | .storeRegisters last => m.index.toNat + last < 4096 ∧
      ∀ r ≤ last, n.memory.byteAt (m.index.toNat + r) = m.register r
  | .awaitKey x => n.keypad.held = m.keypad.held ∧ n.keypad.pressed = none ∧ n.awaiting = some x
  | .random _ _ => n.random.stream = m.random.stream ∧ n.random.taken = m.random.taken + 1
  | _ => True

/-! ## What a single change reaches -/

section Changes

variable {m n k : Machine} {p : Part}

theorem Agree.refl : Agree m m p := by
  cases p <;> rfl

theorem Agree.trans (h : Agree m n p) (h' : Agree n k p) : Agree m k p := by
  cases p <;> exact Eq.trans h' h

theorem agree_move (flow : Flow) : Agree m (m.move flow) p := by
  cases p <;> cases flow <;> rfl

theorem leaves_move {i : Instruction} {flow : Flow} : Leaves m (n.move flow) i ↔ Leaves m n i := by
  cases i <;> cases flow <;> rfl

theorem agree_setRegister {x : Register} (value : UInt8) (hp : p ≠ .register x) :
    Agree m (m.setRegister x value) p := by
  cases p with
  | register r =>
    have hr : r ≠ x := fun h => hp (h ▸ rfl)
    exact (m.register_setRegister x r value).trans (if_neg hr)
  | _ => rfl

theorem agree_arithmetic {op : Alu.Operation} {x y : Register}
    (hp : p ∉ (Instruction.arithmetic op x y).footprint m.index.toNat) :
    Agree m (m.arithmetic op x y) p := by
  cases hs : op.setsFlag with
  | false =>
    simp only [Instruction.footprint, hs, Bool.false_eq_true, if_false] at hp
    simp only [arithmetic, op.flag?_eq_none hs]
    exact agree_setRegister _ hp
  | true =>
    simp only [Instruction.footprint, hs, if_true] at hp
    have hx : p ≠ .register x := fun h => hp (.inl h)
    have hf : p ≠ .register flag := fun h => hp (.inr h)
    unfold arithmetic
    dsimp only
    split
    · exact (agree_setRegister _ hx).trans (agree_setRegister _ hf)
    · exact agree_setRegister _ hx

theorem agree_storeBlock {data : List UInt8} {memory : Memory}
    (h : m.memory.storeBlock m.index.toNat data = .ok memory)
    (hp : p ∉ Part.cells m.index.toNat data.length) : Agree m { m with memory := memory } p := by
  cases p with
  | cell address =>
    change memory.byteAt address = m.memory.byteAt address
    rw [Memory.byteAt_of_storeBlock h, if_neg]
    intro hin
    exact hp ⟨address - m.index.toNat, by omega, by congr 1; omega⟩
  | _ => rfl

end Changes

/-! ## What an instruction reaches -/

section Completed

variable {m n : Machine} {i : Instruction} {o : Outcome}

theorem Completed.agree (h : Completed m i o n) {p : Part}
    (hp : p ∉ i.footprint m.index.toNat) : Agree m n p := by
  cases h with
  | jump | skip | jumpOffset => exact Agree.refl
  | load x | add x | readDelay x => exact agree_setRegister _ hp
  | arithmetic op x y => exact agree_arithmetic hp
  | random x mask =>
    have hr : Agree m { m with random := m.random.next.2 } p := by
      cases p <;> first | rfl | exact absurd (.inr rfl) hp
    exact hr.trans (agree_setRegister _ fun he => hp (.inl he))
  | draw x y rows hb hs =>
    rename_i screen
    have hd : Agree m { m with screen := screen } p := by
      cases p <;> first | rfl | exact absurd (.inl rfl) hp
    exact hd.trans (agree_setRegister _ fun he => hp (.inr he))
  | awaitKey x =>
    cases p with
    | keypad => exact absurd (.inl rfl) hp
    | awaiting => exact absurd (.inr rfl) hp
    | _ => rfl
  | storeDigits x hs => exact agree_storeBlock hs hp
  | storeRegisters last hs => exact agree_storeBlock hs (by rw [length_registersTo]; exact hp)
  | fillRegisters last hb =>
    rename_i block
    cases p with
    | register r =>
      have hr : last.val < r.val := by
        by_contra hle
        exact hp ⟨r, Nat.le_of_not_lt hle, rfl⟩
      have hl := Memory.length_of_readBlock hb
      change (Vector.ofFn fun i : Fin 16 => block.getD i (m.register i))[r] = m.register r
      simp [show block.length ≤ r.val by omega]
    | _ => rfl
  | _ => cases p <;> first | rfl | exact absurd rfl hp

theorem le_of_mem_decimalDigits {value digit : UInt8} (h : digit ∈ decimalDigits value) :
    digit ≤ 9 := by
  have hv := value.toNat_lt
  rw [UInt8.le_iff_toNat_le]
  simp only [decimalDigits, List.mem_cons, List.not_mem_nil, or_false] at h
  rcases h with rfl | rfl | rfl
  · change value.toNat / 100 ≤ 9
    omega
  · change value.toNat / 10 % 10 ≤ 9
    omega
  · change value.toNat % 10 ≤ 9
    omega

theorem sum_decimalDigits (value : UInt8) :
    100 * (value / 100).toNat + 10 * (value / 10 % 10).toNat + (value % 10).toNat =
      value.toNat := by
  change 100 * (value.toNat / 100) + 10 * (value.toNat / 10 % 10) + value.toNat % 10 = _
  omega

theorem Completed.leaves (h : Completed m i o n) : Leaves m n i := by
  cases h with
  | ret he => exact ⟨_, he⟩
  | call target he => exact ⟨_, he⟩
  | random x mask => exact ⟨rfl, rfl⟩
  | awaitKey x => exact ⟨rfl, rfl, rfl⟩
  | @storeDigits x memory hs =>
    have hcell {k : Nat} (hk : k < 3) :
        memory.byteAt (m.index.toNat + k) = (decimalDigits (m.register x))[k] :=
      Memory.byteAt_stored hs hk
    refine ⟨Memory.le_of_storeBlock hs, fun k hk => ?_, ?_⟩
    · change memory.byteAt (m.index.toNat + k) ≤ 9
      rw [hcell hk]
      exact le_of_mem_decimalDigits (List.getElem_mem hk)
    · change 100 * (memory.byteAt (m.index.toNat + 0)).toNat + _ + _ = _
      rw [hcell (by decide), hcell (by decide), hcell (by decide)]
      exact sum_decimalDigits (m.register x)
  | @storeRegisters last memory hs =>
    have hle := Memory.le_of_storeBlock hs
    have hlen := length_registersTo m last
    refine ⟨by omega, fun r hr => ?_⟩
    have hr' : r.val < last.val + 1 := Nat.lt_succ_of_le hr
    change memory.byteAt (m.index.toNat + r) = m.register r
    rw [Memory.byteAt_stored hs (by omega)]
    simp [registersTo, register]
  | _ => trivial

end Completed

/-- Nothing but the program counter lies outside the parts, the image, the last word and the
trace. -/
theorem eq_of_agree {m n : Machine} (h : ∀ p, Agree m n p) (hr : n.rom = m.rom)
    (hw : n.word = m.word) (ht : n.trace = m.trace) : n = { m with pc := n.pc } := by
  have hregisters : n.registers = m.registers := by
    ext r hlt : 1
    exact h (.register ⟨r, hlt⟩)
  have hmemory : n.memory.bytes = m.memory.bytes := by
    ext a hlt : 1
    have hcell : n.memory.byteAt a = m.memory.byteAt a := h (.cell a)
    rwa [Memory.byteAt_of_lt _ hlt, Memory.byteAt_of_lt _ hlt] at hcell
  have hindex := h .index
  have hstack := h .stack
  have hdelay := h .delay
  have hsound := h .sound
  have hscreen := h .screen
  have hkeypad := h .keypad
  have hawaiting := h .awaiting
  have hrandom := h .random
  clear h
  obtain ⟨rom, word, ⟨bytes⟩, registers, index, pc, stack, delay, sound, screen, keypad, awaiting,
    random, trace⟩ := n
  dsimp only [Agree] at *
  subst_vars
  rfl

section Execute

variable {m n : Machine} {i : Instruction} {signal : Signal}
  (h : (execute i).on m = (.ok signal, n))
include h

theorem agree_of_execute {p : Part} (hp : p ∉ i.footprint m.index.toNat) : Agree m n p := by
  obtain ⟨o, k, hc, -, rfl⟩ := completed_of_execute h
  exact (hc.agree hp).trans (agree_move _)

theorem kept_by_execute : n.rom = m.rom ∧ n.word = m.word ∧ n.trace = m.trace := by
  obtain ⟨o, k, hc, -, rfl⟩ := completed_of_execute h
  obtain ⟨-, hword, htrace, hrom⟩ := hc.frame
  refine ⟨?_, ?_, ?_⟩
  · cases o.flow <;> exact hrom
  · cases o.flow <;> exact hword
  · cases o.flow <;> exact htrace

/-- An instruction with an empty footprint does nothing but move the program counter. -/
theorem execute_of_footprint_eq_empty (hi : i.footprint m.index.toNat = ∅) :
    n = { m with pc := n.pc } := by
  obtain ⟨hrom, hword, htrace⟩ := kept_by_execute h
  refine eq_of_agree (fun p => agree_of_execute h ?_) hrom hword htrace
  rw [hi]
  exact Set.notMem_empty p

end Execute

/-- An instruction that completes changes the parts of its footprint and the program counter and
nothing else, and leaves in the parts it changes what it is for. -/
theorem execute_footprint {m n : Machine} {i : Instruction} {signal : Signal}
    (h : (execute i).on m = (.ok signal, n)) :
    (∀ p, p ∉ i.footprint m.index.toNat → Agree m n p) ∧ Leaves m n i ∧
      n.rom = m.rom ∧ n.word = m.word ∧ n.trace = m.trace := by
  refine ⟨fun p => agree_of_execute h, ?_, kept_by_execute h⟩
  obtain ⟨o, k, hc, -, rfl⟩ := completed_of_execute h
  exact leaves_move.mpr hc.leaves

/-- A machine with 246 in the register 3 and just three cells behind its index register. -/
def countingAtEnd : Machine :=
  { initial ⟨"", []⟩ Memory.blank (RandomSource.repeating []) with
    index := 0xFFD, registers := (Vector.replicate 16 0).set 3 246 }

theorem execute_footprint_digits :
    ∃ n, (execute (.storeDigits (Nibble.ofNat 3))).on countingAtEnd = (.ok .quiet, n) ∧
      n.memory.byteAt 0xFFC = 0 ∧ n.memory.byteAt 0xFFD = 2 ∧ n.memory.byteAt 0xFFE = 4 ∧
      n.memory.byteAt 0xFFF = 6 := by
  obtain ⟨n, hn⟩ : ∃ n, (execute (.storeDigits (Nibble.ofNat 3))).on countingAtEnd =
    (.ok .quiet, n) := ⟨_, rfl⟩
  obtain ⟨hsame, ⟨-, hle, hsum⟩, -⟩ := execute_footprint hn
  have hbefore : n.memory.byteAt 0xFFC = 0 := by
    have houtside : Part.cell 0xFFC ∉ Part.cells 0xFFD 3 := by
      rintro ⟨k, -, he⟩
      have := Part.cell.inj he
      omega
    have hkept : n.memory.byteAt 0xFFC = Memory.blank.byteAt 0xFFC := hsame _ houtside
    rw [hkept, Memory.byteAt_of_lt _ (by omega), Memory.getElem_blank]
  have h0 : n.memory.byteAt 0xFFD ≤ 9 := hle 0 (by decide)
  have h1 : n.memory.byteAt 0xFFE ≤ 9 := hle 1 (by decide)
  have h2 : n.memory.byteAt 0xFFF ≤ 9 := hle 2 (by decide)
  change 100 * (n.memory.byteAt 0xFFD).toNat + 10 * (n.memory.byteAt 0xFFE).toNat +
    (n.memory.byteAt 0xFFF).toNat = 246 at hsum
  rw [UInt8.le_iff_toNat_le] at h0 h1 h2
  change _ ≤ 9 at h0 h1 h2
  refine ⟨n, hn, hbefore, ?_, ?_, ?_⟩ <;> apply UInt8.toNat_inj.mp
  · change _ = 2
    omega
  · change _ = 4
    omega
  · change _ = 6
    omega

end Machine
end Chip8
