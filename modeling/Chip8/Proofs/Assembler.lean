import Mathlib.Data.List.FinRange
import Chip8.Hex.Lemmas
import Chip8.Instruction.Assembly
import Chip8.Proofs.WordForms

/-!
# Reading assembly text

An assembler for the lines that instructions are written as. A name belongs to several forms of
instructions, so the operands have to tell them apart: every operand is read back from its text, and
no two forms of a name have the same kinds of operands. So a line stands for one word.
-/
namespace Chip8

namespace Hex

/-- The value of a figure. -/
def figure? (c : Char) : Option Nibble := (List.finRange 16).find? fun d => digit d = c

/-- The number that some figures stand for, the most significant one first. -/
def number? (figures : List Char) : Option Nat :=
  figures.foldlM (fun n c => (figure? c).map fun d => 16 * n + d) 0

theorem figure?_digit (d : Nibble) : figure? (digit d) = some d := by
  revert d
  decide

theorem number?_fixed (width n : Nat) : number? (fixed width n) = some (n % 16 ^ width) := by
  induction width generalizing n with
  | zero => simp [number?, fixed, Nat.mod_one]
  | succ width ih =>
    have hsplit : n % 16 ^ (width + 1) = n % 16 + 16 * (n / 16 % 16 ^ width) := by
      rw [Nat.pow_succ, Nat.mul_comm, Nat.mod_mul]
    rw [number?, fixed, List.foldlM_append, ← number?, ih]
    simp [figure?_digit, hsplit, Nat.add_comm]

end Hex

namespace Operand

/-- The operand that is written as a text, if there is one. -/
def ofChars? : List Char → Option Operand
  | ['I'] => some index
  | ['[', 'I', ']'] => some memory
  | ['D', 'T'] => some delay
  | ['S', 'T'] => some sound
  | ['K'] => some key
  | ['F'] => some glyph
  | ['B'] => some digits
  | ['V', c] => (Hex.figure? c).map register
  | '0' :: 'x' :: figures =>
    match figures.length with
    | 2 => (Hex.number? figures).map fun n => byte (UInt8.ofNat n)
    | 3 => (Hex.number? figures).map fun n => address (Fin.ofNat 4096 n)
    | _ => none
  | figures => ((List.finRange 16).find? fun n => (toString n.val).toList = figures).map rows

theorem ofChars?_text (o : Operand) : ofChars? o.text.toList = some o := by
  cases o with
  | register x =>
    have hx : (register x).text.toList = ['V', Hex.digit x] := by simp [text]
    rw [hx, ofChars?, Hex.figure?_digit, Option.map_some]
  | byte kk =>
    have hlt : kk.toNat < 16 ^ 2 := kk.toNat_lt
    rw [text, Hex.toList_literal (by decide) hlt, ofChars?, Hex.length_fixed, Hex.number?_fixed,
      Nat.mod_eq_of_lt hlt]
    simp
  | address a =>
    have hlt : a.val < 16 ^ 3 := a.isLt
    rw [text, Hex.toList_literal (by decide) hlt, ofChars?, Hex.length_fixed, Hex.number?_fixed,
      Nat.mod_eq_of_lt hlt]
    simp
  | rows n => revert n; decide
  | _ => rfl

/-- The two characters that stand around operands stand in none. -/
theorem not_mem_text {c : Char} (hc : c = ' ' ∨ c = ',') (o : Operand) : c ∉ o.text.toList := by
  have hdigit : ∀ d, Hex.digit d ≠ c := by rcases hc with rfl | rfl <;> decide
  have hx : c ≠ 'x' := by rcases hc with rfl | rfl <;> decide
  cases o with
  | register x =>
    have hv : c ≠ 'V' := by rcases hc with rfl | rfl <;> decide
    simp [text, hv, (hdigit x).symm]
  | byte kk => exact Hex.not_mem_literal hdigit hx 2 kk.toNat
  | address a => exact Hex.not_mem_literal hdigit hx 3 a
  | rows n => rcases hc with rfl | rfl <;> revert n <;> decide
  | _ => rcases hc with rfl | rfl <;> decide

end Operand

namespace Instruction

/-! ## Lines -/

/-- The parts of a line, without the commas between the operands. -/
def parts (line : String) : List (List Char) := (line.toList.filter (· ≠ ',')).splitOn ' '

theorem filter_of_not_mem {l : List Char} (h : ',' ∉ l) : l.filter (· ≠ ',') = l :=
  List.filter_eq_self.mpr fun _ hc => decide_eq_true fun he => h (he ▸ hc)

/-- Where no text has a comma in it, blanks are left between them. -/
theorem filter_intercalate {ls : List (List Char)} (h : ∀ l ∈ ls, ',' ∉ l) :
    ([',', ' '].intercalate ls).filter (· ≠ ',') = [' '].intercalate ls := by
  induction ls with
  | nil => rfl
  | cons l ls ih =>
    obtain ⟨hl, hrest⟩ := List.forall_mem_cons.mp h
    cases ls with
    | nil => rw [List.intercalate_singleton, List.intercalate_singleton, filter_of_not_mem hl]
    | cons l' ls =>
      rw [List.intercalate_cons_cons, List.intercalate_cons_cons, List.filter_append,
        List.filter_append, filter_of_not_mem hl, ih hrest]
      rfl

/-! ## Forms -/

/-- The instruction of a name with some operands, if there is one. -/
def ofParts? : String → List Operand → Option Instruction
  | "CLS", [] => some clear
  | "RET", [] => some ret
  | "JP", [.address a] => some (jump a)
  | "JP", [.register x, .address a] => if x.val = 0 then some (jumpOffset a) else none
  | "CALL", [.address a] => some (call a)
  | "SE", [.register x, .byte kk] => some (skip (.equal x kk))
  | "SE", [.register x, .register y] => some (skip (.same x y))
  | "SNE", [.register x, .byte kk] => some (skip (.unequal x kk))
  | "SNE", [.register x, .register y] => some (skip (.different x y))
  | "SKP", [.register x] => some (skip (.held x))
  | "SKNP", [.register x] => some (skip (.released x))
  | "ADD", [.register x, .byte kk] => some (add x kk)
  | "ADD", [.register x, .register y] => some (arithmetic .add x y)
  | "ADD", [.index, .register x] => some (addIndex x)
  | "OR", [.register x, .register y] => some (arithmetic .or x y)
  | "AND", [.register x, .register y] => some (arithmetic .and x y)
  | "XOR", [.register x, .register y] => some (arithmetic .xor x y)
  | "SUB", [.register x, .register y] => some (arithmetic .sub x y)
  | "SHR", [.register x, .register y] => some (arithmetic .shiftRight x y)
  | "SUBN", [.register x, .register y] => some (arithmetic .subFrom x y)
  | "SHL", [.register x, .register y] => some (arithmetic .shiftLeft x y)
  | "RND", [.register x, .byte mask] => some (random x mask)
  | "DRW", [.register x, .register y, .rows n] => some (draw x y n)
  | "LD", [.register x, .byte kk] => some (load x kk)
  | "LD", [.register x, .register y] => some (arithmetic .assign x y)
  | "LD", [.index, .address a] => some (loadIndex a)
  | "LD", [.register x, .delay] => some (readDelay x)
  | "LD", [.register x, .key] => some (awaitKey x)
  | "LD", [.delay, .register x] => some (setDelay x)
  | "LD", [.sound, .register x] => some (setSound x)
  | "LD", [.glyph, .register x] => some (loadGlyph x)
  | "LD", [.digits, .register x] => some (storeDigits x)
  | "LD", [.memory, .register x] => some (storeRegisters x)
  | "LD", [.register x, .memory] => some (fillRegisters x)
  | _, _ => none

theorem ofParts?_operands (i : Instruction) : ofParts? i.name i.operands = some i := by
  cases i with
  | skip c => cases c <;> rfl
  | arithmetic op x y => cases op <;> rfl
  | _ => rfl

theorem not_mem_name {c : Char} (hc : c = ' ' ∨ c = ',') (i : Instruction) :
    c ∉ i.name.toList := by
  cases i with
  | skip condition => cases condition <;> rcases hc with rfl | rfl <;> simp [name, Condition.name]
  | arithmetic op => cases op <;> rcases hc with rfl | rfl <;> simp [name, Alu.Operation.name]
  | _ => rcases hc with rfl | rfl <;> simp [name]

/-- A line falls into the name and the operands of its instruction. -/
theorem parts_assembly (i : Instruction) :
    parts i.assembly = i.name.toList :: i.operands.map (·.text.toList) := by
  have hblank : ∀ l ∈ i.name.toList :: i.operands.map (·.text.toList), ' ' ∉ l :=
    List.forall_mem_cons.mpr ⟨not_mem_name (.inl rfl) i,
      List.forall_mem_map.mpr fun o _ => Operand.not_mem_text (.inl rfl) o⟩
  have hcomma : ∀ l ∈ i.operands.map (·.text.toList), ',' ∉ l :=
    List.forall_mem_map.mpr fun o _ => Operand.not_mem_text (.inr rfl) o
  have hname := filter_of_not_mem (not_mem_name (.inr rfl) i)
  have hline : i.assembly.toList.filter (· ≠ ',') =
      [' '].intercalate (i.name.toList :: i.operands.map (·.text.toList)) := by
    rw [assembly]
    split
    case h_1 hnone => rw [hnone, hname, List.map_nil, List.intercalate_singleton]
    case h_2 hsome =>
      have hne : i.operands.map (·.text.toList) ≠ [] := mt List.map_eq_nil_iff.mp hsome
      have hgaps := filter_intercalate hcomma
      rw [String.toList_append, String.toList_append, String.toList_intercalate, List.map_map,
        List.filter_append, List.filter_append, hname, List.intercalate_cons_of_ne_nil hne, ← hgaps]
      rfl
  rw [parts, hline, List.splitOn_intercalate ' ' hblank (List.cons_ne_nil _ _)]

/-- The instruction that is written as a line, if there is one. -/
def read? (line : String) : Option Instruction :=
  match parts line with
  | [] => none
  | name :: operands => do
    let i ← ofParts? (String.ofList name) (← operands.mapM Operand.ofChars?)
    if i.assembly = line then some i else none

/-- The word that a line stands for. -/
def assemble? (line : String) : Option UInt16 := (read? line).map toWord

/-- An instruction is read back from its line. -/
theorem read?_assembly (i : Instruction) : read? i.assembly = some i := by
  have hoperands : (i.operands.map (·.text.toList)).mapM Operand.ofChars? = some i.operands := by
    have hread : Operand.ofChars? ∘ (·.text.toList) = pure := funext Operand.ofChars?_text
    rw [List.mapM_map, hread]
    exact List.mapM_pure.trans (congrArg some (List.map_id _))
  rw [read?, parts_assembly]
  simp [hoperands, ofParts?_operands]

theorem assembly_of_read? {line : String} {i : Instruction} (h : read? line = some i) :
    i.assembly = line := by
  rw [read?] at h
  split at h
  · cases h
  · simp only [Option.bind_eq_bind, Option.bind_eq_some_iff] at h
    obtain ⟨operands, -, j, -, hj⟩ := h
    split at hj
    · rename_i hline
      cases hj
      exact hline
    · cases hj

theorem assembly_injective : Function.Injective assembly := fun i j h =>
  Option.some.inj ((read?_assembly i).symm.trans (h ▸ read?_assembly j))

/-- No two words are written as one line. An assembler takes just these lines, and each back to its
word. -/
theorem assembly_unambiguous :
    (∀ (w v : UInt16) (i j : Instruction), decode w = .ok i → decode v = .ok j →
      i.assembly = j.assembly → w = v) ∧
    ∀ (line : String) (w : UInt16),
      assemble? line = some w ↔ ∃ i, decode w = .ok i ∧ i.assembly = line := by
  simp only [decode_eq_ok_iff, ofWord?_eq_some_iff]
  constructor
  · rintro w v i j rfl rfl hline
    rw [assembly_injective hline]
  · intro line w
    rw [assemble?, Option.map_eq_some_iff]
    constructor
    · rintro ⟨i, hread, rfl⟩
      exact ⟨i, rfl, assembly_of_read? hread⟩
    · rintro ⟨i, rfl, rfl⟩
      exact ⟨i, read?_assembly i, rfl⟩

/-- A line may have the letter of the decimal digits in it, and the figure of a register. -/
theorem assembly_unambiguous_digits :
    assemble? "LD B, VB" = some 0xFB33 ∧ assemble? "LD VB, VB" = some 0x8BB0 ∧
      (storeDigits (Nibble.ofNat 0xB)).assembly ≠
        (arithmetic .assign (Nibble.ofNat 0xB) (Nibble.ofNat 0xB)).assembly := by
  refine ⟨(assembly_unambiguous.2 _ _).mpr ⟨storeDigits (Nibble.ofNat 0xB), rfl, by decide⟩,
    (assembly_unambiguous.2 _ _).mpr
      ⟨arithmetic .assign (Nibble.ofNat 0xB) (Nibble.ofNat 0xB), rfl, by decide⟩, fun hline => ?_⟩
  have hword := assembly_unambiguous.1 0xFB33 0x8BB0 _ _ rfl rfl hline
  exact absurd hword (by decide)

end Instruction
end Chip8
