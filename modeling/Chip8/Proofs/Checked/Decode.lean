import Chip8.Instruction.Encoding
import Chip8.Proofs.Checked.Operations
import Chip8.Proofs.WordForms

/-!
# Instructions with bare operands

Decoding cuts the operands out of a word with masks and shifts, and nothing in their types keeps
them in range. What keeps them there is where they come from: the decoded instructions are those
with operands in range.
-/
namespace Chip8

inductive RawCondition where
  | equal (x : Nat) (kk : UInt8)
  | unequal (x : Nat) (kk : UInt8)
  | same (x y : Nat)
  | different (x y : Nat)
  | held (x : Nat)
  | released (x : Nat)

inductive RawInstruction where
  | clear
  | ret
  | jump (target : UInt16)
  | call (target : UInt16)
  | skip (condition : RawCondition)
  | load (x : Nat) (kk : UInt8)
  | add (x : Nat) (kk : UInt8)
  | arithmetic (operation : Alu.Operation) (x y : Nat)
  | loadIndex (a : UInt16)
  | jumpOffset (base : UInt16)
  | random (x : Nat) (mask : UInt8)
  | draw (x y rows : Nat)
  | readDelay (x : Nat)
  | awaitKey (x : Nat)
  | setDelay (x : Nat)
  | setSound (x : Nat)
  | addIndex (x : Nat)
  | loadGlyph (x : Nat)
  | storeDigits (x : Nat)
  | storeRegisters (last : Nat)
  | fillRegisters (last : Nat)

def Condition.raw : Condition → RawCondition
  | equal x kk => .equal x kk
  | unequal x kk => .unequal x kk
  | same x y => .same x y
  | different x y => .different x y
  | held x => .held x
  | released x => .released x

def Instruction.raw : Instruction → RawInstruction
  | clear => .clear
  | ret => .ret
  | jump a => .jump (UInt16.ofNat a)
  | call a => .call (UInt16.ofNat a)
  | skip c => .skip c.raw
  | load x kk => .load x kk
  | add x kk => .add x kk
  | arithmetic op x y => .arithmetic op x y
  | loadIndex a => .loadIndex (UInt16.ofNat a)
  | jumpOffset a => .jumpOffset (UInt16.ofNat a)
  | random x mask => .random x mask
  | draw x y rows => .draw x y rows
  | readDelay x => .readDelay x
  | awaitKey x => .awaitKey x
  | setDelay x => .setDelay x
  | setSound x => .setSound x
  | addIndex x => .addIndex x
  | loadGlyph x => .loadGlyph x
  | storeDigits x => .storeDigits x
  | storeRegisters last => .storeRegisters last
  | fillRegisters last => .fillRegisters last

namespace Checked

/-- The parts of a word. -/
structure Fields where
  family : Nat
  x : Nat
  y : Nat
  n : Nat
  kk : UInt8
  nnn : UInt16

def fields (w : UInt16) : Option Fields := do
  let family ← shiftRight 16 (w &&& 0xF000).toNat 12
  let x ← shiftRight 16 (w &&& 0x0FFF &&& 0xFF00).toNat 8
  let y ← shiftRight 16 (w &&& (0x00FF ^^^ 0x000F)).toNat 4
  return ⟨family, x, y, (w &&& 0x000F).toNat, (w &&& 0x00FF).toUInt8, w &&& 0x0FFF⟩

def unary? (x : Nat) (code : UInt8) : Option RawInstruction :=
  if code = 0x07 then some (.readDelay x)
  else if code = 0x0A then some (.awaitKey x)
  else if code = 0x15 then some (.setDelay x)
  else if code = 0x18 then some (.setSound x)
  else if code = 0x1E then some (.addIndex x)
  else if code = 0x29 then some (.loadGlyph x)
  else if code = 0x33 then some (.storeDigits x)
  else if code = 0x55 then some (.storeRegisters x)
  else if code = 0x65 then some (.fillRegisters x)
  else none

/-- The instruction with these parts, if there is one. -/
def Fields.instruction? (f : Fields) (w : UInt16) : Option RawInstruction :=
  match f.family with
  | 0x0 => if w = 0x00E0 then some .clear else if w = 0x00EE then some .ret else none
  | 0x1 => some (.jump f.nnn)
  | 0x2 => some (.call f.nnn)
  | 0x3 => some (.skip (.equal f.x f.kk))
  | 0x4 => some (.skip (.unequal f.x f.kk))
  | 0x5 => if f.n = 0 then some (.skip (.same f.x f.y)) else none
  | 0x6 => some (.load f.x f.kk)
  | 0x7 => some (.add f.x f.kk)
  | 0x8 => (Alu.Operation.ofCode? f.n).map fun op => .arithmetic op f.x f.y
  | 0x9 => if f.n = 0 then some (.skip (.different f.x f.y)) else none
  | 0xA => some (.loadIndex f.nnn)
  | 0xB => some (.jumpOffset f.nnn)
  | 0xC => some (.random f.x f.kk)
  | 0xD => some (.draw f.x f.y f.n)
  | 0xE =>
    if f.kk = 0x9E then some (.skip (.held f.x))
    else if f.kk = 0xA1 then some (.skip (.released f.x))
    else none
  | 0xF => unary? f.x f.kk
  | _ => none

def decode (w : UInt16) : Option (Except Fault RawInstruction) := do
  let f ← fields w
  return match f.instruction? w with
    | some i => .ok i
    | none => .error (.invalidOpcode w)

/-- A digit of a word that is cut out by its mask and shifted to the end. -/
theorem masked_shiftRight (w : UInt16) (mask : UInt16) {count : Nat}
    (hm : mask.toNat >>> count = 2 ^ 4 - 1) :
    (w &&& mask).toNat >>> count = w.toNat / 2 ^ count % 16 := by
  rw [UInt16.toNat_and, Nat.shiftRight_and_distrib, hm, Nat.and_two_pow_sub_one_eq_mod,
    Nat.shiftRight_eq_div_pow]

theorem fields_eq (w : UInt16) :
    fields w = some ⟨Word.family w, Word.x w, Word.y w, Word.n w, Word.byte w,
      UInt16.ofNat (Word.address w)⟩ := by
  have hw := w.toNat_lt
  have hfamily : (w &&& 0xF000).toNat >>> 12 = Word.family w := by
    rw [masked_shiftRight w _ (by decide), Word.family]
    omega
  have hx : (w &&& 0x0FFF &&& 0xFF00).toNat >>> 8 = Word.x w := by
    rw [UInt16.and_assoc, masked_shiftRight w _ (by decide)]
    rfl
  have hy : (w &&& (0x00FF ^^^ 0x000F)).toNat >>> 4 = Word.y w := by
    rw [masked_shiftRight w _ (by decide)]
    rfl
  have hn : (w &&& 0x000F).toNat = Word.n w := by
    rw [UInt16.toNat_and]
    exact Nat.and_two_pow_sub_one_eq_mod _ 4
  have hkk : (w &&& 0x00FF).toUInt8 = Word.byte w := by
    apply UInt8.toNat_inj.mp
    rw [UInt16.toNat_toUInt8, UInt16.toNat_and, show (0x00FF : UInt16).toNat = 2 ^ 8 - 1 from rfl,
      Nat.and_two_pow_sub_one_eq_mod, Word.byte, UInt8.toNat_ofNat', Nat.mod_mod]
  have hnnn : w &&& 0x0FFF = UInt16.ofNat (Word.address w) := by
    apply UInt16.toNat_inj.mp
    rw [UInt16.toNat_and, show (0x0FFF : UInt16).toNat = 2 ^ 12 - 1 from rfl,
      Nat.and_two_pow_sub_one_eq_mod, UInt16.toNat_ofNat', Word.address]
    change _ = w.toNat % 4096 % _
    omega
  simp only [fields, shiftRight_of_lt (show 12 < 16 by decide),
    shiftRight_of_lt (show 8 < 16 by decide), shiftRight_of_lt (show 4 < 16 by decide),
    Option.bind_eq_bind, Option.bind_some, hfamily, hx, hy, hn, hkk]
  rw [hnnn]
  rfl

/-- One instruction or another one, chosen in the same way on both sides. -/
theorem choice_raw {p : Prop} [Decidable p] (i : Instruction) {rest : Option RawInstruction}
    {other : Option Instruction} (h : rest = other.map Instruction.raw) :
    (if p then some i.raw else rest) = (if p then some i else other).map Instruction.raw := by
  split
  · rfl
  · exact h

theorem unary?_eq (x : Register) (code : UInt8) :
    unary? x code = (Instruction.ofUnary? x code).map Instruction.raw := by
  unfold unary? Instruction.ofUnary?
  refine choice_raw (.readDelay x) ?_
  refine choice_raw (.awaitKey x) ?_
  refine choice_raw (.setDelay x) ?_
  refine choice_raw (.setSound x) ?_
  refine choice_raw (.addIndex x) ?_
  refine choice_raw (.loadGlyph x) ?_
  refine choice_raw (.storeDigits x) ?_
  refine choice_raw (.storeRegisters x) ?_
  exact choice_raw (.fillRegisters x) rfl

theorem instruction?_eq (w : UInt16) :
    Fields.instruction? ⟨Word.family w, Word.x w, Word.y w, Word.n w, Word.byte w,
      UInt16.ofNat (Word.address w)⟩ w = (Instruction.ofWord? w).map Instruction.raw := by
  have hlt := Word.family_lt w
  unfold Fields.instruction? Instruction.ofWord?
  dsimp only
  generalize Word.family w = family at hlt
  match family, hlt with
  | 0x0, _ => exact choice_raw .clear (choice_raw .ret rfl)
  | 0x5, _ => exact choice_raw (.skip (.same (Word.x w) (Word.y w))) rfl
  | 0x8, _ => cases Alu.Operation.ofCode? (Word.n w) <;> rfl
  | 0x9, _ => exact choice_raw (.skip (.different (Word.x w) (Word.y w))) rfl
  | 0xE, _ =>
    exact choice_raw (.skip (.held (Word.x w))) (choice_raw (.skip (.released (Word.x w))) rfl)
  | 0xF, _ => exact unary?_eq (Word.x w) (Word.byte w)
  | 0x1, _ | 0x2, _ | 0x3, _ | 0x4, _ | 0x6, _ | 0x7, _ | 0xA, _ | 0xB, _ | 0xC, _ | 0xD, _ => rfl
  | family + 16, h => omega

/-- Decoding is defined for every word and finds the instructions whose operands are in range. -/
theorem decode_eq (w : UInt16) : decode w = some ((Instruction.decode w).map Instruction.raw) := by
  rw [decode, fields_eq, Option.bind_eq_bind, Option.bind_some, instruction?_eq, Instruction.decode]
  cases Instruction.ofWord? w <;> rfl

end Checked
end Chip8
