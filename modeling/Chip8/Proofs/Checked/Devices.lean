import Chip8.Machine.Execute
import Chip8.Proofs.Checked.Operations
import Mathlib.Data.Nat.Bitwise

/-!
# Keys, pixels and bytes with checked operations

The parts that work on the keypad, the screen and single bytes. Key numbers and coordinates may be
any numbers, as they wrap around first; a sprite is so small that no coordinate in it leaves a
machine word.
-/
namespace Chip8

structure RawKeypad where
  held : Vector Bool 16
  pressed : Option Nat

def Keypad.raw (k : Keypad) : RawKeypad := ⟨k.held, k.pressed.map Fin.val⟩

namespace Checked

/-! ## Keys -/

def isHeld (k : RawKeypad) (number : Nat) : Option Bool := do
  let key ← rem number Keypad.size
  lookup k.held key

def setKey (k : RawKeypad) (number : Nat) (down : Bool) : Option RawKeypad := do
  let key ← rem number Keypad.size
  let was ← lookup k.held key
  let held ← replace k.held key down
  return ⟨held, if down && !was then some key else k.pressed⟩

def toggleKey (k : RawKeypad) (number : Nat) : Option RawKeypad := do
  let was ← isHeld k number
  setKey k number (!was)

def setKeys (k : RawKeypad) (keys : Vector Bool 16) : Option RawKeypad :=
  keys.toList.zipIdx.foldlM (fun k (down, number) => setKey k number down) k

theorem key_of_rem (number : Nat) : rem number Keypad.size = some (Keypad.key number).val :=
  rem_of_pos (by decide)

theorem isHeld_raw (k : Keypad) (number : Nat) :
    isHeld k.raw number = some (k.isHeld number) := by
  rw [isHeld, key_of_rem, Option.bind_eq_bind, Option.bind_some]
  exact lookup_of_fin k.held (Keypad.key number)

theorem setKey_raw (k : Keypad) (number : Nat) (down : Bool) :
    setKey k.raw number down = some (k.set number down).raw := by
  have hwas : lookup k.raw.held (Keypad.key number) = some (k.isHeld number) :=
    lookup_of_fin k.held (Keypad.key number)
  simp only [setKey, key_of_rem, Option.bind_eq_bind, Option.bind_some, hwas, replace_of_fin]
  cases hpress : down && !k.isHeld number <;> simp only [Keypad.set, hpress] <;> rfl

theorem toggleKey_raw (k : Keypad) (number : Nat) :
    toggleKey k.raw number = some (k.toggle number).raw := by
  rw [toggleKey, isHeld_raw, Option.bind_eq_bind, Option.bind_some, setKey_raw, Keypad.toggle]

theorem setKeys_raw (k : Keypad) (keys : Vector Bool 16) :
    setKeys k.raw keys = some (k.setAll keys).raw := by
  have hfold (l : List Key) (k : Keypad) :
      l.foldlM (fun k i => setKey k i.val (keys.get i)) k.raw =
        some (l.foldl (fun k i => k.set i (keys.get i)) k).raw := by
    induction l generalizing k with
    | nil => rfl
    | cons i l ih => rw [List.foldlM_cons, setKey_raw, Option.bind_eq_bind, Option.bind_some, ih,
        List.foldl_cons]
  rw [setKeys, zipIdx_toList, List.foldlM_map]
  exact hfold (List.finRange 16) k

/-! ## Pixels -/

/-- The word of a row in which just one pixel is lit. -/
def pixel (x : Nat) : Option (BitVec 64) := do
  let column ← rem x Screen.width
  let last ← sub Screen.width 1
  let place ← sub last column
  let word ← shiftLeft 64 1 place
  return BitVec.ofNat 64 word

/-- Toggles a pixel and tells whether it was lit. -/
def toggle (s : Screen) (x y : Nat) : Option (Bool × Screen) := do
  let line ← rem y Screen.height
  let row ← lookup s.rows line
  let mask ← pixel x
  let rows ← replace s.rows line (row ^^^ mask)
  return (row &&& mask == mask, ⟨rows⟩)

/-- Toggles the pixel that a bit in a row of a sprite stands for, if the bit is set. -/
def drawBit (x y : Nat) (row : UInt8) (i : Nat) (drawn : Bool × Screen) (j : Nat) :
    Option (Bool × Screen) := do
  let mask ← shiftRight 8 0x80 j
  if row.toNat &&& mask = 0 then return drawn
  let column ← add 64 x j
  let line ← add 64 y i
  let (lit, screen) ← toggle drawn.2 column line
  return (drawn.1 || lit, screen)

def drawSprite (s : Screen) (sprite : List UInt8) (x y : Nat) : Option (Bool × Screen) :=
  sprite.zipIdx.foldlM
    (fun drawn (row, i) => (List.range Sprite.width).foldlM (drawBit x y row i) drawn) (false, s)

theorem pixel_eq (x : Nat) : pixel x = some (Screen.pixel x) := by
  have hx := Nat.mod_lt x (show 0 < 64 by decide)
  have hplace : 63 - x % 64 < 64 := by omega
  have hword : (1 <<< (63 - x % 64)) % 2 ^ 64 = 2 ^ (63 - x % 64) := by
    rw [Nat.one_shiftLeft, Nat.mod_eq_of_lt (Nat.pow_lt_pow_right (by decide) hplace)]
  rw [pixel, rem_of_pos (show 0 < Screen.width by decide), Option.bind_eq_bind, Option.bind_some,
    sub_of_le (show 1 ≤ Screen.width by decide), Option.bind_some,
    sub_of_le (show x % Screen.width ≤ Screen.width - 1 by unfold Screen.width; omega),
    Option.bind_some]
  change ((shiftLeft 64 1 (63 - x % 64)).bind fun word => some (BitVec.ofNat 64 word)) = _
  rw [shiftLeft_of_lt hplace, Option.bind_some, hword, Screen.pixel]
  congr 1
  apply BitVec.eq_of_toNat_eq
  simp

theorem lit_eq (row : BitVec 64) (x : Nat) :
    (row &&& Screen.pixel x == Screen.pixel x) = row.getMsbD (x % 64) := by
  have hx := Nat.mod_lt x (show 0 < 64 by decide)
  have hbit : row.getMsbD (x % 64) = row.getLsbD (63 - x % 64) := by
    rw [BitVec.getMsbD, decide_eq_true hx, Bool.true_and]
  rw [hbit, Screen.pixel, BitVec.and_twoPow]
  cases row.getLsbD (63 - x % 64) with
  | true => exact beq_self_eq_true _
  | false =>
    have hne : (0#64) ≠ BitVec.twoPow 64 (63 - x % 64) := by
      intro h
      have := congrArg (·.getLsbD (63 - x % 64)) h
      simp at this
      omega
    exact beq_false_of_ne hne

theorem toggle_eq (s : Screen) (x y : Nat) : toggle s x y = some (s.isLit x y, s.toggle x y) := by
  have hline : rem y Screen.height = some (Screen.line y).val := rem_of_pos (by decide)
  simp only [toggle, hline, Option.bind_eq_bind, Option.bind_some, lookup_of_fin, pixel_eq,
    replace_of_fin, lit_eq]
  rfl

/-- A bit of a row, found with a mask. -/
theorem bit_eq (row : UInt8) {j : Nat} (hj : j < 8) :
    row.toNat &&& (0x80 >>> j) = 0 ↔ row.toBitVec.getMsbD j = false := by
  have hmask : 0x80 >>> j = 2 ^ (7 - j) := by
    rw [Nat.shiftRight_eq_div_pow, show 0x80 = 2 ^ 7 from rfl,
      Nat.pow_div (by omega) (by decide)]
  have hbit : row.toBitVec.getMsbD j = row.toNat.testBit (7 - j) := by
    rw [BitVec.getMsbD, decide_eq_true hj, Bool.true_and]
    rfl
  rw [hmask, hbit, Nat.and_two_pow]
  cases row.toNat.testBit (7 - j) <;> simp

theorem drawBit_eq {x y i j : Nat} (row : UInt8) (drawn : Bool × Screen) (hj : j < Sprite.width)
    (hx : x + j < 2 ^ 64) (hy : y + i < 2 ^ 64) :
    drawBit x y row i drawn j = some (if row.toBitVec.getMsbD j then
      (drawn.1 || drawn.2.isLit (x + j) (y + i), drawn.2.toggle (x + j) (y + i)) else drawn) := by
  rw [drawBit, shiftRight_of_lt (show j < 8 from hj), Option.bind_eq_bind, Option.bind_some]
  cases hbit : row.toBitVec.getMsbD j with
  | false =>
    rw [if_pos ((bit_eq row hj).mpr hbit)]
    rfl
  | true =>
    have hset : ¬ row.toNat &&& (0x80 >>> j) = 0 := fun h => by
      rw [bit_eq row hj, hbit] at h
      cases h
    rw [if_neg hset, add_of_lt hx, Option.bind_eq_bind, Option.bind_some, add_of_lt hy,
      Option.bind_some, toggle_eq]
    rfl

theorem drawSprite_eq (s : Screen) (sprite : List UInt8) {x y : Nat} (hx : x < 256) (hy : y < 256)
    (hl : sprite.length ≤ 256) :
    drawSprite s sprite x y = some (s.toggleAll (Sprite.pixels sprite x y)) := by
  have hrow : ∀ p ∈ sprite.zipIdx, ∀ drawn : Bool × Screen,
      (List.range Sprite.width).foldlM (drawBit x y p.1 p.2) drawn =
        some ((Sprite.columns p.1).foldl (fun drawn j =>
          (drawn.1 || drawn.2.isLit (x + j) (y + p.2), drawn.2.toggle (x + j) (y + p.2))) drawn) := by
    intro p hp drawn
    have hi : p.2 < sprite.length := by
      have := List.snd_lt_of_mem_zipIdx hp
      omega
    refine foldlM_of_filter (fun j hj drawn => ?_) drawn
    have hj : j < Sprite.width := List.mem_range.mp hj
    have : Sprite.width < 256 := by decide
    exact drawBit_eq p.1 drawn hj (by omega) (by omega)
  refine (foldlM_of_forall hrow (false, s)).trans ?_
  rw [Screen.toggleAll, Sprite.pixels, List.foldl_flatMap]
  simp only [List.foldl_map]

/-! ## Bytes -/

/-- The result of an operation and its flag. -/
def operate : Alu.Operation → UInt8 → UInt8 → Option (UInt8 × Option UInt8)
  | .assign, _, b => some (b, none)
  | .or, a, b => some (a ||| b, none)
  | .and, a, b => some (a &&& b, none)
  | .xor, a, b => some (a ^^^ b, none)
  | .add, a, b => some (a + b, some (Bool.toUInt8 (256 ≤ a.toNat + b.toNat)))
  | .sub, a, b => some (a - b, some (Bool.toUInt8 (b ≤ a)))
  | .shiftRight, a, _ => do
    let result ← shiftRight 8 a.toNat 1
    return (UInt8.ofNat result, some (a &&& 1))
  | .subFrom, a, b => some (b - a, some (Bool.toUInt8 (a ≤ b)))
  | .shiftLeft, a, _ => do
    let result ← shiftLeft 8 a.toNat 1
    let lost ← shiftRight 8 a.toNat 7
    return (UInt8.ofNat result, some (UInt8.ofNat lost))

/-- The place of a picture in the memory. -/
def glyph (digit : UInt8) : Option UInt16 := do
  let offset ← mul 64 digit.toNat Font.glyphSize
  let place ← add 64 Font.location offset
  let index ← narrow 16 place
  return UInt16.ofNat index

def digits (value : UInt8) : Option (List UInt8) := do
  let hundreds ← div value.toNat 100
  let rest ← div value.toNat 10
  let tens ← rem rest 10
  let ones ← rem value.toNat 10
  return [hundreds, tens, ones].map UInt8.ofNat

theorem ofNat_eq_of_toNat {n : Nat} {a : UInt8} (h : n = a.toNat) : UInt8.ofNat n = a := by
  rw [h, UInt8.ofNat_toNat]

/-- The result and the flag of an operation. -/
theorem operate_eq (op : Alu.Operation) (a b : UInt8) :
    operate op a b = some (op.result a b, (op.flag? a b).map Bool.toUInt8) := by
  have ha := a.toNat_lt
  cases op with
  | shiftRight =>
    have hresult : UInt8.ofNat (a.toNat >>> 1) = a >>> 1 := ofNat_eq_of_toNat rfl
    have hflag : a &&& 1 = Bool.toUInt8 (a.toNat % 2 = 1) := by
      apply UInt8.toNat_inj.mp
      rw [UInt8.toNat_and, show (1 : UInt8).toNat = 1 from rfl, Nat.and_one_is_mod]
      rcases Nat.mod_two_eq_zero_or_one a.toNat with h | h <;> rw [h] <;> rfl
    rw [operate, shiftRight_of_lt (by decide), Option.bind_eq_bind, Option.bind_some, hresult, hflag]
    rfl
  | shiftLeft =>
    have hresult : UInt8.ofNat ((a.toNat <<< 1) % 2 ^ 8) = a <<< 1 :=
      ofNat_eq_of_toNat (UInt8.toNat_shiftLeft a 1).symm
    have hflag : UInt8.ofNat (a.toNat >>> 7) = Bool.toUInt8 (128 ≤ a.toNat) := by
      rw [Nat.shiftRight_eq_div_pow]
      rcases Nat.lt_or_ge a.toNat 128 with h | h
      · rw [Nat.div_eq_of_lt h, decide_eq_false (by omega)]
        rfl
      · rw [show a.toNat / 2 ^ 7 = 1 by omega, decide_eq_true h]
        rfl
    rw [operate, shiftLeft_of_lt (by decide), Option.bind_eq_bind, Option.bind_some,
      shiftRight_of_lt (by decide), Option.bind_some, hresult, hflag]
    rfl
  | _ => rfl

theorem glyph_eq (digit : UInt8) : glyph digit = some (Font.glyph digit) := by
  have hd := digit.toNat_lt
  have hoffset : digit.toNat * Font.glyphSize < 2 ^ 16 := by unfold Font.glyphSize; omega
  have hplace : Font.location + digit.toNat * Font.glyphSize < 2 ^ 16 := by
    unfold Font.location
    omega
  rw [glyph, mul_of_lt (Nat.lt_trans hoffset (by decide)), Option.bind_eq_bind, Option.bind_some,
    add_of_lt (Nat.lt_trans hplace (by decide)), Option.bind_some, narrow_of_lt hplace,
    Option.bind_some]
  rfl

theorem digits_eq (value : UInt8) : digits value = some (Machine.decimalDigits value) := by
  have hhundreds : UInt8.ofNat (value.toNat / 100) = value / 100 := ofNat_eq_of_toNat rfl
  have htens : UInt8.ofNat (value.toNat / 10 % 10) = value / 10 % 10 := ofNat_eq_of_toNat rfl
  have hones : UInt8.ofNat (value.toNat % 10) = value % 10 := ofNat_eq_of_toNat rfl
  rw [digits, div_of_pos (by decide), Option.bind_eq_bind, Option.bind_some,
    div_of_pos (by decide), Option.bind_some, rem_of_pos (by decide), Option.bind_some,
    rem_of_pos (by decide), Option.bind_some]
  simp only [List.map_cons, List.map_nil, hhundreds, htens, hones]
  rfl

end Checked
end Chip8
