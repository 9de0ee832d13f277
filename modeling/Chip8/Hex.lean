import Chip8.Nibble

/-!
# Hexadecimal text

Numbers are written in base sixteen with upper-case digits. `fixed` writes exactly the low digits
that fit a width; `atLeast` pads with zeros up to a width and never drops a digit.
-/
namespace Chip8.Hex

/-- The digits are the figures zero to nine and then the letters A to F. -/
def digit (d : Nibble) : Char :=
  Char.ofNat (if d.val < 10 then 48 + d.val else 55 + d.val)

/-- The low `width` digits of a number, the most significant one first. -/
def fixed : Nat → Nat → List Char
  | 0, _ => []
  | width + 1, n => fixed width (n / 16) ++ [digit (Nibble.ofNat n)]

/-- How many digits a number has; zero has one. -/
def count (n : Nat) : Nat := n.log2 / 4 + 1

/-- All digits of a number, padded with zeros to at least `width` of them. -/
def atLeast (width n : Nat) : List Char := fixed (max width (count n)) n

/-- A number as a literal of the assembly language: `0x` and at least `width` digits. -/
def literal (width n : Nat) : String := String.ofList ('0' :: 'x' :: atLeast width n)

theorem digit_injective {c d : Nibble} (h : digit c = digit d) : c = d := by
  revert c d; decide

theorem length_fixed (width n : Nat) : (fixed width n).length = width := by
  induction width generalizing n with
  | zero => rfl
  | succ width ih => simp [fixed, ih]

end Chip8.Hex
