import Chip8.Fault

/-!
# Instruction words

A word is two bytes, the high one first. Its four digits are read as a family, register numbers and
a constant; the fields are disjoint, so a word is known from its family and the fields below it.
-/
namespace Chip8

/-- The number of one of the sixteen general registers. -/
abbrev Register := Nibble

/-- A twelve-bit address, as instructions carry it. -/
abbrev Address := Fin 4096

namespace Word

def size : Nat := 2

def ofBytes (high low : UInt8) : UInt16 := UInt16.ofNat (256 * high.toNat + low.toNat)

/-- The word at a position of some bytes. Both of its bytes have to be there. -/
def readAt (data : List UInt8) (position : Nat) : Except Fault UInt16 :=
  match data[position]?, data[position + 1]? with
  | some high, some low => .ok (ofBytes high low)
  | _, _ => .error (.outOfRange position size data.length)

/-- The first digit. -/
def family (w : UInt16) : Nat := w.toNat / 4096

/-- The last three digits. -/
def address (w : UInt16) : Address := ⟨w.toNat % 4096, Nat.mod_lt _ (by decide)⟩

/-- The second digit. -/
def x (w : UInt16) : Register := Nibble.ofNat (w.toNat / 256)

/-- The third digit. -/
def y (w : UInt16) : Register := Nibble.ofNat (w.toNat / 16)

/-- The last digit. -/
def n (w : UInt16) : Nibble := Nibble.ofNat w.toNat

/-- The last two digits. -/
def byte (w : UInt16) : UInt8 := UInt8.ofNat w.toNat

/-- The word with an address below its family. -/
def withAddress (family : Nat) (a : Address) : UInt16 := UInt16.ofNat (4096 * family + a)

/-- The word with a register and a byte below its family. -/
def withByte (family : Nat) (x : Register) (kk : UInt8) : UInt16 :=
  UInt16.ofNat (4096 * family + 256 * x + kk.toNat)

/-- The word with two registers and a last digit below its family. -/
def withDigits (family : Nat) (x y : Register) (n : Nat) : UInt16 :=
  UInt16.ofNat (4096 * family + 256 * x + 16 * y + n)

theorem toNat_ofBytes (high low : UInt8) :
    (ofBytes high low).toNat = 256 * high.toNat + low.toNat := by
  have := high.toNat_lt
  have := low.toNat_lt
  rw [ofBytes, UInt16.toNat_ofNat']
  omega

/-- A word is read where two bytes are left, and nowhere else. -/
theorem readAt_of_lt {data : List UInt8} {position : Nat} (h : position + 1 < data.length) :
    readAt data position = .ok (ofBytes data[position] data[position + 1]) := by
  simp [readAt, h, show position < data.length by omega]

theorem readAt_of_le {data : List UInt8} {position : Nat} (h : data.length ≤ position + 1) :
    readAt data position = .error (.outOfRange position size data.length) := by
  simp [readAt, List.getElem?_eq_none h]

end Word
end Chip8
