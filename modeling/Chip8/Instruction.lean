import Chip8.Alu
import Chip8.Word

/-!
# Instructions

The instructions of the machine with operands that are in range by their types. An instruction that
can skip its successor carries a condition; the conditions come in complementary pairs.
-/
namespace Chip8

/-- When a skip is taken. -/
inductive Condition where
  | equal (x : Register) (kk : UInt8)
  | unequal (x : Register) (kk : UInt8)
  | same (x y : Register)
  | different (x y : Register)
  /-- The key that the register names is held down. -/
  | held (x : Register)
  | released (x : Register)
  deriving DecidableEq, Repr

/-- The other member of a condition's pair, with the same operands. -/
def Condition.negate : Condition → Condition
  | equal x kk => unequal x kk
  | unequal x kk => equal x kk
  | same x y => different x y
  | different x y => same x y
  | held x => released x
  | released x => held x

theorem Condition.negate_negate (c : Condition) : c.negate.negate = c := by
  cases c <;> rfl

inductive Instruction where
  | clear
  /-- Goes back behind the last open call. -/
  | ret
  | jump (target : Address)
  | call (target : Address)
  | skip (condition : Condition)
  | load (x : Register) (kk : UInt8)
  | add (x : Register) (kk : UInt8)
  | arithmetic (operation : Alu.Operation) (x y : Register)
  | loadIndex (a : Address)
  /-- Jumps as far behind an address as the first register says. -/
  | jumpOffset (base : Address)
  | random (x : Register) (mask : UInt8)
  /-- Draws the sprite of the given number of rows that the index register points to. -/
  | draw (x y : Register) (rows : Nibble)
  | readDelay (x : Register)
  | awaitKey (x : Register)
  | setDelay (x : Register)
  | setSound (x : Register)
  | addIndex (x : Register)
  | loadGlyph (x : Register)
  | storeDigits (x : Register)
  | storeRegisters (last : Register)
  | fillRegisters (last : Register)
  deriving DecidableEq, Repr

end Chip8
