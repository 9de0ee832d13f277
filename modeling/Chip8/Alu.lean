/-!
# Register arithmetic

The nine operations on a pair of bytes. Each has a result; five also have a flag, which tells what
the result lost: the carry of a sum, the borrow of a difference, the bit that a shift drops.
-/
namespace Chip8.Alu

/-- An operation on two registers. `subFrom` is the difference the other way round. -/
inductive Operation where
  | assign | or | and | xor | add | sub | shiftRight | subFrom | shiftLeft
  deriving DecidableEq, Repr

namespace Operation

/-- The byte left in the first register, from the bytes of the first and the second one. -/
def result : Operation → UInt8 → UInt8 → UInt8
  | assign, _, b => b
  | or, a, b => a ||| b
  | and, a, b => a &&& b
  | xor, a, b => a ^^^ b
  | add, a, b => a + b
  | sub, a, b => a - b
  | shiftRight, a, _ => a >>> 1
  | subFrom, a, b => b - a
  | shiftLeft, a, _ => a <<< 1

/-- The flag of an operation that has one. A difference sets it where no borrow was needed. -/
def flag? : Operation → UInt8 → UInt8 → Option Bool
  | assign, _, _ | or, _, _ | and, _, _ | xor, _, _ => none
  | add, a, b => some (256 ≤ a.toNat + b.toNat)
  | sub, a, b => some (b ≤ a)
  | shiftRight, a, _ => some (a.toNat % 2 = 1)
  | subFrom, a, b => some (a ≤ b)
  | shiftLeft, a, _ => some (128 ≤ a.toNat)

end Operation
end Chip8.Alu
