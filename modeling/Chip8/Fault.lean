import Chip8.Hex

/-!
# Faults

What can stop an operation of the machine, with the wording of each cause. `message` is the text of
the cause itself, `report` the text the running machine gives for it.
-/
namespace Chip8

/-- A cause for which an operation is refused. -/
inductive Fault where
  /-- The `length` bytes at `address` do not lie within `capacity` bytes. -/
  | outOfRange (address length capacity : Nat)
  | invalidOpcode (word : UInt16)
  /-- A call was made with every entry of the call stack in use. -/
  | stackOverflow
  | stackUnderflow
  deriving DecidableEq, Repr

namespace Fault

/-- The cause in words. Places and sizes are hexadecimal, the length of an access is decimal. -/
def message : Fault → String
  | outOfRange address length capacity =>
    "Access of " ++ toString length ++ " byte(s) at " ++ Hex.literal 4 address ++
      " is out of range for a memory of " ++ Hex.literal 4 capacity ++ " bytes"
  | invalidOpcode word => "An unsupported opcode was used " ++ Hex.literal 4 word.toNat ++ "."
  | stackOverflow => "Stack is full!"
  | stackUnderflow => "Stack is empty!"

/-- The part of the machine in which a fault arises. -/
def origin : Fault → String
  | outOfRange .. => "memory access"
  | invalidOpcode _ => "opcode state"
  | stackOverflow | stackUnderflow => "stack state"

/-- The text with which the running machine reports a fault. -/
def report (fault : Fault) : String :=
  "Invalid " ++ fault.origin ++ " '" ++ fault.message ++ "'."

end Fault
end Chip8
