import Chip8.Instruction

/-!
# Instructions as words

`ofWord?` reads a word by its family and, in the families that hold several instructions, by the
low digits. `toWord` writes an instruction's only word; the table of the patterns is in `toWord`.
-/
namespace Chip8

open Word

/-- The last digit that selects an operation. -/
def Alu.Operation.code : Alu.Operation → Nat
  | assign => 0x0
  | or => 0x1
  | and => 0x2
  | xor => 0x3
  | add => 0x4
  | sub => 0x5
  | shiftRight => 0x6
  | subFrom => 0x7
  | shiftLeft => 0xE

def Alu.Operation.ofCode? : Nat → Option Alu.Operation
  | 0x0 => some assign
  | 0x1 => some or
  | 0x2 => some and
  | 0x3 => some xor
  | 0x4 => some add
  | 0x5 => some sub
  | 0x6 => some shiftRight
  | 0x7 => some subFrom
  | 0xE => some shiftLeft
  | _ => none

namespace Instruction

/-- The instructions on a single register, selected by the low byte. -/
def ofUnary? (x : Register) (code : UInt8) : Option Instruction :=
  if code = 0x07 then some (readDelay x)
  else if code = 0x0A then some (awaitKey x)
  else if code = 0x15 then some (setDelay x)
  else if code = 0x18 then some (setSound x)
  else if code = 0x1E then some (addIndex x)
  else if code = 0x29 then some (loadGlyph x)
  else if code = 0x33 then some (storeDigits x)
  else if code = 0x55 then some (storeRegisters x)
  else if code = 0x65 then some (fillRegisters x)
  else none

/-- The instruction a word stands for, if there is one. -/
def ofWord? (w : UInt16) : Option Instruction :=
  match family w with
  | 0x0 => if w = 0x00E0 then some clear else if w = 0x00EE then some ret else none
  | 0x1 => some (jump (address w))
  | 0x2 => some (call (address w))
  | 0x3 => some (skip (.equal (x w) (byte w)))
  | 0x4 => some (skip (.unequal (x w) (byte w)))
  | 0x5 => if (n w).val = 0 then some (skip (.same (x w) (y w))) else none
  | 0x6 => some (load (x w) (byte w))
  | 0x7 => some (add (x w) (byte w))
  | 0x8 => (Alu.Operation.ofCode? (n w)).map fun op => arithmetic op (x w) (y w)
  | 0x9 => if (n w).val = 0 then some (skip (.different (x w) (y w))) else none
  | 0xA => some (loadIndex (address w))
  | 0xB => some (jumpOffset (address w))
  | 0xC => some (random (x w) (byte w))
  | 0xD => some (draw (x w) (y w) (n w))
  | 0xE =>
    if byte w = 0x9E then some (skip (.held (x w)))
    else if byte w = 0xA1 then some (skip (.released (x w)))
    else none
  -- the family 0xF
  | _ => ofUnary? (x w) (byte w)

def toWord : Instruction → UInt16
  | clear => 0x00E0
  | ret => 0x00EE
  | jump a => withAddress 0x1 a
  | call a => withAddress 0x2 a
  | skip (.equal x kk) => withByte 0x3 x kk
  | skip (.unequal x kk) => withByte 0x4 x kk
  | skip (.same x y) => withDigits 0x5 x y 0
  | load x kk => withByte 0x6 x kk
  | add x kk => withByte 0x7 x kk
  | arithmetic op x y => withDigits 0x8 x y op.code
  | skip (.different x y) => withDigits 0x9 x y 0
  | loadIndex a => withAddress 0xA a
  | jumpOffset a => withAddress 0xB a
  | random x mask => withByte 0xC x mask
  | draw x y rows => withDigits 0xD x y rows
  | skip (.held x) => withByte 0xE x 0x9E
  | skip (.released x) => withByte 0xE x 0xA1
  | readDelay x => withByte 0xF x 0x07
  | awaitKey x => withByte 0xF x 0x0A
  | setDelay x => withByte 0xF x 0x15
  | setSound x => withByte 0xF x 0x18
  | addIndex x => withByte 0xF x 0x1E
  | loadGlyph x => withByte 0xF x 0x29
  | storeDigits x => withByte 0xF x 0x33
  | storeRegisters x => withByte 0xF x 0x55
  | fillRegisters x => withByte 0xF x 0x65

/-- The instruction of a word; the fault names a word that has none. -/
def decode (w : UInt16) : Except Fault Instruction :=
  match ofWord? w with
  | some i => .ok i
  | none => .error (.invalidOpcode w)

theorem decode_eq_ok_iff {w : UInt16} {i : Instruction} :
    decode w = .ok i ↔ ofWord? w = some i := by
  rw [decode]
  cases ofWord? w <;> simp

end Instruction
end Chip8
