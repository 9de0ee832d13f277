import Chip8.Instruction

/-!
# Assembly text

An instruction is written as a name and its operands. The name alone does not determine the
instruction: the operands say which form is meant.
-/
namespace Chip8

inductive Operand where
  | register (x : Register)
  | byte (kk : UInt8)
  | address (a : Address)
  /-- A count of sprite rows, in decimal. -/
  | rows (n : Nibble)
  | index
  /-- The memory that the index register points to. -/
  | memory
  | delay
  | sound
  | key
  | glyph
  | digits
  deriving DecidableEq, Repr

def Operand.text : Operand → String
  | register x => "V" ++ String.singleton (Hex.digit x)
  | byte kk => Hex.literal 2 kk.toNat
  | address a => Hex.literal 3 a
  | rows n => toString n.val
  | index => "I"
  | memory => "[I]"
  | delay => "DT"
  | sound => "ST"
  | key => "K"
  | glyph => "F"
  | digits => "B"

def Alu.Operation.name : Alu.Operation → String
  | assign => "LD"
  | or => "OR"
  | and => "AND"
  | xor => "XOR"
  | add => "ADD"
  | sub => "SUB"
  | shiftRight => "SHR"
  | subFrom => "SUBN"
  | shiftLeft => "SHL"

namespace Condition

def name : Condition → String
  | equal .. | same .. => "SE"
  | unequal .. | different .. => "SNE"
  | held _ => "SKP"
  | released _ => "SKNP"

def operands : Condition → List Operand
  | equal x kk | unequal x kk => [.register x, .byte kk]
  | same x y | different x y => [.register x, .register y]
  | held x | released x => [.register x]

end Condition

namespace Instruction

def name : Instruction → String
  | clear => "CLS"
  | ret => "RET"
  | jump _ | jumpOffset _ => "JP"
  | call _ => "CALL"
  | skip c => c.name
  | add .. | addIndex _ => "ADD"
  | arithmetic op _ _ => op.name
  | random .. => "RND"
  | draw .. => "DRW"
  | load .. | loadIndex _ | readDelay _ | awaitKey _ | setDelay _ | setSound _ | loadGlyph _
  | storeDigits _ | storeRegisters _ | fillRegisters _ => "LD"

/-- The operands in the order they are written, the one that changes first. -/
def operands : Instruction → List Operand
  | clear | ret => []
  | jump a | call a => [.address a]
  | skip c => c.operands
  | load x kk | add x kk | random x kk => [.register x, .byte kk]
  | arithmetic _ x y => [.register x, .register y]
  | loadIndex a => [.index, .address a]
  | jumpOffset a => [.register (Nibble.ofNat 0), .address a]
  | draw x y n => [.register x, .register y, .rows n]
  | readDelay x => [.register x, .delay]
  | awaitKey x => [.register x, .key]
  | setDelay x => [.delay, .register x]
  | setSound x => [.sound, .register x]
  | addIndex x => [.index, .register x]
  | loadGlyph x => [.glyph, .register x]
  | storeDigits x => [.digits, .register x]
  | storeRegisters x => [.memory, .register x]
  | fillRegisters x => [.register x, .memory]

def assembly (i : Instruction) : String :=
  match i.operands with
  | [] => i.name
  | operands => i.name ++ " " ++ ", ".intercalate (operands.map Operand.text)

end Instruction
end Chip8
