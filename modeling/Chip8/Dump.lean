import Chip8.Machine.Basic

/-!
# The dump of a machine

A machine is written as titled sections of lines. Keys, stack and registers are tables of sixteen
cells. The memory is shown as words, eight to a row, and each run of rows that hold only zeros is
joined into one row, so no two such rows follow each other.
-/
namespace Chip8.Dump

/-- A value on at least four digits. -/
def hex (n : Nat) : String := Hex.literal 4 n

def spaces (n : Nat) : String := String.ofList (List.replicate n ' ')

/-- The first and the last place that a row covers. -/
def span (first last : Nat) : String := hex first ++ " - " ++ hex last ++ " :"

/-- Cells in columns that are six characters wide; nothing is put behind the last cell. -/
def columns : List String → String
  | [] => ""
  | [cell] => cell
  | cell :: rest => cell ++ spaces (6 - cell.length) ++ " " ++ columns rest

/-- Sixteen cells in two rows. -/
def table (cells : List String) : List String :=
  [span 0 7 ++ " " ++ columns (cells.take 8), span 8 15 ++ " " ++ columns (cells.drop 8)]

inductive MemoryRow where
  /-- The words in the sixteen bytes from a place on. -/
  | words (first : Nat) (words : List UInt16)
  /-- All bytes between two places are zero. -/
  | zeros (first last : Nat)
  deriving DecidableEq, Repr

namespace MemoryRow

def first : MemoryRow → Nat
  | words first _ => first
  | zeros first _ => first

def last : MemoryRow → Nat
  | words first _ => first + 15
  | zeros _ last => last

def ofBlock (m : Memory) (block : Fin 256) : MemoryRow :=
  let words := List.ofFn fun j : Fin 8 =>
    Word.ofBytes m.bytes[16 * block.val + 2 * j.val] m.bytes[16 * block.val + 2 * j.val + 1]
  if words.all (· == 0) then zeros (16 * block) (16 * block + 15) else .words (16 * block) words

/-- Joins adjacent rows of zeros. -/
def merge : List MemoryRow → List MemoryRow
  | [] => []
  | zeros first last :: rest =>
    match merge rest with
    | zeros _ last :: more => zeros first last :: more
    | more => zeros first last :: more
  | row :: rest => row :: merge rest

def ofMemory (m : Memory) : List MemoryRow := merge ((List.finRange 256).map (ofBlock m))

def text (row : MemoryRow) : String :=
  span row.first row.last ++ " " ++
    match row with
    | words _ cells => columns (cells.map fun w => hex w.toNat)
    | zeros .. => hex 0 ++ spaces 20 ++ "..." ++ spaces 20 ++ hex 0

end MemoryRow

structure Section where
  title : String
  lines : List String

/-- The title and the lines are set in by one and two tabulators. -/
def Section.text (s : Section) : List String :=
  ("\t" ++ s.title ++ " :") :: s.lines.map ("\t\t" ++ ·)

/-- The call stack filled up with zeros. -/
def stackCells (s : CallStack) : List UInt16 :=
  s.entries ++ List.replicate (CallStack.capacity - s.entries.length) 0

def sections (m : Machine) : List Section :=
  [⟨"Program Name", [m.rom.name]⟩,
   ⟨"Opcode", [hex m.word.toNat]⟩,
   ⟨"Program Counter", [hex m.pc.toNat]⟩,
   ⟨"Index Register", [hex m.index.toNat]⟩,
   ⟨"Delay Timer", [hex m.delay.value.toNat]⟩,
   ⟨"Sound Timer", [hex m.sound.value.toNat]⟩,
   ⟨"Memory", (MemoryRow.ofMemory m.memory).map MemoryRow.text⟩,
   ⟨"Keyboard", table (m.keypad.held.toList.map toString)⟩,
   ⟨"Stack", table ((stackCells m.stack).map fun address => hex address.toNat)⟩,
   ⟨"Register", table (m.registers.toList.map fun value => hex value.toNat)⟩]

def lines (m : Machine) : List String :=
  "Chipset \x7b" :: (sections m).flatMap Section.text ++ ["\x7d"]

end Dump

/-- The whole machine as text, without a line break at the end. -/
def Machine.dump (m : Machine) : String := "\n".intercalate (Dump.lines m)

end Chip8
