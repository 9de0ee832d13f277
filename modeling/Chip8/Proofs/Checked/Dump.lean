import Chip8.Dump
import Chip8.Proofs.Checked.Machine
import Chip8.Proofs.Dump.Rows
import Chip8.Proofs.StepRules
import Mathlib.Data.List.FinRange

/-!
# The dump with checked operations

What a dump computes besides its texts: the places of the rows, the words of the memory, the stack
in its sixteen cells and the width of the row that stands for zeros. All of it stays within its
domains, and the dump is the one of the machine. The rows of the memory are put together here in a
loop from the first block on, which moves the end of the last row where zeros go on; that comes to
the same as joining them from the last block on.
-/
namespace Chip8.Checked

open Dump

/-! ## The computation -/

/-- The cells of a row. -/
def rowCells : Nat := 8

/-- The characters of a cell. -/
def cellWidth : Nat := 6

/-- The first and the last place of a row of some length. -/
def place (row size length : Nat) : Option (Nat × Nat) := do
  let first ← mul 64 row size
  let stop ← add 64 first length
  let last ← sub stop 1
  return (first, last)

def tableRow (cells : List String) (row : Nat) : Option String := do
  let (first, last) ← place row rowCells cells.length
  return span first last ++ " " ++ columns cells

def table (cells : List String) : Option (List String) := do
  let rows ← chunks rowCells cells
  rows.zipIdx.mapM fun (cells, row) => tableRow cells row

/-- A word with one more byte behind it, of which the last two are left. -/
def appendByte (word : UInt16) (byte : UInt8) : Option UInt16 := do
  let high ← shiftLeft 16 word.toNat 8
  return UInt16.ofNat (high ||| byte.toNat)

def wordOf (bytes : List UInt8) : Option UInt16 := bytes.foldlM appendByte 0

def memoryRow (size : Nat) (bytes : List UInt8) (row : Nat) : Option MemoryRow := do
  let (first, last) ← place row size bytes.length
  let pairs ← chunks Word.size bytes
  let words ← pairs.mapM wordOf
  return if words.all (· == 0) then .zeros first last else .words first words

/-- Puts a row behind the others. A row of zeros behind another one moves the end of that one. -/
def appendRow (rows : List MemoryRow) (row : MemoryRow) : List MemoryRow :=
  match rows.getLast?, row with
  | some (.zeros first _), .zeros _ last => rows.dropLast ++ [.zeros first last]
  | _, row => rows ++ [row]

def memoryRows (m : Memory) : Option (List MemoryRow) := do
  let size ← mul 64 rowCells Word.size
  let _ ← div Memory.capacity size
  let blocks ← chunks size m.bytes.toList
  blocks.zipIdx.foldlM (fun rows (bytes, row) => do
    let row ← memoryRow size bytes row
    return appendRow rows row) []

/-- The text that stands for a run of zeros, as wide as a full row. -/
def zeroRow : Option String := do
  let cell ← add 64 cellWidth 1
  let cells ← mul 64 rowCells cell
  let width ← sub cells 1
  let ends ← mul 64 2 (hex 0).length
  let inner ← sub width ends
  let gaps ← sub inner "...".length
  let filler ← div gaps 2
  return hex 0 ++ spaces filler ++ "..." ++ spaces filler ++ hex 0

def rowText (row : MemoryRow) : Option String := do
  let body ← match row with
    | .words _ cells => some (columns (cells.map fun w => hex w.toNat))
    | .zeros .. => zeroRow
  return span row.first row.last ++ " " ++ body

/-- The stack in front of zeros. -/
def stackCells (stack : List UInt16) : Option (List UInt16) := do
  let cells ← paste (Vector.replicate 16 0) 0 stack.length stack
  return cells.toList

def dump (m : RawMachine) : Option String := do
  let rows ← memoryRows m.memory
  let memory ← rows.mapM rowText
  let keys ← table (m.keypad.held.toList.map toString)
  let cells ← stackCells m.stack
  let stack ← table (cells.map fun address => hex address.toNat)
  let registers ← table (m.registers.toList.map fun value => hex value.toNat)
  let sections : List Section :=
    [⟨"Program Name", [m.rom.name]⟩,
     ⟨"Opcode", [hex m.word.toNat]⟩,
     ⟨"Program Counter", [hex m.pc.toNat]⟩,
     ⟨"Index Register", [hex m.index.toNat]⟩,
     ⟨"Delay Timer", [hex m.delay.value.toNat]⟩,
     ⟨"Sound Timer", [hex m.sound.value.toNat]⟩,
     ⟨"Memory", memory⟩,
     ⟨"Keyboard", keys⟩,
     ⟨"Stack", stack⟩,
     ⟨"Register", registers⟩]
  return "\n".intercalate ("Chipset \x7b" :: sections.flatMap Section.text ++ ["\x7d"])

/-! ## The loop that joins rows of zeros -/

/-- Only the last of several rows is reached from behind. -/
theorem appendRow_cons_cons (row next : MemoryRow) (rows : List MemoryRow) (new : MemoryRow) :
    appendRow (row :: next :: rows) new = row :: appendRow (next :: rows) new := by
  unfold appendRow
  rw [List.getLast?_cons_cons, List.dropLast_cons_cons]
  split <;> rfl

/-- Rows are put in front and behind in any order: a row of zeros that both of them meet gets the
start of the one and the end of the other. -/
theorem appendRow_prepend (row : MemoryRow) (rows : List MemoryRow) (new : MemoryRow) :
    appendRow (MemoryRow.prepend row rows) new = MemoryRow.prepend row (appendRow rows new) := by
  cases rows with
  | nil => cases row <;> cases new <;> rfl
  | cons next rows =>
    cases rows with
    | nil => cases row <;> cases next <;> cases new <;> rfl
    | cons other rows =>
      rw [appendRow_cons_cons next]
      cases row <;> cases next <;> simp only [MemoryRow.prepend, appendRow_cons_cons]

theorem foldl_appendRow_prepend (row : MemoryRow) (rows new : List MemoryRow) :
    new.foldl appendRow (MemoryRow.prepend row rows) =
      MemoryRow.prepend row (new.foldl appendRow rows) := by
  induction new generalizing rows with
  | nil => rfl
  | cons next new ih => rw [List.foldl_cons, appendRow_prepend, ih, List.foldl_cons]

/-- Joined from the first row on, rows come out as when they are joined from the last one on. -/
theorem foldl_appendRow (rows : List MemoryRow) :
    rows.foldl appendRow [] = MemoryRow.merge rows := by
  induction rows with
  | nil => rfl
  | cons row rows ih =>
    have hfirst : appendRow [] row = MemoryRow.prepend row [] := by cases row <;> rfl
    rw [List.foldl_cons, hfirst, foldl_appendRow_prepend, ih, MemoryRow.merge_cons]

/-! ## Its domains -/

theorem place_of_lt {row size length : Nat} (hl : 0 < length)
    (h : row * size + length < 2 ^ 64) :
    place row size length = some (row * size, row * size + length - 1) := by
  rw [place, mul_of_lt (by omega), Option.bind_eq_bind, Option.bind_some, add_of_lt h,
    Option.bind_some, sub_of_le (by omega), Option.bind_some]
  rfl

theorem tableRow_eq {cells : List String} (h : cells.length = 8) {row : Nat} (hr : row < 2) :
    tableRow cells row =
      some (span (row * 8) (row * 8 + 7) ++ " " ++ columns cells) := by
  rw [tableRow, place_of_lt (by omega) (by unfold rowCells; omega), h]
  rfl

theorem table_eq {cells : List String} (h : cells.length = 16) :
    table cells = some (Dump.table cells) := by
  have htake : (cells.take 8).length = 8 := by rw [List.length_take, h]; rfl
  have hdrop : (cells.drop 8).length = 8 := by rw [List.length_drop, h]
  have hrest : (cells.drop 8).take 8 = cells.drop 8 := List.take_of_length_le (by omega)
  have hrows : chunks rowCells cells = some [cells.take 8, cells.drop 8] := by
    rw [chunks_of_length (show 0 < rowCells by decide) (show _ = 2 * rowCells from h)]
    change some [(cells.drop 0).take 8, (cells.drop 8).take 8] = _
    rw [hrest, List.drop_zero]
  rw [table, hrows, Option.bind_eq_bind, Option.bind_some]
  simp only [List.zipIdx_cons, List.zipIdx_nil, List.mapM_cons, List.mapM_nil,
    tableRow_eq htake (show 0 < 2 by decide), tableRow_eq hdrop (show 0 + 1 < 2 by decide)]
  rfl

theorem appendByte_eq (word : UInt16) (byte : UInt8) :
    appendByte word byte = some (UInt16.ofNat (256 * word.toNat + byte.toNat)) := by
  have hword := word.toNat_lt
  have hshift : word.toNat <<< 8 % 2 ^ 16 = (word.toNat % 256) <<< 8 := by
    rw [Nat.shiftLeft_eq, Nat.shiftLeft_eq]
    omega
  rw [appendByte, shiftLeft_of_lt (by decide), Option.bind_eq_bind, Option.bind_some, hshift,
    ← Nat.shiftLeft_add_eq_or_of_lt byte.toNat_lt, Nat.shiftLeft_eq]
  refine congrArg some (UInt16.toNat_inj.mp ?_)
  rw [UInt16.toNat_ofNat', UInt16.toNat_ofNat']
  omega

theorem wordOf_pair (high low : UInt8) : wordOf [high, low] = some (Word.ofBytes high low) := by
  have hh := high.toNat_lt
  have hhigh : (UInt16.ofNat (256 * (0 : UInt16).toNat + high.toNat)).toNat = high.toNat := by
    rw [UInt16.toNat_ofNat', UInt16.toNat_zero]
    omega
  rw [wordOf, List.foldlM_cons, appendByte_eq, Option.bind_eq_bind, Option.bind_some,
    List.foldlM_cons, appendByte_eq, hhigh]
  rfl

theorem take_two {α : Type} {l : List α} {k : Nat} (h : k + 1 < l.length) :
    (l.drop k).take 2 = [l[k], l[k + 1]] := by
  rw [List.drop_eq_getElem_cons (by omega), List.drop_eq_getElem_cons h]
  rfl

theorem memoryRow_eq (m : Memory) (block : Fin 256) :
    memoryRow 16 ((m.bytes.toList.drop (block * 16)).take 16) block =
      some (MemoryRow.ofBlock m block) := by
  have hblock := block.isLt
  generalize hbytes : (m.bytes.toList.drop (block * 16)).take 16 = bytes
  have hlength : bytes.length = 16 := by
    rw [← hbytes]
    simp
    omega
  have hbyte (k : Nat) (hk : k < 16) : bytes[k] = m.byteAt (16 * block + k) := by
    rw [Memory.byteAt_of_lt _ (by omega)]
    simp only [← hbytes, List.getElem_take, List.getElem_drop, Vector.getElem_toList,
      Nat.mul_comm]
  have hpairs : chunks Word.size bytes = some (List.ofFn fun j : Fin 8 =>
      (bytes.drop (j * 2)).take 2) := chunks_of_length (by decide) hlength
  have hword (j : Fin 8) :
      wordOf ((bytes.drop (j * 2)).take 2) = some (m.wordAt (16 * block + 2 * j)) := by
    have hj := j.isLt
    rw [take_two (by omega), wordOf_pair, hbyte _ (by omega), hbyte _ (by omega), Memory.wordAt,
      Nat.mul_comm j.val 2]
    rfl
  have hwords : (List.ofFn fun j : Fin 8 => (bytes.drop (j * 2)).take 2).mapM wordOf =
      some (List.ofFn fun j : Fin 8 => m.wordAt (16 * block + 2 * j)) := by
    rw [List.ofFn_eq_map, List.mapM_map, List.ofFn_eq_map]
    exact mapM_of_forall fun j _ => hword j
  have hmodel : (List.ofFn fun j : Fin 8 => m.wordAt (16 * block + 2 * j)) =
      List.ofFn fun j : Fin 8 => Word.ofBytes (m.bytes.get ⟨16 * block + 2 * j, by omega⟩)
        (m.bytes.get ⟨16 * block + 2 * j + 1, by omega⟩) := by
    refine congrArg List.ofFn (funext fun j => ?_)
    rw [Memory.wordAt, Memory.byteAt_of_lt _ (by omega), Memory.byteAt_of_lt _ (by omega)]
    rfl
  simp only [memoryRow, hlength, place_of_lt (show 0 < 16 by decide)
    (show block.val * 16 + 16 < 2 ^ 64 by omega), hpairs, hwords, hmodel,
    Option.bind_eq_bind, Option.bind_some, Nat.mul_comm block.val 16]
  rfl

theorem memoryRows_eq (m : Memory) : memoryRows m = some (MemoryRow.ofMemory m) := by
  have hlength : m.bytes.toList.length = 256 * 16 := Vector.length_toList
  have hpass (block : Fin 256) (rows : List MemoryRow) :
      (do
        let row ← memoryRow 16 ((m.bytes.toList.drop (block * 16)).take 16) block
        return appendRow rows row) = some (appendRow rows (MemoryRow.ofBlock m block)) := by
    rw [memoryRow_eq]
    rfl
  have hloop : (List.ofFn fun i : Fin 256 =>
      (m.bytes.toList.drop (i * 16)).take 16).zipIdx.foldlM
        (fun rows (bytes, row) => do
          let row ← memoryRow 16 bytes row
          return appendRow rows row) [] = some (MemoryRow.ofMemory m) := by
    rw [zipIdx_ofFn, List.foldlM_map, MemoryRow.ofMemory, ← foldl_appendRow, List.foldl_map]
    exact foldlM_of_forall (fun block _ rows => hpass block rows) []
  simp only [memoryRows, show mul 64 rowCells Word.size = some 16 from rfl,
    div_of_pos (show 0 < 16 by decide), chunks_of_length (show 0 < 16 by decide) hlength,
    Option.bind_eq_bind, Option.bind_some]
  exact hloop

theorem zeroRow_eq : zeroRow = some (hex 0 ++ spaces 20 ++ "..." ++ spaces 20 ++ hex 0) := by
  decide

theorem rowText_eq (row : MemoryRow) : rowText row = some row.text := by
  cases row with
  | words first cells => rfl
  | zeros first last =>
    rw [rowText]
    dsimp only
    rw [zeroRow_eq]
    rfl

theorem stackCells_eq (s : CallStack) : stackCells s.entries = some (Dump.stackCells s) := by
  have hl := s.length_le
  rw [stackCells, paste_of_le _ hl (Nat.zero_add _), Option.bind_eq_bind, Option.bind_some]
  refine congrArg some (List.ext_getElem ?_ fun i h _ => ?_)
  · simp [Dump.stackCells, CallStack.capacity]
    omega
  · by_cases hi : i < s.entries.length <;>
      simp [Dump.stackCells, List.getElem_append, Vector.get, hi]

theorem dump_raw (m : Machine) : dump m.raw = some m.dump := by
  have hkeys : table (m.raw.keypad.held.toList.map toString) =
      some (Dump.table (m.keypad.held.toList.map toString)) := by
    refine table_eq ?_
    rw [List.length_map, Vector.length_toList]
  have hstack : table ((Dump.stackCells m.stack).map fun address => hex address.toNat) =
      some (Dump.table ((Dump.stackCells m.stack).map fun address => hex address.toNat)) := by
    have := m.stack.length_le
    refine table_eq ?_
    simp [Dump.stackCells, CallStack.capacity]
    omega
  have hregisters : table (m.raw.registers.toList.map fun value => hex value.toNat) =
      some (Dump.table (m.registers.toList.map fun value => hex value.toNat)) := by
    refine table_eq ?_
    rw [List.length_map, Vector.length_toList]
  have hcells : stackCells m.raw.stack = some (Dump.stackCells m.stack) := stackCells_eq m.stack
  have hrows : (MemoryRow.ofMemory m.memory).mapM rowText =
      some ((MemoryRow.ofMemory m.memory).map MemoryRow.text) :=
    mapM_of_forall fun row _ => rowText_eq row
  have hmemory : memoryRows m.raw.memory = some (MemoryRow.ofMemory m.memory) :=
    memoryRows_eq m.memory
  simp only [dump, hmemory, hrows, hkeys, hcells, hstack, hregisters, Option.bind_eq_bind,
    Option.bind_some]
  rfl

end Chip8.Checked
