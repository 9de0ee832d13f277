import Mathlib.Data.List.Chain
import Chip8.Proofs.Assembler
import Chip8.Proofs.Dump.Identity

/-!
# The memory section of a dump

The lines of the section are read back without the rows that they were written from. What they say
is a partition of the memory: they cover it from the first byte to the last one without gap or
overlap, each of them shows what lies in its stretch, and zeros are joined as far as they go. So the
lines give the memory back.
-/
namespace Chip8.Dump

/-- What a line says: the places that it covers and the values of its cells. A line without cells
stands for zeros. -/
structure Stretch where
  first : Nat
  last : Nat
  cells : Option (List Nat)
  deriving DecidableEq, Repr

namespace Stretch

/-- The parts of a line between its blanks. -/
def parts (line : String) : List (List Char) := (line.toList.splitOn ' ').filter (· ≠ [])

/-- The number that is written as a literal. -/
def literal? : List Char → Option Nat
  | '0' :: 'x' :: figures => Hex.number? figures
  | _ => none

/-- The values behind the colon. Dots between two of them stand for zeros. -/
def cells? : List (List Char) → Option (Option (List Nat))
  | [_, ['.', '.', '.'], _] => some none
  | values => (values.mapM literal?).map some

/-- What a line says, if it has the form of a line of the section. -/
def read? (line : String) : Option Stretch :=
  match parts line with
  | first :: ['-'] :: last :: [':'] :: values => do
    let first ← literal? first
    let last ← literal? last
    let cells ← cells? values
    return ⟨first, last, cells⟩
  | _ => none

/-- The stretch lists its sixteen bytes as eight words, not all of them zero. -/
structure Lists (m : Memory) (s : Stretch) (cells : List Nat) : Prop where
  last_eq : s.last + 1 = s.first + 16
  length_eq : cells.length = 8
  cell : ∀ j < 8, cells[j]? =
    some (256 * (m.byteAt (s.first + 2 * j)).toNat + (m.byteAt (s.first + 2 * j + 1)).toNat)
  not_zero : ∃ cell ∈ cells, cell ≠ 0

/-- The stretch is one or more times sixteen bytes, all of them zero. -/
structure IsZeros (m : Memory) (s : Stretch) : Prop where
  blocks : ∃ k, 0 < k ∧ s.last + 1 = s.first + 16 * k
  zero : ∀ a, s.first ≤ a → a ≤ s.last → m.byteAt a = 0

/-- The stretches make up the memory, in order, and zeros are joined as far as they go. -/
structure Partition (m : Memory) (stretches : List Stretch) : Prop where
  starts : ∃ s, stretches.head? = some s ∧ s.first = 0
  follows : stretches.IsChain fun s next => next.first = s.last + 1
  ends : ∃ s, stretches.getLast? = some s ∧ s.last = 0xFFF
  lists : ∀ s ∈ stretches, ∀ cells, s.cells = some cells → s.Lists m cells
  zeros : ∀ s ∈ stretches, s.cells = none → s.IsZeros m
  apart : stretches.IsChain fun s next => s.cells = none → next.cells ≠ none

/-- The byte that a stretch shows at a place: one half of a cell, or zero. -/
def byteAt (s : Stretch) (a : Nat) : UInt8 :=
  match s.cells with
  | none => 0
  | some cells =>
    let cell := cells.getD ((a - s.first) / 2) 0
    UInt8.ofNat (if (a - s.first) % 2 = 0 then cell / 256 else cell % 256)

def covers (s : Stretch) (a : Nat) : Bool := s.first ≤ a ∧ a ≤ s.last

/-- The memory that some stretches show. -/
def memory (stretches : List Stretch) : Memory :=
  ⟨Vector.ofFn fun a => ((stretches.find? (·.covers a)).map (·.byteAt a)).getD 0⟩

/-! ## Reading a line -/

theorem parts_append (s t : String) : parts (s ++ " " ++ t) = parts s ++ parts t := by
  rw [parts, String.append_assoc, String.toList_append, String.toList_append,
    show " ".toList ++ t.toList = ' ' :: t.toList from rfl, List.splitOn_append_cons_self,
    List.filter_append]
  rfl

theorem parts_of_not_mem {s : String} (hs : s ≠ "") (h : ' ' ∉ s.toList) :
    parts s = [s.toList] := by
  rw [parts, List.splitOn_eq_singleton h]
  simp [hs]

theorem parts_hex {n : Nat} (h : n < 65536) : parts (hex n) = [(hex n).toList] := by
  refine parts_of_not_mem (fun he => ?_) (isCell_hex h).not_blank
  have hl := length_hex h
  rw [he] at hl
  exact absurd hl (by decide)

theorem parts_span {first last : Nat} (hf : first < 65536) (hl : last < 65536) :
    parts (span first last) = [(hex first).toList, ['-'], (hex last).toList, [':']] := by
  have hspan : span first last = hex first ++ " " ++ ("-" ++ " " ++ (hex last ++ " " ++ ":")) := by
    simp only [span, String.append_assoc]
    rfl
  have hdash : parts "-" = [['-']] := by decide
  have hcolon : parts ":" = [[':']] := by decide
  rw [hspan, parts_append, parts_append, parts_append, parts_hex hf, parts_hex hl, hdash, hcolon]
  rfl

/-- Values that fill their columns are the parts of the line that they make up. -/
theorem parts_columns (cells : List UInt16) :
    parts (columns (cells.map fun w => hex w.toNat)) =
      cells.map fun w => (hex w.toNat).toList := by
  induction cells with
  | nil => decide
  | cons w rest ih =>
    have hword := parts_hex w.toNat_lt
    cases rest with
    | nil => exact hword
    | cons next rest =>
      have hfull : hex w.toNat ++ spaces (6 - (hex w.toNat).length) = hex w.toNat := by
        rw [length_hex w.toNat_lt]
        exact String.append_empty
      rw [List.map_cons, columns_cons (List.map_eq_nil_iff.not.mpr (List.cons_ne_nil next rest)),
        hfull, parts_append, hword, ih]
      rfl

theorem literal?_hex {n : Nat} (h : n < 65536) : literal? (hex n).toList = some n := by
  rw [toList_hex h, literal?, Hex.number?_fixed, Nat.mod_eq_of_lt (show n < 16 ^ 4 from h)]

theorem cells?_words (cells : List UInt16) :
    cells? (cells.map fun w => (hex w.toNat).toList) = some (some (cells.map UInt16.toNat)) := by
  have hread : (cells.map fun w => (hex w.toNat).toList).mapM literal? =
      some (cells.map UInt16.toNat) := by
    rw [List.mapM_map]
    exact Checked.mapM_of_forall fun w _ => literal?_hex w.toNat_lt
  unfold cells?
  split
  · next h =>
    -- Dots are no literal.
    rw [h] at hread
    simp [literal?] at hread
  · rw [hread]
    rfl

/-- A line says which places it covers, and what its values say. -/
theorem read?_of_values {first last : Nat} {values : String} {cells : Option (List Nat)}
    (hf : first < 65536) (hl : last < 65536) (hv : cells? (parts values) = some cells) :
    read? (span first last ++ " " ++ values) = some ⟨first, last, cells⟩ := by
  rw [read?, parts_append, parts_span hf hl]
  simp [literal?_hex hf, literal?_hex hl, hv]

end Stretch

namespace MemoryRow

/-- What the line of a row says. -/
def stretch : MemoryRow → Stretch
  | words first cells => ⟨first, first + 15, some (cells.map UInt16.toNat)⟩
  | zeros first last => ⟨first, last, none⟩

/-- The line of a row is read back. -/
theorem read?_text {row : MemoryRow} (h : row.IsRow) :
    Stretch.read? row.text = some row.stretch := by
  have hlast : row.last < 65536 := Nat.lt_trans h.last_lt (by decide)
  have hfirst : row.first < 65536 := Nat.lt_of_le_of_lt h.first_le hlast
  cases row with
  | words first cells =>
    have hvalues : Stretch.cells? (Stretch.parts (columns (cells.map fun w => hex w.toNat))) =
        some (some (cells.map UInt16.toNat)) := by
      rw [Stretch.parts_columns, Stretch.cells?_words]
    exact Stretch.read?_of_values hfirst hlast hvalues
  | zeros first last =>
    have hvalues : Stretch.cells?
        (Stretch.parts (hex 0 ++ spaces 20 ++ "..." ++ spaces 20 ++ hex 0)) = some none := by
      decide
    exact Stretch.read?_of_values hfirst hlast hvalues

example : Stretch.read?
    "0x0050 - 0x01FF : 0x0000                    ...                    0x0000" =
      some ⟨0x50, 0x1FF, none⟩ := by
  decide

/-- The lines of the section are read back row by row. -/
theorem mapM_read? (m : Memory) :
    ((ofMemory m).map text).mapM Stretch.read? = some ((ofMemory m).map stretch) := by
  have hread : ∀ row ∈ ofMemory m, Stretch.read? row.text = some row.stretch :=
    fun _ hr => read?_text (isRow_of_mem hr)
  rw [List.mapM_map, Function.comp_def]
  exact Checked.mapM_of_forall hread

/-! ## Rows of zeros are joined as far as they go -/

/-- A row of words has one that is not zero, and a row of zeros is made up of whole blocks. -/
def IsTight : MemoryRow → Prop
  | words _ cells => ∃ cell ∈ cells, cell ≠ 0
  | zeros first last => ∃ k, 0 < k ∧ last + 1 = first + 16 * k

theorem isTight_ofBlock (m : Memory) (block : Fin 256) : (ofBlock m block).IsTight := by
  unfold ofBlock
  dsimp only
  split
  · exact ⟨1, by decide, by omega⟩
  · next hzero =>
    rw [Bool.not_eq_true, List.all_eq_false] at hzero
    obtain ⟨cell, hmem, hne⟩ := hzero
    exact ⟨cell, hmem, fun he => hne (beq_iff_eq.mpr he)⟩

/-- One of the two rows lists its words. -/
def Apart (row next : MemoryRow) : Prop := row.stretch.cells = none → next.stretch.cells ≠ none

theorem isTight_prepend {m : Memory} {lo hi : Nat} {row : MemoryRow} {rows : List MemoryRow}
    (h : Tiles m lo (row :: rows) hi) (ht : ∀ r ∈ row :: rows, r.IsTight) :
    ∀ r ∈ prepend row rows, r.IsTight := by
  unfold prepend
  split
  · next first last start stop more =>
    -- What follows begins right behind the row, so the blocks of both add up.
    obtain ⟨⟨k, hk, hlast⟩, hrest⟩ := List.forall_mem_cons.mp ht
    obtain ⟨⟨l, -, hstop⟩, hmore⟩ := List.forall_mem_cons.mp hrest
    obtain ⟨-, -, -, hstart, -⟩ := h
    change start = last + 1 at hstart
    exact List.forall_mem_cons.mpr ⟨⟨k + l, by omega, by omega⟩, hmore⟩
  · exact ht

theorem isTight_merge {m : Memory} {lo hi : Nat} {rows : List MemoryRow} (h : Tiles m lo rows hi)
    (ht : ∀ row ∈ rows, row.IsTight) : ∀ row ∈ merge rows, row.IsTight := by
  induction rows generalizing lo with
  | nil => exact ht
  | cons row rest ih =>
    obtain ⟨hfirst, hle, hof, hrest⟩ := h
    obtain ⟨hrow, ht⟩ := List.forall_mem_cons.mp ht
    have hjoined : Tiles m lo (row :: merge rest) hi := ⟨hfirst, hle, hof, hrest.merge⟩
    rw [merge_cons]
    exact isTight_prepend hjoined (List.forall_mem_cons.mpr ⟨hrow, ih hrest ht⟩)

theorem isChain_prepend (row : MemoryRow) {rows : List MemoryRow} (h : rows.IsChain Apart) :
    (prepend row rows).IsChain Apart := by
  cases rows with
  | nil => cases row <;> exact .singleton _
  | cons next more =>
    cases next with
    | words first cells =>
      have happart : Apart row (words first cells) := fun _ => Option.some_ne_none _
      cases row <;> exact .cons_cons happart h
    | zeros start stop =>
      cases row with
      | words first cells =>
        exact .cons_cons (fun hzeros => absurd hzeros (Option.some_ne_none _)) h
      | zeros first last =>
        -- Only where the row starts has changed.
        obtain ⟨hnext, hmore⟩ := List.isChain_cons.mp h
        exact List.isChain_cons.mpr ⟨hnext, hmore⟩

/-- Of two rows that follow each other behind the joining one lists its words. -/
theorem isChain_merge (rows : List MemoryRow) : (merge rows).IsChain Apart := by
  induction rows with
  | nil => exact .nil
  | cons row rest ih =>
    rw [merge_cons]
    exact isChain_prepend row ih

/-! ## What lies end to end -/

section Tiles

variable {m : Memory} {lo hi : Nat} {rows : List MemoryRow}

theorem Tiles.isChain (h : Tiles m lo rows hi) :
    rows.IsChain fun row next => next.first = row.last + 1 := by
  induction rows generalizing lo with
  | nil => exact .nil
  | cons row rest ih =>
    obtain ⟨-, -, -, hrest⟩ := h
    refine List.isChain_cons.mpr ⟨fun next hnext => ?_, ih hrest⟩
    obtain ⟨more, rfl⟩ := List.head?_eq_some_iff.mp hnext
    exact hrest.1

theorem Tiles.exists_head (h : Tiles m lo rows hi) (hne : rows ≠ []) :
    ∃ row, rows.head? = some row ∧ row.first = lo := by
  obtain ⟨row, rest, rfl⟩ := List.exists_cons_of_ne_nil hne
  exact ⟨row, rfl, h.1⟩

theorem Tiles.exists_getLast (h : Tiles m lo rows hi) (hne : rows ≠ []) :
    ∃ row, rows.getLast? = some row ∧ row.last + 1 = hi := by
  induction rows generalizing lo with
  | nil => exact absurd rfl hne
  | cons row rest ih =>
    obtain ⟨-, -, -, hrest⟩ := h
    cases rest with
    | nil => exact ⟨row, rfl, hrest⟩
    | cons next more =>
      obtain ⟨last, hlast, hhi⟩ := ih hrest (List.cons_ne_nil next more)
      exact ⟨last, by rwa [List.getLast?_cons_cons], hhi⟩

end Tiles

end MemoryRow

/-! ## Rows make up a partition -/

namespace MemoryRow

variable {m : Memory}

theorem first_stretch (row : MemoryRow) : row.stretch.first = row.first := by
  cases row <;> rfl

theorem last_stretch (row : MemoryRow) : row.stretch.last = row.last := by
  cases row <;> rfl

theorem lists_stretch {first : Nat} {words : List UInt16}
    (hof : (MemoryRow.words first words).IsOf m) (ht : (MemoryRow.words first words).IsTight) :
    (MemoryRow.words first words).stretch.Lists m (words.map UInt16.toNat) := by
  have hwords : words = (List.range 8).map fun j => m.wordAt (first + 2 * j) := hof
  refine ⟨rfl, ?_, fun j hj => ?_, ?_⟩
  · rw [List.length_map, hwords, List.length_map, List.length_range]
  · rw [hwords, List.map_map, List.getElem?_map, List.getElem?_range hj, Option.map_some,
      Function.comp_apply, Memory.wordAt, Word.toNat_ofBytes]
    rfl
  · obtain ⟨word, hmem, hne⟩ := ht
    exact ⟨word.toNat, List.mem_map_of_mem hmem, fun he => hne (UInt16.toNat_inj.mp he)⟩

theorem isTight_of_mem {row : MemoryRow} (h : row ∈ ofMemory m) : row.IsTight := by
  have htiles := tiles_blocks m (Nat.zero_le 256)
  rw [Nat.mul_zero, List.drop_zero] at htiles
  exact isTight_merge htiles (List.forall_mem_map.mpr fun block _ => isTight_ofBlock m block) row h

theorem ofMemory_ne_nil (m : Memory) : ofMemory m ≠ [] := by
  intro hnil
  have htiles := tiles_ofMemory m
  rw [hnil] at htiles
  exact absurd (show 0 = 4096 from htiles) (by decide)

/-- The rows of a memory say how it falls into stretches. -/
theorem partition_ofMemory (m : Memory) : Stretch.Partition m ((ofMemory m).map stretch) where
  starts := by
    obtain ⟨row, hrow, hfirst⟩ := (tiles_ofMemory m).exists_head (ofMemory_ne_nil m)
    exact ⟨row.stretch, by rw [List.head?_map, hrow]; rfl, (first_stretch row).trans hfirst⟩
  follows := by
    refine (List.isChain_map stretch).mpr ((tiles_ofMemory m).isChain.imp fun row next h => ?_)
    rw [first_stretch, last_stretch, h]
  ends := by
    obtain ⟨row, hrow, hlast⟩ := (tiles_ofMemory m).exists_getLast (ofMemory_ne_nil m)
    refine ⟨row.stretch, by rw [List.getLast?_map, hrow]; rfl, ?_⟩
    rw [last_stretch]
    omega
  lists := by
    refine List.forall_mem_map.mpr fun row hmem cells hcells => ?_
    cases row with
    | words first words =>
      obtain rfl := Option.some.inj hcells
      exact lists_stretch ((tiles_ofMemory m).row hmem).1 (isTight_of_mem hmem)
    | zeros first last => cases hcells
  zeros := by
    refine List.forall_mem_map.mpr fun row hmem hcells => ?_
    cases row with
    | words first words => cases hcells
    | zeros first last => exact ⟨isTight_of_mem hmem, ((tiles_ofMemory m).row hmem).1⟩
  apart := (List.isChain_map stretch).mpr (isChain_merge _)

end MemoryRow

/-! ## The memory that a partition shows -/

namespace Stretch

variable {m : Memory} {s : Stretch} {a : Nat}

theorem covers_iff : s.covers a = true ↔ s.first ≤ a ∧ a ≤ s.last := decide_eq_true_iff

theorem Lists.byteAt_eq {cells : List Nat} (h : s.Lists m cells) (hs : s.cells = some cells)
    (hc : s.first ≤ a ∧ a ≤ s.last) : s.byteAt a = m.byteAt a := by
  have hlast := h.last_eq
  have hcell := h.cell ((a - s.first) / 2) (by omega)
  rw [byteAt, hs]
  simp only [List.getD_eq_getElem?_getD, hcell, Option.getD_some]
  rcases Nat.mod_two_eq_zero_or_one (a - s.first) with hp | hp
  · have hplace : s.first + 2 * ((a - s.first) / 2) = a := by omega
    have hlow := (m.byteAt (a + 1)).toNat_lt
    have hhigh : (256 * (m.byteAt a).toNat + (m.byteAt (a + 1)).toNat) / 256 =
        (m.byteAt a).toNat := by omega
    rw [if_pos hp, hplace, hhigh, UInt8.ofNat_toNat]
  · have hplace : s.first + 2 * ((a - s.first) / 2) + 1 = a := by omega
    have hlow := (m.byteAt a).toNat_lt
    rw [if_neg (by omega), hplace, Nat.mul_add_mod, Nat.mod_eq_of_lt hlow, UInt8.ofNat_toNat]

/-- Stretches that lie end to end cover all places from the first to the last one. -/
theorem exists_covers {stretches : List Stretch} {lo hi : Stretch}
    (hc : stretches.IsChain fun s next => next.first = s.last + 1)
    (hlo : stretches.head? = some lo) (hhi : stretches.getLast? = some hi) (hl : lo.first ≤ a)
    (hu : a ≤ hi.last) : ∃ s ∈ stretches, s.covers a = true := by
  induction stretches generalizing lo with
  | nil => cases hlo
  | cons s rest ih =>
    obtain rfl : s = lo := Option.some.inj hlo
    rcases Nat.lt_or_ge s.last a with hlt | hge
    · cases rest with
      | nil =>
        obtain rfl : s = hi := Option.some.inj hhi
        omega
      | cons next more =>
        obtain ⟨hnext, hmore⟩ := List.isChain_cons_cons.mp hc
        rw [List.getLast?_cons_cons] at hhi
        obtain ⟨t, hmem, ht⟩ := ih hmore rfl hhi (by omega)
        exact ⟨t, List.mem_cons_of_mem s hmem, ht⟩
    · exact ⟨s, List.mem_cons_self, covers_iff.mpr ⟨hl, hge⟩⟩

/-- The stretches of a partition show the memory that it is of. -/
theorem Partition.memory_eq {stretches : List Stretch} (h : Partition m stretches) :
    memory stretches = m := by
  obtain ⟨lo, hlo, hfirst⟩ := h.starts
  obtain ⟨hi, hhi, hlast⟩ := h.ends
  refine Memory.ext_byteAt fun a ha => ?_
  obtain ⟨t, hmem, ht⟩ := exists_covers h.follows hlo hhi (show lo.first ≤ a by omega) (by omega)
  have hbyte : (memory stretches).byteAt a =
      ((stretches.find? (·.covers a)).map (·.byteAt a)).getD 0 := by
    rw [Memory.byteAt_of_lt _ ha]
    simp [memory]
  rw [hbyte]
  cases hfind : stretches.find? (·.covers a) with
  | none => exact absurd ht (List.find?_eq_none.mp hfind t hmem)
  | some s =>
    have hs := List.mem_of_find?_eq_some hfind
    have hfound := List.find?_some hfind
    have hcovers := covers_iff.mp hfound
    rw [Option.map_some, Option.getD_some]
    cases hcells : s.cells with
    | none =>
      rw [(h.zeros s hs hcells).zero a hcovers.1 hcovers.2, byteAt, hcells]
    | some cells => exact (h.lists s hs cells hcells).byteAt_eq hcells hcovers

end Stretch

/-- The lines of the memory section, read back, fall into stretches that cover the memory from its
first to its last byte without gap or overlap. A stretch with cells shows sixteen bytes that are not
all zero, word by word; one without cells stands for zeros, sixteen or a multiple of it, and no two
such stretches follow each other. So the lines give the memory back. -/
theorem memory_section_partitions (machine : Machine) :
    memorySection machine ∈ sections machine ∧
    ∃ stretches, (memorySection machine).lines.mapM Stretch.read? = some stretches ∧
      Stretch.Partition machine.memory stretches ∧
      Stretch.memory stretches = machine.memory := by
  have hpartition := MemoryRow.partition_ofMemory machine.memory
  refine ⟨?_, _, MemoryRow.mapM_read? machine.memory, hpartition, hpartition.memory_eq⟩
  exact List.mem_cons_of_mem _ (List.mem_append_right (numbers machine) List.mem_cons_self)

end Chip8.Dump
