import Mathlib.Data.List.FinRange
import Chip8.Dump
import Chip8.Proofs.LatestStore

/-!
# The rows of a memory

A row says something of a stretch of the memory: its words, or that it holds only zeros. The rows of
a dump lie end to end from the first byte to the last, also behind the joining of rows of zeros, and
each of them says what the memory holds. So the rows determine the memory.
-/
namespace Chip8

/-- The two bytes of a word are known from it. -/
theorem Word.ofBytes_inj {high low high' low' : UInt8} :
    ofBytes high low = ofBytes high' low' ↔ high = high' ∧ low = low' := by
  refine ⟨fun h => ?_, fun ⟨hh, hl⟩ => hh ▸ hl ▸ rfl⟩
  have hword := congrArg UInt16.toNat h
  have hl := low.toNat_lt
  have hl' := low'.toNat_lt
  rw [toNat_ofBytes, toNat_ofBytes] at hword
  exact ⟨UInt8.toNat_inj.mp (by omega), UInt8.toNat_inj.mp (by omega)⟩

namespace Memory

theorem wordAt_blank (a : Nat) : blank.wordAt a = 0 := by
  rw [wordAt, byteAt_blank, byteAt_blank]
  rfl

/-- Eight words determine their sixteen bytes. -/
theorem byteAt_of_wordAt {m n : Memory} {first a : Nat}
    (h : ∀ j < 8, m.wordAt (first + 2 * j) = n.wordAt (first + 2 * j)) (hf : first ≤ a)
    (hl : a ≤ first + 15) : m.byteAt a = n.byteAt a := by
  obtain ⟨hhigh, hlow⟩ := Word.ofBytes_inj.mp (h ((a - first) / 2) (by omega))
  rcases Nat.mod_two_eq_zero_or_one (a - first) with hp | hp
  · rwa [show first + 2 * ((a - first) / 2) = a by omega] at hhigh
  · rwa [show first + 2 * ((a - first) / 2) + 1 = a by omega] at hlow

end Memory

namespace Dump.MemoryRow

/-- The row says of its stretch what the memory holds there. -/
def IsOf (m : Memory) : MemoryRow → Prop
  | words first cells => cells = (List.range 8).map fun j => m.wordAt (first + 2 * j)
  | zeros first last => ∀ a, first ≤ a → a ≤ last → m.byteAt a = 0

/-- The rows lie end to end from one place up to another and say what the memory holds. -/
def Tiles (m : Memory) : Nat → List MemoryRow → Nat → Prop
  | lo, [], hi => lo = hi
  | lo, row :: rest, hi =>
    row.first = lo ∧ lo ≤ row.last ∧ row.IsOf m ∧ Tiles m (row.last + 1) rest hi

variable {m : Memory} {lo hi : Nat} {rows : List MemoryRow}

theorem Tiles.le (h : Tiles m lo rows hi) : lo ≤ hi := by
  induction rows generalizing lo with
  | nil => exact Nat.le_of_eq h
  | cons row rest ih =>
    obtain ⟨-, hle, -, hrest⟩ := h
    exact Nat.le_trans (Nat.le_succ_of_le hle) (ih hrest)

theorem Tiles.row {row : MemoryRow} (h : Tiles m lo rows hi) (hr : row ∈ rows) :
    row.IsOf m ∧ row.first ≤ row.last ∧ row.last < hi := by
  induction rows generalizing lo with
  | nil => cases hr
  | cons next rest ih =>
    obtain ⟨hfirst, hle, hof, hrest⟩ := h
    rcases List.mem_cons.mp hr with rfl | hr
    · exact ⟨hof, hfirst ▸ hle, hrest.le⟩
    · exact ih hrest hr

/-- Each place lies in one of the rows. -/
theorem Tiles.exists_row {a : Nat} (h : Tiles m lo rows hi) (hl : lo ≤ a) (hu : a < hi) :
    ∃ row ∈ rows, row.first ≤ a ∧ a ≤ row.last := by
  induction rows generalizing lo with
  | nil =>
    have : lo = hi := h
    omega
  | cons row rest ih =>
    obtain ⟨hfirst, -, -, hrest⟩ := h
    rcases Nat.lt_or_ge row.last a with ha | ha
    · obtain ⟨other, hmem, hin⟩ := ih hrest ha
      exact ⟨other, List.mem_cons_of_mem row hmem, hin⟩
    · exact ⟨row, List.mem_cons_self, hfirst ▸ hl, ha⟩

/-- Two rows of zeros that follow each other say as much as the row that joins them. -/
theorem IsOf.join {first middle last : Nat} (h : (zeros first middle).IsOf m)
    (hnext : (zeros (middle + 1) last).IsOf m) : (zeros first last).IsOf m := by
  intro a hf hl
  rcases Nat.lt_or_ge middle a with ha | ha
  · exact hnext a ha hl
  · exact h a hf ha

/-- Puts a row in front of the others. A row of zeros in front of another one moves the start of
that one. -/
def prepend : MemoryRow → List MemoryRow → List MemoryRow
  | zeros first _, zeros _ last :: rows => zeros first last :: rows
  | row, rows => row :: rows

theorem merge_cons (row : MemoryRow) (rows : List MemoryRow) :
    merge (row :: rows) = prepend row (merge rows) := by
  cases row with
  | words first cells => rfl
  | zeros first last =>
    rw [merge]
    cases merge rows with
    | nil => rfl
    | cons next more => cases next <;> rfl

theorem Tiles.prepend {row : MemoryRow} (h : Tiles m lo (row :: rows) hi) :
    Tiles m lo (prepend row rows) hi := by
  unfold MemoryRow.prepend
  split
  · next first last start stop more =>
    obtain ⟨hfirst, hle, hof, hstart, hstop, hnext, hmore⟩ := h
    obtain rfl : start = last + 1 := hstart
    exact ⟨hfirst, Nat.le_trans hle (Nat.le_of_succ_le hstop), hof.join hnext, hmore⟩
  · exact h

theorem Tiles.merge (h : Tiles m lo rows hi) : Tiles m lo (merge rows) hi := by
  induction rows generalizing lo with
  | nil => exact h
  | cons row rest ih =>
    obtain ⟨hfirst, hle, hof, hrest⟩ := h
    rw [merge_cons]
    exact Tiles.prepend ⟨hfirst, hle, hof, ih hrest⟩

theorem first_ofBlock (m : Memory) (block : Fin 256) : (ofBlock m block).first = 16 * block := by
  unfold ofBlock
  dsimp only
  split <;> rfl

theorem last_ofBlock (m : Memory) (block : Fin 256) : (ofBlock m block).last = 16 * block + 15 := by
  unfold ofBlock
  dsimp only
  split <;> rfl

theorem ofBlock_isOf (m : Memory) (block : Fin 256) : (ofBlock m block).IsOf m := by
  have hcells : (List.ofFn fun j : Fin 8 => Word.ofBytes m.bytes[16 * block.val + 2 * j.val]
      m.bytes[16 * block.val + 2 * j.val + 1]) =
      (List.range 8).map fun j => m.wordAt (16 * block + 2 * j) := by
    rw [← List.map_coe_finRange_eq_range, List.map_map, List.ofFn_eq_map]
    refine List.map_congr_left fun j _ => ?_
    have := j.isLt
    rw [Function.comp_apply, Memory.wordAt, Memory.byteAt_of_lt _ (by omega),
      Memory.byteAt_of_lt _ (by omega)]
  unfold ofBlock
  rw [hcells]
  dsimp only
  split
  · next hzero =>
    intro a hf hl
    rw [List.all_map, List.all_eq_true] at hzero
    have hblank : ∀ j < 8, m.wordAt (16 * block + 2 * j) =
        Memory.blank.wordAt (16 * block + 2 * j) := by
      intro j hj
      rw [Memory.wordAt_blank]
      exact beq_iff_eq.mp (hzero j (List.mem_range.mpr hj))
    rw [Memory.byteAt_of_wordAt hblank hf hl, Memory.byteAt_blank]
  · rfl

/-- The blocks from some block on lie end to end. -/
theorem tiles_blocks (m : Memory) {k : Nat} (hk : k ≤ 256) :
    Tiles m (16 * k) (((List.finRange 256).drop k).map (ofBlock m)) 4096 := by
  induction hk using Nat.decreasingInduction with
  | self => rfl
  | of_succ k hk ih =>
    rw [List.drop_eq_getElem_cons (by rwa [List.length_finRange]), List.map_cons,
      List.getElem_finRange, Fin.cast_mk]
    have hfirst : (ofBlock m ⟨k, hk⟩).first = 16 * k := first_ofBlock m ⟨k, hk⟩
    have hlast : (ofBlock m ⟨k, hk⟩).last = 16 * k + 15 := last_ofBlock m ⟨k, hk⟩
    refine ⟨hfirst, by omega, ofBlock_isOf m ⟨k, hk⟩, ?_⟩
    rw [hlast]
    exact ih

/-- The rows of a memory lie end to end in the whole of it and say what it holds. -/
theorem tiles_ofMemory (m : Memory) : Tiles m 0 (ofMemory m) 4096 := by
  have h := tiles_blocks m (Nat.zero_le 256)
  rw [Nat.mul_zero, List.drop_zero] at h
  exact h.merge

/-- Two memories that one row is true of agree in its stretch. -/
theorem IsOf.byteAt_eq {n : Memory} {row : MemoryRow} (hm : row.IsOf m) (hn : row.IsOf n) {a : Nat}
    (hf : row.first ≤ a) (hl : a ≤ row.last) : m.byteAt a = n.byteAt a := by
  cases row with
  | words first cells =>
    have heq := List.map_inj_left.mp (hm.symm.trans hn)
    exact Memory.byteAt_of_wordAt (fun j hj => heq j (List.mem_range.mpr hj)) hf hl
  | zeros first last => rw [hm a hf hl, hn a hf hl]

/-- A memory is known from its rows. -/
theorem ofMemory_injective {m n : Memory} (h : ofMemory m = ofMemory n) : m = n := by
  refine Memory.ext_byteAt fun a ha => ?_
  obtain ⟨row, hmem, hf, hl⟩ := (tiles_ofMemory m).exists_row (Nat.zero_le a) ha
  have hm := ((tiles_ofMemory m).row hmem).1
  rw [h] at hmem
  exact hm.byteAt_eq ((tiles_ofMemory n).row hmem).1 hf hl

end Dump.MemoryRow
end Chip8
