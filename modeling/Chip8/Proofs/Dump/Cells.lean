import Chip8.Hex.Lemmas
import Chip8.Proofs.Dump.Rows

/-!
# What the lines of a dump determine

A cell holds no blank, so the blanks behind it end it, and a number below `2 ^ 16` is as wide as its
column. So a table determines the values in it. The line of a memory row determines the row: only a
row of zeros has dots in it.
-/
namespace Chip8.Dump

theorem append_inj {s s' t t' : String} (h : s ++ t = s' ++ t') (hl : s.length = s'.length) :
    s = s' ∧ t = t' := by
  rw [← String.toList_inj, String.toList_append, String.toList_append] at h
  rw [← String.length_toList, ← String.length_toList] at hl
  obtain ⟨hs, ht⟩ := List.append_inj h hl
  exact ⟨String.toList_inj.mp hs, String.toList_inj.mp ht⟩

/-! ## Numbers -/

theorem break_not_mem_hex (n : Nat) : '\n' ∉ (hex n).toList :=
  Hex.not_mem_literal (by decide) (by decide) 4 n

theorem toList_hex {n : Nat} (h : n < 65536) :
    (hex n).toList = '0' :: 'x' :: Hex.fixed 4 n :=
  Hex.toList_literal (by decide) h

theorem length_hex {n : Nat} (h : n < 65536) : (hex n).length = 6 := by
  rw [← String.length_toList, toList_hex h, List.length_cons, List.length_cons, Hex.length_fixed]

theorem hex_inj {n k : Nat} (hn : n < 65536) (hk : k < 65536) (h : hex n = hex k) : n = k := by
  rw [← String.toList_inj, toList_hex hn, toList_hex hk] at h
  exact Hex.fixed_injective hn hk (List.cons.inj (List.cons.inj h).2).2

/-! ## Columns -/

/-- A text that fits a column, with no blank and no line break in it. -/
structure IsCell (cell : String) : Prop where
  length_le : cell.length ≤ 6
  not_blank : ' ' ∉ cell.toList
  not_break : '\n' ∉ cell.toList

theorem isCell_hex {n : Nat} (h : n < 65536) : IsCell (hex n) where
  length_le := Nat.le_of_eq (length_hex h)
  not_blank := Hex.not_mem_literal (by decide) (by decide) 4 n
  not_break := break_not_mem_hex n

theorem isCell_bool (b : Bool) : IsCell (toString b) := by
  cases b <;> exact ⟨by decide, by decide, by decide⟩

theorem toList_spaces (n : Nat) : (spaces n).toList = List.replicate n ' ' :=
  String.toList_ofList

theorem length_filled {cell : String} (h : cell.length ≤ 6) :
    (cell ++ spaces (6 - cell.length)).length = 6 := by
  rw [String.length_append, ← String.length_toList (s := spaces _), toList_spaces,
    List.length_replicate]
  omega

/-- A cell is what stands in front of the blanks. -/
theorem eq_of_filled {s t : String} {i j : Nat} (hs : ' ' ∉ s.toList) (ht : ' ' ∉ t.toList)
    (h : s ++ spaces i = t ++ spaces j) : s = t := by
  have hcell (u : String) (k : Nat) (hu : ' ' ∉ u.toList) :
      (u ++ spaces k).toList.takeWhile (· != ' ') = u.toList := by
    rw [String.toList_append, toList_spaces, List.takeWhile_append_of_pos, List.takeWhile_replicate]
    · simp
    · intro c hc
      exact bne_iff_ne.mpr fun he => hu (he ▸ hc)
  rw [← String.toList_inj, ← hcell s i hs, ← hcell t j ht, h]

theorem columns_cons {cell : String} {rest : List String} (h : rest ≠ []) :
    columns (cell :: rest) = cell ++ spaces (6 - cell.length) ++ " " ++ columns rest := by
  rw [columns]
  exact h

theorem columns_inj {cells others : List String} (hc : ∀ cell ∈ cells, IsCell cell)
    (ho : ∀ cell ∈ others, IsCell cell) (hl : cells.length = others.length)
    (h : columns cells = columns others) : cells = others := by
  induction cells using columns.induct generalizing others with
  | case1 => exact (List.length_eq_zero_iff.mp hl.symm).symm
  | case2 cell =>
    obtain ⟨other, rfl⟩ := List.length_eq_one_iff.mp hl.symm
    exact congrArg (fun c => [c]) h
  | case3 cell rest hrest ih =>
    obtain ⟨other, others, rfl⟩ := List.exists_cons_of_length_eq_add_one hl.symm
    have hlength : rest.length = others.length := Nat.succ.inj hl
    have hothers : others ≠ [] := by
      rintro rfl
      exact hrest (List.length_eq_zero_iff.mp hlength)
    have hcell := hc cell List.mem_cons_self
    have hother := ho other List.mem_cons_self
    have hwidth : (cell ++ spaces (6 - cell.length)).length =
        (other ++ spaces (6 - other.length)).length :=
      (length_filled hcell.length_le).trans (length_filled hother.length_le).symm
    rw [columns_cons hrest, columns_cons hothers] at h
    obtain ⟨hfront, hback⟩ := append_inj h (by
      rw [String.length_append, hwidth, ← String.length_append])
    obtain ⟨hfilled, -⟩ := append_inj hfront hwidth
    rw [eq_of_filled hcell.not_blank hother.not_blank hfilled,
      ih (fun c hm => hc c (List.mem_cons_of_mem cell hm))
        (fun c hm => ho c (List.mem_cons_of_mem other hm)) hlength hback]

/-- Only blanks stand between the cells. -/
theorem not_mem_columns {c : Char} {cells : List String} (hb : c ≠ ' ')
    (h : ∀ cell ∈ cells, c ∉ cell.toList) : c ∉ (columns cells).toList := by
  induction cells using columns.induct with
  | case1 => exact List.not_mem_nil
  | case2 cell => exact h cell List.mem_cons_self
  | case3 cell rest hrest ih =>
    have hcell := h cell List.mem_cons_self
    have hbehind := ih fun other hm => h other (List.mem_cons_of_mem cell hm)
    simp [columns_cons hrest, toList_spaces, hcell, hb, hbehind]

section Values

variable {α : Type} {f : α → String} {l l' : List α}

theorem isCell_map (hc : ∀ a, IsCell (f a)) : ∀ cell ∈ l.map f, IsCell cell :=
  List.forall_mem_map.mpr fun a _ => hc a

/-- Columns determine the values in them. -/
theorem columns_map_inj (hf : Function.Injective f) (hc : ∀ a, IsCell (f a))
    (hl : l.length = l'.length) (h : columns (l.map f) = columns (l'.map f)) : l = l' := by
  have hlength : (l.map f).length = (l'.map f).length := by
    rw [List.length_map, List.length_map, hl]
  exact List.map_injective_iff.mpr hf (columns_inj (isCell_map hc) (isCell_map hc) hlength h)

/-- A table determines the values in it. -/
theorem table_map_inj (hf : Function.Injective f) (hc : ∀ a, IsCell (f a)) (hl : l.length = 16)
    (hl' : l'.length = 16) (h : table (l.map f) = table (l'.map f)) : l = l' := by
  obtain ⟨hupper, hlower⟩ := List.cons.inj h
  have hlower := (List.cons.inj hlower).1
  rw [String.append_right_inj, ← List.map_take, ← List.map_take] at hupper
  rw [String.append_right_inj, ← List.map_drop, ← List.map_drop] at hlower
  have htake : l.take 8 = l'.take 8 :=
    columns_map_inj hf hc (by rw [List.length_take, List.length_take, hl, hl']) hupper
  have hdrop : l.drop 8 = l'.drop 8 :=
    columns_map_inj hf hc (by rw [List.length_drop, List.length_drop, hl, hl']) hlower
  rw [← List.take_append_drop 8 l, htake, hdrop, List.take_append_drop]

end Values

theorem isCell_word (w : UInt16) : IsCell (hex w.toNat) := isCell_hex w.toNat_lt

theorem isCell_byte (b : UInt8) : IsCell (hex b.toNat) := by
  have := b.toNat_lt
  exact isCell_hex (by omega)

theorem hexOfWord_injective : Function.Injective fun w : UInt16 => hex w.toNat :=
  fun w v h => UInt16.toNat_inj.mp (hex_inj w.toNat_lt v.toNat_lt h)

theorem hexOfByte_injective : Function.Injective fun b : UInt8 => hex b.toNat := fun b c h => by
  have hb := b.toNat_lt
  have hc := c.toNat_lt
  exact UInt8.toNat_inj.mp (hex_inj (by omega) (by omega) h)

theorem toString_injective : Function.Injective (toString : Bool → String) := by
  unfold Function.Injective
  decide

/-! ## Lines -/

theorem length_span {first last : Nat} (hf : first < 65536) (hl : last < 65536) :
    (span first last).length = 17 := by
  rw [span, String.length_append, String.length_append, String.length_append, length_hex hf,
    length_hex hl]
  rfl

/-- A line is known from what it says of its places and what stands behind. -/
theorem span_append_inj {first last first' last' : Nat} {s t : String} (hf : first < 65536)
    (hl : last < 65536) (hf' : first' < 65536) (hl' : last' < 65536)
    (h : span first last ++ " " ++ s = span first' last' ++ " " ++ t) :
    first = first' ∧ last = last' ∧ s = t := by
  obtain ⟨hfront, hs⟩ := append_inj h (by
    rw [String.length_append, String.length_append, length_span hf hl, length_span hf' hl'])
  rw [String.append_left_inj, span, span, String.append_left_inj] at hfront
  obtain ⟨hfirst, hlast⟩ := append_inj hfront (by
    rw [String.length_append, String.length_append, length_hex hf, length_hex hf'])
  rw [String.append_left_inj] at hfirst
  exact ⟨hex_inj hf hf' hfirst, hex_inj hl hl' hlast, hs⟩

theorem break_not_mem_span (first last : Nat) : '\n' ∉ (span first last).toList := by
  simp [span, break_not_mem_hex]

theorem break_not_mem_table {cells : List String} (hc : ∀ cell ∈ cells, IsCell cell) {line : String}
    (h : line ∈ table cells) : '\n' ∉ line.toList := by
  have hcolumns (part : List String) (hp : part ⊆ cells) : '\n' ∉ (columns part).toList :=
    not_mem_columns (by decide) fun cell hm => (hc cell (hp hm)).not_break
  rcases List.mem_pair.mp h with rfl | rfl
  · simp [break_not_mem_span, hcolumns _ (List.take_subset 8 cells)]
  · simp [break_not_mem_span, hcolumns _ (List.drop_subset 8 cells)]

/-! ## Rows of memory -/

namespace MemoryRow

/-- A row as a memory has them. -/
structure IsRow (row : MemoryRow) : Prop where
  first_le : row.first ≤ row.last
  last_lt : row.last < 4096
  length_eq : ∀ first cells, row = words first cells → cells.length = 8

theorem isRow_of_mem {m : Memory} {row : MemoryRow} (h : row ∈ ofMemory m) : row.IsRow := by
  obtain ⟨hof, hle, hlt⟩ := (tiles_ofMemory m).row h
  refine ⟨hle, hlt, ?_⟩
  rintro first cells rfl
  rw [show cells = _ from hof, List.length_map, List.length_range]

theorem columns_ne_zeros (cells : List UInt16) : columns (cells.map fun w => hex w.toNat) ≠
    hex 0 ++ spaces 20 ++ "..." ++ spaces 20 ++ hex 0 := by
  intro he
  have hnone : '.' ∉ (columns (cells.map fun w => hex w.toNat)).toList := by
    refine not_mem_columns (by decide) fun cell hm => ?_
    obtain ⟨w, -, rfl⟩ := List.mem_map.mp hm
    exact Hex.not_mem_literal (by decide) (by decide) 4 w.toNat
  exact hnone (by rw [he]; decide)

theorem text_inj {row other : MemoryRow} (hr : row.IsRow) (ho : other.IsRow)
    (h : row.text = other.text) : row = other := by
  have hle := hr.first_le
  have hle' := ho.first_le
  have hlt := hr.last_lt
  have hlt' := ho.last_lt
  obtain ⟨hfirst, hlast, hbody⟩ := span_append_inj (by omega) (by omega) (by omega) (by omega) h
  cases row with
  | words first cells =>
    cases other with
    | words first' cells' =>
      have hlength : cells.length = cells'.length := by
        rw [hr.length_eq _ _ rfl, ho.length_eq _ _ rfl]
      have hcells := columns_map_inj hexOfWord_injective isCell_word hlength hbody
      rw [show first = first' from hfirst, hcells]
    | zeros first' last' => exact (columns_ne_zeros cells hbody).elim
  | zeros first last =>
    cases other with
    | words first' cells' => exact (columns_ne_zeros cells' hbody.symm).elim
    | zeros first' last' => rw [show first = first' from hfirst, show last = last' from hlast]

theorem break_not_mem_text (row : MemoryRow) : '\n' ∉ row.text.toList := by
  cases row with
  | words first cells =>
    have hcolumns : '\n' ∉ (columns (cells.map fun w => hex w.toNat)).toList :=
      not_mem_columns (by decide) fun cell hm => (isCell_map isCell_word cell hm).not_break
    simp [text, break_not_mem_span, hcolumns]
  | zeros first last => simp [text, break_not_mem_span, break_not_mem_hex, toList_spaces]

theorem map_text_inj {rows others : List MemoryRow} (hr : ∀ row ∈ rows, row.IsRow)
    (ho : ∀ row ∈ others, row.IsRow) (h : rows.map text = others.map text) : rows = others := by
  induction rows generalizing others with
  | nil => exact (List.map_eq_nil_iff.mp h.symm).symm
  | cons row rows ih =>
    obtain ⟨other, others, rfl, htext, hrest⟩ := List.map_eq_cons_iff.mp h.symm
    rw [text_inj (hr row List.mem_cons_self) (ho other List.mem_cons_self) htext.symm,
      ih (fun r hm => hr r (List.mem_cons_of_mem row hm))
        (fun r hm => ho r (List.mem_cons_of_mem other hm)) hrest.symm]

/-- A memory is known from the lines that show it. -/
theorem memory_eq_of_lines {m n : Memory}
    (h : (ofMemory m).map text = (ofMemory n).map text) : m = n :=
  ofMemory_injective (map_text_inj (fun _ => isRow_of_mem) (fun _ => isRow_of_mem) h)

end MemoryRow

end Chip8.Dump
