import Mathlib.Algebra.Group.Nat.Defs
import Mathlib.Data.List.GetD
import Chip8.Proofs.SpriteSum

/-!
# Drawing row by row

A sprite that lies in the memory goes onto the screen one byte a row: the byte, turned to the right
by the column, is added to its row without a carry. No pixel of a sprite comes twice, so the flag
compares the sprite with the screen as it was before.
-/
namespace Chip8

/-! ## Pixels that differ -/

namespace Screen

theorem rows_xor (s t : Screen) (v : Fin 32) : (s ^^^ t).rows[v] = s.rows[v] ^^^ t.rows[v] := by
  change (Vector.zipWith (· ^^^ ·) s.rows t.rows)[v] = _
  simp

/-- Two places name different pixels. -/
def Apart (p q : Nat × Nat) : Prop := ¬ (p.1 % 64 = q.1 % 64 ∧ p.2 % 32 = q.2 % 32)

theorem isLit_toggle_of_apart (s : Screen) {p q : Nat × Nat} (h : Apart p q) :
    (s.toggle p.1 p.2).isLit q.1 q.2 = s.isLit q.1 q.2 := by
  have hq : ¬ (q.1 % 64 = p.1 % 64 ∧ q.2 % 32 = p.2 % 32) := fun ⟨hx, hy⟩ => h ⟨hx.symm, hy.symm⟩
  rw [isLit_toggle, decide_eq_false hq, Bool.xor_false]

/-- Where no pixel comes twice, toggling tells whether one of them was lit at the start. -/
theorem fst_toggleAll (s : Screen) {pixels : List (Nat × Nat)} (h : pixels.Pairwise Apart) :
    (s.toggleAll pixels).1 = pixels.any fun p => s.isLit p.1 p.2 := by
  rw [← Bool.false_or (pixels.any _)]
  unfold toggleAll
  -- an earlier pixel may have set the flag
  generalize false = met
  induction pixels generalizing met s with
  | nil => exact (Bool.or_false met).symm
  | cons p pixels ih =>
    obtain ⟨hp, hrest⟩ := List.pairwise_cons.mp h
    have hsame : (pixels.any fun q => (s.toggle p.1 p.2).isLit q.1 q.2) =
        pixels.any fun q => s.isLit q.1 q.2 := by
      rw [Bool.eq_iff_iff, List.any_eq_true, List.any_eq_true]
      exact exists_congr fun q => and_congr_right fun hq => by
        rw [s.isLit_toggle_of_apart (hp q hq)]
    rw [List.any_cons, ← hsame, ← Bool.or_assoc]
    exact ih _ hrest _

end Screen

namespace Sprite

open Screen (Apart)

theorem mem_columns {row : UInt8} {j : Nat} : j ∈ columns row ↔ row.toBitVec.getMsbD j = true := by
  simp only [columns, List.mem_filter, List.mem_range]
  exact and_iff_right_of_imp fun h => BitVec.lt_of_getMsbD h

theorem mem_pixels {rows : List UInt8} {x y : Nat} {p : Nat × Nat} :
    p ∈ pixels rows x y ↔
      ∃ i, ∃ h : i < rows.length, ∃ j, rows[i].toBitVec.getMsbD j = true ∧ p = (x + j, y + i) := by
  simp only [pixels, List.mem_flatMap, List.mem_map, mem_columns, Prod.exists,
    List.mem_zipIdx_iff_getElem?]
  constructor
  · rintro ⟨row, i, hrow, j, hj, rfl⟩
    obtain ⟨hi, rfl⟩ := List.getElem?_eq_some_iff.mp hrow
    exact ⟨i, hi, j, hj, rfl⟩
  · rintro ⟨i, hi, j, hj, rfl⟩
    exact ⟨rows[i], i, List.getElem?_eq_getElem hi, j, hj, rfl⟩

/-- No pixel comes twice in a sprite that is not higher than the screen. -/
theorem pairwise_pixels {rows : List UInt8} (h : rows.length ≤ 32) (x y : Nat) :
    (pixels rows x y).Pairwise Apart := by
  rw [pixels, List.pairwise_flatMap]
  constructor
  · -- the pixels of one row lie in different columns
    rintro ⟨row, i⟩ -
    refine List.pairwise_map.mpr (List.Pairwise.imp_of_mem ?_ (List.pairwise_lt_range.filter _))
    rintro j k hj hk hlt ⟨hx, -⟩
    have hwidth : k < 8 := BitVec.lt_of_getMsbD (mem_columns.mp hk)
    dsimp only at hx
    omega
  · -- and two rows of the sprite on different rows of the screen
    refine List.pairwise_iff_getElem.mpr fun i k hi hk hlt p hp q hq => ?_
    rw [List.length_zipIdx] at hk
    simp only [List.getElem_zipIdx, List.mem_map] at hp hq
    obtain ⟨j, -, rfl⟩ := hp
    obtain ⟨l, -, rfl⟩ := hq
    rintro ⟨-, hy⟩
    dsimp only at hy
    omega

/-! ## Rows of a mask -/

/-- A row of a sprite on the screen: its byte at the left end, turned to the right by a column. -/
def strip (byte : UInt8) (column : Nat) : BitVec 64 :=
  (BitVec.ofNat 64 (byte.toNat * 2 ^ 56)).rotateRight (column % 64)

theorem append_zeros (byte : UInt8) :
    byte.toBitVec ++ 0#56 = BitVec.ofNat 64 (byte.toNat * 2 ^ 56) := by
  apply BitVec.eq_of_toNat_eq
  have hlt : byte.toNat < 2 ^ 8 := byte.toNat_lt
  rw [BitVec.toNat_append, BitVec.toNat_ofNat, BitVec.toNat_ofNat, Nat.zero_mod, Nat.or_zero,
    Nat.shiftLeft_eq]
  change byte.toNat * 2 ^ 56 = _
  omega

end Sprite

theorem Drawing.mask_row (d : Drawing) (v : Fin 32) :
    d.mask.rows[v] = Sprite.strip (d.rows.getD ((v + (32 - d.y)) % 32) 0) d.x := by
  simp only [mask, Fin.getElem_fin, Vector.getElem_ofFn]
  rw [Sprite.append_zeros, Sprite.strip, Nat.mod_eq_of_lt d.x.isLt]

namespace Sprite

theorem getMsbD_strip (byte : UInt8) (column : Nat) {u : Nat} (hu : u < 64) :
    (strip byte column).getMsbD u =
      byte.toBitVec.getMsbD ((u + (64 - column % 64)) % 64) := by
  -- the strip is the first row of a sprite without any other
  let d : Drawing := ⟨[byte], Fin.ofNat 64 column, 0, show 1 < 16 by decide⟩
  have hfirst : d.rows.getD ((0 + (32 - d.y)) % 32) 0 = byte := by simp [d]
  have hlit := d.isLit_mask u 0
  rw [Screen.isLit, d.mask_row, show (Screen.line 0).val = 0 from rfl, hfirst, Nat.mod_eq_of_lt hu,
    show d.x.val = column % 64 from rfl, strip, Nat.mod_mod] at hlit
  exact hlit

theorem strip_zero (column : Nat) : strip 0 column = 0 :=
  BitVec.eq_of_getMsbD_eq fun u hu => by
    rw [getMsbD_strip 0 column hu]
    simp

end Sprite

namespace Screen

open Sprite (strip)

theorem word_ne_zero_iff {w : BitVec 64} : w ≠ 0 ↔ ∃ u < 64, w.getMsbD u = true := by
  constructor
  · intro hw
    by_contra hnone
    refine hw (BitVec.eq_of_getMsbD_eq fun u hu => ?_)
    have hb : ¬ w.getMsbD u = true := fun hb => hnone ⟨u, hu, hb⟩
    simpa using hb
  · rintro ⟨u, -, hb⟩ rfl
    simp at hb

/-- A sprite meets a lit pixel where one of its bytes has a bit in common with the row it lies on. -/
theorem met_iff (s : Screen) (rows : List UInt8) (h : rows.length ≤ 32) (x y : Nat) :
    (s.toggleAll (Sprite.pixels rows x y)).1 = true ↔
      ∃ i, ∃ h : i < rows.length, s.rows[line (y + i)] &&& strip rows[i] x ≠ 0 := by
  rw [s.fst_toggleAll (Sprite.pairwise_pixels h x y), List.any_eq_true]
  simp only [Sprite.mem_pixels, word_ne_zero_iff, BitVec.getMsbD_and, Bool.and_eq_true]
  constructor
  · rintro ⟨_, ⟨i, hi, j, hj, rfl⟩, hlit⟩
    have hwidth : j < 8 := BitVec.lt_of_getMsbD hj
    have hu : (x + j) % 64 < 64 := Nat.mod_lt _ (by decide)
    refine ⟨i, hi, (x + j) % 64, hu, hlit, ?_⟩
    rw [Sprite.getMsbD_strip _ _ hu, show ((x + j) % 64 + (64 - x % 64)) % 64 = j by omega]
    exact hj
  · rintro ⟨i, hi, u, hu, hlit, hb⟩
    rw [Sprite.getMsbD_strip _ _ hu] at hb
    refine ⟨_, ⟨i, hi, _, hb, rfl⟩, ?_⟩
    have hplace : (x + (u + (64 - x % 64)) % 64) % 64 = u := by omega
    change (s.rows[line (y + i)].getMsbD ((x + (u + (64 - x % 64)) % 64) % 64)) = true
    rw [hplace]
    exact hlit

section Drawn

variable (s : Screen) (d : Drawing) {x y : Nat} (hx : d.x = x % 64) (hy : d.y = y % 32)
include hx hy

theorem rows_toggleAll (v : Fin 32) :
    (s.toggleAll (Sprite.pixels d.rows x y)).2.rows[v] =
      s.rows[v] ^^^ strip (d.rows.getD ((v + (32 - y % 32)) % 32) 0) x := by
  rw [s.toggleAll_pixels d hx hy, rows_xor, d.mask_row, hx, hy]
  rw [strip, Nat.mod_mod, ← strip]

/-- A byte of a sprite is added to its row. -/
theorem rows_toggleAll_of_lt {i : Nat} (hi : i < d.rows.length) :
    (s.toggleAll (Sprite.pixels d.rows x y)).2.rows[line (y + i)] =
      s.rows[line (y + i)] ^^^ strip d.rows[i] x := by
  have hl := d.length_lt
  have hplace : ((line (y + i)).val + (32 - y % 32)) % 32 = i := by
    change ((y + i) % 32 + (32 - y % 32)) % 32 = i
    omega
  rw [s.rows_toggleAll d hx hy, hplace, List.getD_eq_getElem _ _ hi]

/-- The rows on which no byte of a sprite lies stay as they are. -/
theorem rows_toggleAll_of_ne {v : Fin 32} (hv : ∀ i < d.rows.length, v ≠ line (y + i)) :
    (s.toggleAll (Sprite.pixels d.rows x y)).2.rows[v] = s.rows[v] := by
  have hplace : v = line (y + (v + (32 - y % 32)) % 32) := by
    apply Fin.ext
    change v.val = (y + (v.val + (32 - y % 32)) % 32) % 32
    omega
  have hbehind : d.rows.length ≤ (v + (32 - y % 32)) % 32 :=
    Nat.le_of_not_lt fun hlt => hv _ hlt hplace
  rw [s.rows_toggleAll d hx hy, List.getD_eq_default _ _ hbehind, Sprite.strip_zero]
  exact BitVec.xor_zero

end Drawn
end Screen

namespace Machine

open Screen (line)

/-- An instruction that draws a sprite of the memory adds each of its bytes, turned to its column,
to one row of the screen and keeps the other rows. It sets the flag if the sprite met a lit pixel,
and changes nothing else. -/
theorem draw_blits (m : Machine) (x y : Register) (rows : Nibble)
    (h : m.index.toNat + rows ≤ 4096) :
    let a := (m.register x).toNat
    let c := (m.register y).toNat
    let mask (i : Nat) := Sprite.strip (m.memory.byteAt (m.index.toNat + i)) a
    ∃ n, (execute (.draw x y rows)).on m = (.ok .draw, n) ∧
      n = { m with screen := n.screen, registers := n.registers } ∧
      (∀ i < rows.val, n.screen.rows[line (c + i)] = m.screen.rows[line (c + i)] ^^^ mask i) ∧
      (∀ v, (∀ i < rows.val, v ≠ line (c + i)) → n.screen.rows[v] = m.screen.rows[v]) ∧
      n.register flag =
        (if ∃ i < rows.val, m.screen.rows[line (c + i)] &&& mask i ≠ 0 then 1 else 0) ∧
      ∀ r, r ≠ flag → n.register r = m.register r := by
  intro a c mask
  have hr := m.memory.readBlock_of_le h
  rw [readBlock_sprite hr (x := x) (y := y)] at hr
  have hlen : (m.sprite x y rows).rows.length = rows := List.length_ofFn
  have hbyte (i : Nat) (hi : i < (m.sprite x y rows).rows.length) :
      (m.sprite x y rows).rows[i] = m.memory.byteAt (m.index.toNat + i) := List.getElem_ofFn hi
  have hx : (m.sprite x y rows).x = a % 64 := rfl
  have hy : (m.sprite x y rows).y = c % 32 := rfl
  generalize m.sprite x y rows = d at hr hlen hbyte hx hy
  have hmet := m.screen.met_iff d.rows (by omega) a c
  simp only [hbyte, hlen, exists_prop] at hmet
  generalize hs : m.screen.toggleAll (Sprite.pixels d.rows a c) = drawn at hmet
  refine ⟨_, execute_of_completed (.draw x y rows hr hs), rfl, fun i hi => ?_, fun v hv => ?_, ?_,
    fun r hrf => ?_⟩
  · have hrow := m.screen.rows_toggleAll_of_lt d hx hy (hlen ▸ hi)
    rw [hs, hbyte] at hrow
    exact hrow
  · have hrow := m.screen.rows_toggleAll_of_ne d hx hy (hlen ▸ hv)
    rw [hs] at hrow
    exact hrow
  · refine (register_setRegister _ flag flag _).trans ((if_pos rfl).trans ?_)
    by_cases hlit : drawn.1 = true
    · rw [if_pos (hmet.mp hlit), hlit]
      rfl
    · rw [if_neg (mt hmet.mpr hlit), Bool.eq_false_iff.mpr hlit]
      rfl
  · exact (register_setRegister _ flag r _).trans (if_neg hrf)

/-- A machine with a sprite at the very end of its memory, which the flag puts around both edges of
the screen. -/
def drawingAround : Machine :=
  let memory := Memory.blank.overlay 0xFFD [0xC3, 0x81, 0xFF]
  { (initial ⟨"", []⟩ memory (RandomSource.repeating [])).setRegister flag 190 with
    index := 0xFFD
    screen := Screen.blank.toggle 5 30 }

theorem draw_blits_around :
    ∃ n, (execute (.draw flag flag (Nibble.ofNat 3))).on drawingAround = (.ok .draw, n) ∧
      n.screen.rows[line 30] = 0x0800000000000003 ∧ n.screen.rows[line 0] = 0xFC00000000000003 ∧
      n.screen.rows[line 1] = 0 ∧ n.register flag = 1 := by
  obtain ⟨n, he, -, hrows, hother, hflag, -⟩ :=
    draw_blits drawingAround flag flag (Nibble.ofNat 3) (by decide)
  have hbyte {k : Nat} (hk : k < 3) : drawingAround.memory.byteAt (0xFFD + k) =
      [0xC3, 0x81, 0xFF].getD k (Memory.blank.byteAt (0xFFD + k)) := by
    refine (Memory.blank.byteAt_overlay 0xFFD [0xC3, 0x81, 0xFF] (by omega)).trans ?_
    rw [if_pos (by omega), Nat.add_sub_cancel_left]
  have hfirst : drawingAround.memory.byteAt (0xFFD + 0) = 0xC3 := hbyte (by decide)
  have hlast : drawingAround.memory.byteAt (0xFFD + 2) = 0xFF := hbyte (by decide)
  change ∀ i < 3, n.screen.rows[line (190 + i)] = drawingAround.screen.rows[line (190 + i)] ^^^
    Sprite.strip (drawingAround.memory.byteAt (0xFFD + i)) 190 at hrows
  refine ⟨n, he, ?_, ?_, ?_, ?_⟩
  · refine (hrows 0 (by decide)).trans ?_
    rw [hfirst]
    decide
  · refine (hrows 2 (by decide)).trans ?_
    rw [hlast]
    decide
  · refine (hother (line 1) (by decide)).trans ?_
    decide
  · refine hflag.trans (if_pos ⟨0, by decide, ?_⟩)
    change _ &&& Sprite.strip (drawingAround.memory.byteAt (0xFFD + 0)) 190 ≠ 0
    rw [hfirst]
    decide
end Machine
end Chip8
