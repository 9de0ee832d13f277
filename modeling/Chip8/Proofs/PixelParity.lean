import Mathlib.Algebra.BigOperators.Intervals
import Mathlib.Algebra.Ring.Parity
import Mathlib.Data.List.Induction
import Chip8.Proofs.Checked.Devices
import Chip8.Proofs.HostScreen

/-!
# Pixels that are toggled

A screen that starts blank and is toggled and cleared holds one bit for each pixel of the torus: it
is lit exactly if it was toggled an odd number of times since the last clear, at whatever
coordinates name it. The words of the rows hold nothing else, so a row is known as a number too.
-/
namespace Chip8

namespace Screen

/-- What can be done to a screen. -/
inductive Change where
  | toggle (x y : Nat)
  | clear
  deriving DecidableEq, Repr

def change (s : Screen) : Change → Screen
  | .toggle x y => s.toggle x y
  | .clear => blank

/-- A blank screen behind some changes. -/
def after (changes : List Change) : Screen := changes.foldl change blank

/-- The change toggles a pixel, whatever coordinates it names it by. -/
def Change.toggles (x y : Nat) : Change → Bool
  | toggle u v => u % 64 = x % 64 ∧ v % 32 = y % 32
  | clear => false

/-- How often a pixel was toggled since the last clear. -/
def togglesOf (changes : List Change) (x y : Nat) : Nat :=
  (changes.reverse.takeWhile (· ≠ .clear)).countP (Change.toggles x y)

/-- A pixel is lit if it was toggled an odd number of times since the last clear. -/
theorem isLit_after (changes : List Change) (x y : Nat) :
    (after changes).isLit x y = decide (Odd (togglesOf changes x y)) := by
  induction changes using List.reverseRecOn with
  | nil => exact (isLit_blank x y).trans (by simp [togglesOf])
  | append_singleton changes c ih =>
    rw [after, List.foldl_append]
    cases c with
    | toggle u v =>
      have hcount : togglesOf (changes ++ [.toggle u v]) x y =
          togglesOf changes x y + if x % 64 = u % 64 ∧ y % 32 = v % 32 then 1 else 0 := by
        simp [togglesOf, List.countP_cons, Change.toggles, eq_comm (a := x % 64),
          eq_comm (a := y % 32)]
      change ((after changes).toggle u v).isLit x y = _
      rw [isLit_toggle, ih, hcount]
      by_cases h : x % 64 = u % 64 ∧ y % 32 = v % 32
      · rw [decide_eq_true h, if_pos h, Bool.xor_true, ← decide_not]
        exact decide_eq_decide.mpr Nat.odd_add_one.symm
      · rw [decide_eq_false h, if_neg h, Bool.xor_false, Nat.add_zero]
    | clear =>
      have hcount : togglesOf (changes ++ [.clear]) x y = 0 := by simp [togglesOf]
      rw [hcount]
      exact isLit_blank x y

theorem isLit_mod (s : Screen) (x y : Nat) : s.isLit (x % 64) (y % 32) = s.isLit x y := by
  simp [isLit, line]

theorem isBlank_iff {s : Screen} :
    s.isBlank = true ↔ ∀ x < 64, ∀ y < 32, s.isLit x y = false := by
  constructor
  · intro h x _ y _
    rw [eq_blank_of_isBlank h, isLit_blank]
  · intro h
    have hs : s = blank := ext_isLit fun x y => by
      rw [isLit_blank, ← isLit_mod]
      exact h _ (Nat.mod_lt x (by decide)) _ (Nat.mod_lt y (by decide))
    rw [hs]
    simp [isBlank, blank]

/-- The bits of a number below a place add up to its remainder. -/
theorem sum_testBit (n m : Nat) :
    (∑ i ∈ Finset.range m, if n.testBit i then 2 ^ i else 0) = n % 2 ^ m := by
  induction m with
  | zero => simp [Nat.mod_one]
  | succ m ih =>
    rw [Finset.sum_range_succ, ih, Nat.mod_pow_succ, ← Nat.toNat_testBit]
    cases n.testBit m <;> simp

/-- The word of a row as a number: its leftmost pixel counts most. -/
theorem toNat_row (s : Screen) (y : Nat) :
    (s.rows.get (line y)).toNat =
      ∑ x ∈ (Finset.range 64).filter fun x => s.isLit x y = true, 2 ^ (63 - x) := by
  generalize hrow : s.rows.get (line y) = row
  have hbit (x : Nat) (hx : x < 64) : s.isLit x y = row.toNat.testBit (63 - x) := by
    change (s.rows.get (line y)).getMsbD (x % 64) = _
    rw [hrow, Nat.mod_eq_of_lt hx, BitVec.getMsbD, decide_eq_true hx, Bool.true_and]
    rfl
  have hsum := Finset.sum_range_reflect (fun i => if row.toNat.testBit i then 2 ^ i else 0) 64
  rw [sum_testBit, Nat.mod_eq_of_lt row.isLt] at hsum
  rw [← hsum, Finset.sum_filter]
  refine Finset.sum_congr rfl fun x hx => ?_
  rw [hbit x (Finset.mem_range.mp hx)]

/-- Behind any changes a pixel is lit if it was toggled an odd number of times since the last clear,
at whatever coordinates. A toggle tells that and reaches no other pixel. The screen is blank if no
pixel of it is lit, and a row is the list of its pixels and the sum of their places. -/
theorem pixels_toggled (changes : List Change) :
    let s := after changes
    let lit (x y : Nat) : Bool := decide (Odd (togglesOf changes x y))
    (∀ x y, s.isLit x y = lit x y) ∧
    (∀ x y, s.toggleAll [(x, y)] = (lit x y, s.toggle x y) ∧
      Checked.toggle s x y = some (lit x y, s.toggle x y) ∧
      ∀ u v, ¬ (u % 64 = x % 64 ∧ v % 32 = y % 32) → (s.toggle x y).isLit u v = lit u v) ∧
    (s.isBlank = true ↔ ∀ x < 64, ∀ y < 32, lit x y = false) ∧
    (∀ y, s.row y = List.ofFn fun x : Fin 64 => lit x y) ∧
    ∀ y, (s.rows.get (line y)).toNat =
      ∑ x ∈ (Finset.range 64).filter fun x => lit x y = true, 2 ^ (63 - x) := by
  intro s lit
  have hlit : s.isLit = lit := funext fun x => funext fun y => isLit_after changes x y
  rw [← hlit]
  refine ⟨fun x y => rfl, fun x y => ⟨rfl, Checked.toggle_eq s x y, fun u v h => ?_⟩, isBlank_iff,
    fun y => ?_, s.toNat_row⟩
  · rw [isLit_toggle, decide_eq_false h, Bool.xor_false]
  · rw [row, List.ofFn_eq_map, ← List.map_coe_finRange_eq_range, List.map_map]
    rfl

end Screen
end Chip8
