import Mathlib.Algebra.Group.Nat.Defs
import Chip8.Hex

/-!
# What hexadecimal digits determine

A width of digits tells apart all numbers below `16 ^ width`, and a number that fits its width is
written on exactly that width.
-/
namespace Chip8.Hex

/-- Numbers that fit the width are told apart by their digits. -/
theorem fixed_injective {width n m : Nat} (hn : n < 16 ^ width) (hm : m < 16 ^ width)
    (h : fixed width n = fixed width m) : n = m := by
  induction width generalizing n m with
  | zero => simp at hn hm; omega
  | succ width ih =>
    obtain ⟨hq, hr⟩ := List.append_inj' h rfl
    have hq' : n / 16 = m / 16 := by
      rw [Nat.pow_succ] at hn hm
      exact ih (by omega) (by omega) hq
    have hr' : n % 16 = m % 16 :=
      congrArg Fin.val (digit_injective (List.head_eq_of_cons_eq hr))
    omega

/-- A number that fits the width is written on exactly that width. -/
theorem atLeast_eq_fixed {width n : Nat} (hw : 0 < width) (hn : n < 16 ^ width) :
    atLeast width n = fixed width n := by
  have hc : count n ≤ width := by
    unfold count
    by_cases h0 : n = 0
    · subst h0; simp; omega
    · have h : n.log2 < 4 * width := by
        rw [Nat.log2_lt h0, Nat.pow_mul]
        exact hn
      omega
  rw [atLeast, Nat.max_eq_left hc]

theorem toList_literal {width n : Nat} (hw : 0 < width) (hn : n < 16 ^ width) :
    (literal width n).toList = '0' :: 'x' :: fixed width n := by
  rw [literal, String.toList_ofList, atLeast_eq_fixed hw hn]

theorem not_mem_literal {c : Char} (hd : ∀ d, digit d ≠ c) (hx : c ≠ 'x') (width n : Nat) :
    c ∉ (literal width n).toList := by
  have hfixed (width n : Nat) : c ∉ fixed width n := by
    induction width generalizing n with
    | zero => exact List.not_mem_nil
    | succ width ih =>
      rw [fixed, List.mem_append, List.mem_singleton]
      exact not_or.mpr ⟨ih (n / 16), (hd _).symm⟩
  rw [literal, String.toList_ofList, List.mem_cons, List.mem_cons]
  exact not_or.mpr ⟨(hd 0).symm, not_or.mpr ⟨hx, hfixed _ n⟩⟩

end Chip8.Hex
