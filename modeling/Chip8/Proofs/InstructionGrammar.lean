import Chip8.Hex.Lemmas
import Chip8.Proofs.WordForms

/-!
# The grammar of the instruction words

Every form of an instruction has a pattern of four hexadecimal digits. Some of them are fixed, the
others are the digits of the operands, which are in range by their types. Decoding accepts exactly
the words that fit a pattern, finds the operands they were made of and names any other word in its
fault.
-/
namespace Chip8

namespace Hex

theorem fixed_one (d : Nibble) : fixed 1 d = [digit d] := by
  change [digit (Nibble.ofNat d)] = [digit d]
  rw [Nibble.ofNat_val]

/-- The digits of a number that is put together from a high and a low part. -/
theorem fixed_add (k width high : Nat) {low : Nat} (h : low < 16 ^ width) :
    fixed (k + width) (16 ^ width * high + low) = fixed k high ++ fixed width low := by
  induction width generalizing low with
  | zero =>
    have hlow : low = 0 := by omega
    simp [hlow, fixed]
  | succ width ih =>
    rw [Nat.pow_succ] at h ⊢
    have hdiv : (16 ^ width * 16 * high + low) / 16 = 16 ^ width * high + low / 16 := by
      rw [Nat.mul_right_comm]
      omega
    have hmod : (16 ^ width * 16 * high + low) % 16 = low % 16 := by
      rw [Nat.mul_right_comm]
      omega
    have hdigit : Nibble.ofNat (16 ^ width * 16 * high + low) = Nibble.ofNat low := Fin.ext hmod
    change fixed (k + width) _ ++ [digit _] = fixed k high ++ (fixed width _ ++ [digit _])
    rw [hdiv, hdigit, ih (by omega), List.append_assoc]

theorem fixed_two (c d : Nibble) : fixed 2 (16 * c + d) = [digit c, digit d] := by
  have h : fixed 2 (16 * c + d) = fixed 1 c ++ fixed 1 d := fixed_add 1 1 c d.isLt
  rw [h, fixed_one, fixed_one]
  rfl

end Hex

namespace Word

section Composed

variable {f : Nat} (hf : f < 16)
include hf

theorem fixed_withAddress (a : Address) :
    Hex.fixed 4 (withAddress f a).toNat = Hex.digit ⟨f, hf⟩ :: Hex.fixed 3 a := by
  have h := Hex.fixed_add 1 3 f a.isLt
  rw [Hex.fixed_one ⟨f, hf⟩] at h
  rw [toNat_withAddress hf]
  exact h

theorem fixed_withByte (r : Register) (kk : UInt8) :
    Hex.fixed 4 (withByte f r kk).toNat =
      Hex.digit ⟨f, hf⟩ :: Hex.digit r :: Hex.fixed 2 kk.toNat := by
  have h := Hex.fixed_add 2 2 (16 * f + r) kk.toNat_lt
  rw [Hex.fixed_two ⟨f, hf⟩ r] at h
  rw [toNat_withByte hf]
  refine Eq.trans ?_ h
  congr 1
  omega

theorem fixed_withDigits (r s : Register) {d : Nat} (hd : d < 16) :
    Hex.fixed 4 (withDigits f r s d).toNat =
      [Hex.digit ⟨f, hf⟩, Hex.digit r, Hex.digit s, Hex.digit ⟨d, hd⟩] := by
  have h := Hex.fixed_add 2 2 (16 * f + r) (show 16 * s + d < 16 ^ 2 by omega)
  rw [Hex.fixed_two ⟨f, hf⟩ r, Hex.fixed_two s ⟨d, hd⟩] at h
  rw [toNat_withDigits hf r s hd]
  refine Eq.trans ?_ h
  congr 1
  omega

end Composed
end Word

namespace Instruction

open Word

/-- The digits of the words that stand for an instruction, by its documented pattern. -/
def pattern : Instruction → List Char
  | clear => ['0', '0', 'E', '0']
  | ret => ['0', '0', 'E', 'E']
  | jump a => '1' :: Hex.fixed 3 a
  | call a => '2' :: Hex.fixed 3 a
  | skip (.equal x kk) => '3' :: Hex.digit x :: Hex.fixed 2 kk.toNat
  | skip (.unequal x kk) => '4' :: Hex.digit x :: Hex.fixed 2 kk.toNat
  | skip (.same x y) => ['5', Hex.digit x, Hex.digit y, '0']
  | load x kk => '6' :: Hex.digit x :: Hex.fixed 2 kk.toNat
  | add x kk => '7' :: Hex.digit x :: Hex.fixed 2 kk.toNat
  | arithmetic .assign x y => ['8', Hex.digit x, Hex.digit y, '0']
  | arithmetic .or x y => ['8', Hex.digit x, Hex.digit y, '1']
  | arithmetic .and x y => ['8', Hex.digit x, Hex.digit y, '2']
  | arithmetic .xor x y => ['8', Hex.digit x, Hex.digit y, '3']
  | arithmetic .add x y => ['8', Hex.digit x, Hex.digit y, '4']
  | arithmetic .sub x y => ['8', Hex.digit x, Hex.digit y, '5']
  | arithmetic .shiftRight x y => ['8', Hex.digit x, Hex.digit y, '6']
  | arithmetic .subFrom x y => ['8', Hex.digit x, Hex.digit y, '7']
  | arithmetic .shiftLeft x y => ['8', Hex.digit x, Hex.digit y, 'E']
  | skip (.different x y) => ['9', Hex.digit x, Hex.digit y, '0']
  | loadIndex a => 'A' :: Hex.fixed 3 a
  | jumpOffset a => 'B' :: Hex.fixed 3 a
  | random x mask => 'C' :: Hex.digit x :: Hex.fixed 2 mask.toNat
  | draw x y rows => ['D', Hex.digit x, Hex.digit y, Hex.digit rows]
  | skip (.held x) => ['E', Hex.digit x, '9', 'E']
  | skip (.released x) => ['E', Hex.digit x, 'A', '1']
  | readDelay x => ['F', Hex.digit x, '0', '7']
  | awaitKey x => ['F', Hex.digit x, '0', 'A']
  | setDelay x => ['F', Hex.digit x, '1', '5']
  | setSound x => ['F', Hex.digit x, '1', '8']
  | addIndex x => ['F', Hex.digit x, '1', 'E']
  | loadGlyph x => ['F', Hex.digit x, '2', '9']
  | storeDigits x => ['F', Hex.digit x, '3', '3']
  | storeRegisters x => ['F', Hex.digit x, '5', '5']
  | fillRegisters x => ['F', Hex.digit x, '6', '5']

/-- An instruction is written by its pattern. -/
theorem fixed_toWord (i : Instruction) : Hex.fixed 4 i.toWord.toNat = i.pattern := by
  cases i with
  | clear => rfl
  | ret => rfl
  | jump a | call a | loadIndex a | jumpOffset a => exact fixed_withAddress (by decide) a
  | skip c =>
    cases c with
    | same x y | different x y => exact fixed_withDigits (by decide) x y (by decide)
    | equal x kk | unequal x kk => exact fixed_withByte (by decide) x kk
    | held x | released x => exact fixed_withByte (by decide) x _
  | arithmetic op x y => cases op <;> exact fixed_withDigits (by decide) x y (by decide)
  | draw x y rows => exact fixed_withDigits (by decide) x y rows.isLt
  | load x kk | add x kk | random x kk => exact fixed_withByte (by decide) x kk
  | readDelay x | awaitKey x | setDelay x | setSound x | addIndex x | loadGlyph x | storeDigits x
  | storeRegisters x | fillRegisters x => exact fixed_withByte (by decide) x _

/-- A word is the word of an instruction where its digits fit the instruction's pattern. -/
theorem toWord_eq_iff_pattern {i : Instruction} {w : UInt16} :
    i.toWord = w ↔ Hex.fixed 4 w.toNat = i.pattern := by
  rw [← fixed_toWord]
  constructor
  · rintro rfl
    rfl
  · intro h
    exact UInt16.toNat_inj.mp (Hex.fixed_injective w.toNat_lt i.toWord.toNat_lt h).symm

theorem decode_eq_error_iff {w : UInt16} {fault : Fault} :
    decode w = .error fault ↔ fault = .invalidOpcode w ∧ ∀ i : Instruction, i.toWord ≠ w := by
  have hnone : ofWord? w = none ↔ ∀ i : Instruction, i.toWord ≠ w := by
    simp only [Option.eq_none_iff_forall_ne_some, ne_eq, ofWord?_eq_some_iff]
  rw [← hnone, decode]
  cases ofWord? w with
  | none => simp [eq_comm]
  | some i => simp

/-- Decoding a word gives the one instruction that is written as the word, which is the one whose
pattern its digits fit, and a fault that carries the word where there is none. -/
theorem decode_by_grammar (w : UInt16) :
    (∀ i : Instruction, decode w = .ok i ↔ i.toWord = w) ∧
    (∀ i : Instruction, i.toWord = w ↔ Hex.fixed 4 w.toNat = i.pattern) ∧
    ∀ fault, decode w = .error fault ↔
      fault = .invalidOpcode w ∧ ∀ i : Instruction, i.toWord ≠ w := by
  refine ⟨fun i => ?_, fun i => toWord_eq_iff_pattern, fun fault => decode_eq_error_iff⟩
  rw [decode_eq_ok_iff, ofWord?_eq_some_iff]

end Instruction
end Chip8
