import Chip8.Instruction.Encoding

/-!
# Words and the instructions they stand for

A word is put together again from its family and the fields below it, and a word that was put
together has the fields it was made of. So an instruction and its word determine each other.
-/
namespace Chip8

namespace Word

theorem family_lt (w : UInt16) : family w < 16 := by
  have h := w.toNat_lt
  unfold family
  omega

theorem toNat_byte (w : UInt16) : (byte w).toNat = w.toNat % 256 := UInt8.toNat_ofNat'

section Composed

variable {f : Nat} (hf : f < 16)
include hf

theorem toNat_withAddress (a : Address) : (withAddress f a).toNat = 4096 * f + a := by
  rw [withAddress, UInt16.toNat_ofNat']
  omega

theorem toNat_withByte (r : Register) (kk : UInt8) :
    (withByte f r kk).toNat = 4096 * f + 256 * r + kk.toNat := by
  have h := kk.toNat_lt
  rw [withByte, UInt16.toNat_ofNat']
  omega

theorem toNat_withDigits (r s : Register) {d : Nat} (hd : d < 16) :
    (withDigits f r s d).toNat = 4096 * f + 256 * r + 16 * s + d := by
  rw [withDigits, UInt16.toNat_ofNat']
  omega

theorem fields_withAddress (a : Address) :
    family (withAddress f a) = f ∧ address (withAddress f a) = a := by
  have h := toNat_withAddress hf a
  refine ⟨?_, Fin.ext ?_⟩
  · unfold family
    omega
  · change (withAddress f a).toNat % 4096 = a
    omega

theorem fields_withByte (r : Register) (kk : UInt8) :
    family (withByte f r kk) = f ∧ x (withByte f r kk) = r ∧ byte (withByte f r kk) = kk := by
  have h := toNat_withByte hf r kk
  have hk := kk.toNat_lt
  refine ⟨?_, Fin.ext ?_, UInt8.toNat_inj.mp ?_⟩
  · unfold family
    omega
  · change (withByte f r kk).toNat / 256 % 16 = r
    omega
  · rw [toNat_byte]
    omega

theorem fields_withDigits (r s : Register) {d : Nat} (hd : d < 16) :
    family (withDigits f r s d) = f ∧ x (withDigits f r s d) = r ∧ y (withDigits f r s d) = s ∧
      (n (withDigits f r s d)).val = d := by
  have h := toNat_withDigits hf r s hd
  refine ⟨?_, Fin.ext ?_, Fin.ext ?_, ?_⟩
  · unfold family
    omega
  · change (withDigits f r s d).toNat / 256 % 16 = r
    omega
  · change (withDigits f r s d).toNat / 16 % 16 = s
    omega
  · change (withDigits f r s d).toNat % 16 = d
    omega

end Composed

section Decomposed

variable {w : UInt16} {f : Nat} (h : family w = f)
include h

theorem withAddress_fields : withAddress f (address w) = w := by
  apply UInt16.toNat_inj.mp
  rw [toNat_withAddress (h ▸ family_lt w), ← h]
  change 4096 * (w.toNat / 4096) + w.toNat % 4096 = w.toNat
  omega

theorem withByte_fields {kk : UInt8} (hb : byte w = kk) : withByte f (x w) kk = w := by
  apply UInt16.toNat_inj.mp
  rw [toNat_withByte (h ▸ family_lt w), ← hb, toNat_byte, ← h]
  change 4096 * (w.toNat / 4096) + 256 * (w.toNat / 256 % 16) + w.toNat % 256 = w.toNat
  omega

theorem withDigits_fields {d : Nat} (hd : (n w).val = d) : withDigits f (x w) (y w) d = w := by
  apply UInt16.toNat_inj.mp
  rw [toNat_withDigits (h ▸ family_lt w) _ _ (hd ▸ (n w).isLt), ← hd, ← h]
  change 4096 * (w.toNat / 4096) + 256 * (w.toNat / 256 % 16) + 16 * (w.toNat / 16 % 16) +
    w.toNat % 16 = w.toNat
  omega

end Decomposed
end Word

namespace Alu.Operation

theorem code_lt (op : Operation) : op.code < 16 := by cases op <;> decide

theorem ofCode?_code (op : Operation) : ofCode? op.code = some op := by cases op <;> rfl

theorem code_of_ofCode? {d : Nat} {op : Operation} (h : ofCode? d = some op) : op.code = d := by
  unfold ofCode? at h
  split at h <;> cases h <;> rfl

end Alu.Operation

namespace Instruction

open Word

theorem toWord_of_ofUnary? {w : UInt16} {i : Instruction} (hf : family w = 0xF)
    (h : ofUnary? (x w) (byte w) = some i) : i.toWord = w := by
  unfold ofUnary? at h
  -- one goal for each code, and one without any
  repeat' split at h
  all_goals cases h
  all_goals exact withByte_fields hf (by assumption)

/-- The word of an instruction is the one it was read from. -/
theorem toWord_of_ofWord? {w : UInt16} {i : Instruction} (h : ofWord? w = some i) :
    i.toWord = w := by
  unfold ofWord? at h
  split at h
  case h_1 =>
    split at h
    · rename_i hw
      cases h
      exact hw.symm
    · split at h
      · rename_i hw
        cases h
        exact hw.symm
      · cases h
  case h_6 hf | h_10 hf =>
    split at h
    · rename_i hn
      cases h
      exact withDigits_fields hf hn
    · cases h
  case h_9 hf =>
    obtain ⟨op, ho, rfl⟩ := Option.map_eq_some_iff.mp h
    exact withDigits_fields hf (Alu.Operation.code_of_ofCode? ho).symm
  case h_14 hf =>
    cases h
    exact withDigits_fields hf rfl
  case h_15 hf =>
    repeat' split at h
    all_goals cases h
    all_goals exact withByte_fields hf (by assumption)
  case h_16 =>
    have hlt := family_lt w
    have hf : family w = 0xF := by grind
    exact toWord_of_ofUnary? hf h
  case h_2 hf | h_3 hf | h_11 hf | h_12 hf =>
    cases h
    exact withAddress_fields hf
  all_goals
    rename_i hf
    cases h
    exact withByte_fields hf rfl

/-- An instruction is read back from its word. -/
theorem ofWord?_toWord (i : Instruction) : ofWord? i.toWord = some i := by
  cases i with
  | clear => rfl
  | ret => rfl
  | jump a | call a | loadIndex a | jumpOffset a =>
    simp [toWord, ofWord?, fields_withAddress]
  | skip c =>
    cases c <;> simp [toWord, ofWord?, fields_withByte, fields_withDigits]
  | arithmetic op r s =>
    simp [toWord, ofWord?, fields_withDigits _ _ _ op.code_lt, Alu.Operation.ofCode?_code]
  | draw r s rows =>
    have hn : n (withDigits 0xD r s rows) = rows :=
      Fin.ext (fields_withDigits (by decide) r s rows.isLt).2.2.2
    simp [toWord, ofWord?, fields_withDigits _ _ _ rows.isLt, hn]
  | _ => simp [toWord, ofWord?, ofUnary?, fields_withByte]

theorem ofWord?_eq_some_iff {w : UInt16} {i : Instruction} :
    ofWord? w = some i ↔ i.toWord = w :=
  ⟨toWord_of_ofWord?, fun h => h ▸ ofWord?_toWord i⟩

/-- The word of a call, as a number. -/
theorem ofWord?_eq_call_iff {w : UInt16} {a : Address} :
    ofWord? w = some (call a) ↔ w.toNat = 0x2000 + a.val := by
  have hw : (call a).toWord.toNat = 4096 * 0x2 + a := toNat_withAddress (by decide) a
  rw [ofWord?_eq_some_iff, ← UInt16.toNat_inj, hw]
  omega

/-- The word of a wait, as a number. -/
theorem ofWord?_eq_awaitKey_iff {w : UInt16} {r : Register} :
    ofWord? w = some (awaitKey r) ↔ w.toNat = 0xF00A + 256 * r.val := by
  have hw : (awaitKey r).toWord.toNat = 4096 * 0xF + 256 * r + 10 :=
    toNat_withByte (by decide) r 0x0A
  rw [ofWord?_eq_some_iff, ← UInt16.toNat_inj, hw]
  omega

end Instruction
end Chip8
