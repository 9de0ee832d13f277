import Chip8.Proofs.InstructionRules

/-!
# Register arithmetic in integers

An operation without a flag leaves its byte in the first register and keeps all others. An
operation with a flag leaves a byte that is cut to its range, and the flag tells what was cut off:
the two of them make up the exact result. The flag is written last, so where the first register is
the flag register the byte is lost.
-/
namespace Chip8

/-! ## Byte and flag -/

namespace Alu

theorem toNat_toUInt8 (f : Bool) : f.toUInt8.toNat = f.toNat := by
  cases f <;> rfl

theorem toNat_decide (p : Prop) [Decidable p] : (decide p).toNat = if p then 1 else 0 :=
  apply_ite Bool.toNat p true false

theorem sum_exact (a b : UInt8) :
    (256 * (decide (256 ≤ a.toNat + b.toNat)).toNat + (a + b).toNat : Int) =
      a.toNat + b.toNat := by
  have ha := a.toNat_lt
  have hb := b.toNat_lt
  rw [toNat_decide, UInt8.toNat_add]
  split <;> omega

theorem difference_exact (a b : UInt8) :
    ((a - b).toNat : Int) = a.toNat - b.toNat + 256 * (1 - (decide (b ≤ a)).toNat) ∧
      (((decide (b ≤ a)).toNat : Int) = 1 ↔ b.toNat ≤ a.toNat) := by
  have ha := a.toNat_lt
  have hb := b.toNat_lt
  simp only [toNat_decide, UInt8.toNat_sub, UInt8.le_iff_toNat_le]
  split <;> omega

theorem half_exact (a : UInt8) :
    (2 * (a >>> 1).toNat + (decide (a.toNat % 2 = 1)).toNat : Int) = a.toNat := by
  have hhalf : (a >>> 1).toNat = a.toNat / 2 := by
    rw [UInt8.toNat_shiftRight, Nat.shiftRight_eq_div_pow]
    rfl
  rw [toNat_decide, hhalf]
  split <;> omega

theorem double_exact (a : UInt8) :
    (256 * (decide (128 ≤ a.toNat)).toNat + (a <<< 1).toNat : Int) = 2 * a.toNat := by
  have ha := a.toNat_lt
  have hdouble : (a <<< 1).toNat = a.toNat * 2 % 256 := by
    rw [UInt8.toNat_shiftLeft, Nat.shiftLeft_eq]
    rfl
  rw [toNat_decide, hdouble]
  split <;> omega

end Alu

/-! ## Registers behind an operation -/

namespace Machine

/-- One register has a given byte and the others are as before. -/
def LeavesByte (m n : Machine) (x : Register) (r : UInt8) : Prop :=
  n.register x = r ∧ ∀ s, s ≠ x → n.register s = m.register s

/-- The flag register has a flag, one register has the byte that belongs to it by a law, unless it
is the flag register itself, and the others are as before. -/
def LeavesFlagged (m n : Machine) (x : Register) (law : Int → Int → Prop) : Prop :=
  ∃ r f : UInt8, law r.toNat f.toNat ∧ (f = 0 ∨ f = 1) ∧ n.register flag = f ∧
    (x ≠ flag → n.register x = r) ∧ ∀ s, s ≠ x → s ≠ flag → n.register s = m.register s

section Operations

variable (m : Machine) (op : Alu.Operation) (x y : Register)

theorem leavesByte_arithmetic (h : op.flag? (m.register x) (m.register y) = none) :
    LeavesByte m (m.arithmetic op x y) x (op.result (m.register x) (m.register y)) := by
  simp only [arithmetic, h]
  refine ⟨?_, fun s hs => ?_⟩
  · rw [register_setRegister, if_pos rfl]
  · rw [register_setRegister, if_neg hs]

theorem leavesFlagged_arithmetic {f : Bool} {law : Int → Int → Prop}
    (h : op.flag? (m.register x) (m.register y) = some f)
    (hl : law (op.result (m.register x) (m.register y)).toNat f.toNat) :
    LeavesFlagged m (m.arithmetic op x y) x law := by
  rw [← Alu.toNat_toUInt8] at hl
  simp only [arithmetic, h, setFlag]
  refine ⟨_, f.toUInt8, hl, ?_, ?_, fun hx => ?_, fun s hs hf => ?_⟩
  · cases f with
    | false => exact .inl rfl
    | true => exact .inr rfl
  · rw [register_setRegister, if_pos rfl]
  · rw [register_setRegister, if_neg hx, register_setRegister, if_pos rfl]
  · rw [register_setRegister, if_neg hf, register_setRegister, if_neg hs]

end Operations

/-- The arithmetic of two registers, whichever they are: it completes, reaches nothing but the
registers and leaves in them the operation's exact result. -/
theorem arithmetic_exact (m : Machine) (op : Alu.Operation) (x y : Register) :
    let a := m.register x
    let b := m.register y
    ∃ n, (execute (.arithmetic op x y)).on m = (.ok .quiet, n) ∧
      n = { m with registers := n.registers } ∧
      match op with
      | .assign => LeavesByte m n x b
      | .or => LeavesByte m n x (a ||| b)
      | .and => LeavesByte m n x (a &&& b)
      | .xor => LeavesByte m n x (a ^^^ b)
      | .add => LeavesFlagged m n x fun r f => 256 * f + r = a.toNat + b.toNat
      | .sub => LeavesFlagged m n x fun r f =>
          r = a.toNat - b.toNat + 256 * (1 - f) ∧ (f = 1 ↔ b.toNat ≤ a.toNat)
      | .subFrom => LeavesFlagged m n x fun r f =>
          r = b.toNat - a.toNat + 256 * (1 - f) ∧ (f = 1 ↔ a.toNat ≤ b.toNat)
      | .shiftRight => LeavesFlagged m n x fun r f => 2 * r + f = a.toNat
      | .shiftLeft => LeavesFlagged m n x fun r f => 256 * f + r = 2 * a.toNat := by
  intro a b
  refine ⟨m.arithmetic op x y, execute_of_completed (.arithmetic op x y), ?_, ?_⟩
  · obtain ⟨registers, hframe⟩ := m.arithmetic_frame op x y
    rw [hframe]
  · cases op with
    | assign => exact m.leavesByte_arithmetic .assign x y rfl
    | or => exact m.leavesByte_arithmetic .or x y rfl
    | and => exact m.leavesByte_arithmetic .and x y rfl
    | xor => exact m.leavesByte_arithmetic .xor x y rfl
    | add => exact m.leavesFlagged_arithmetic .add x y rfl (Alu.sum_exact a b)
    | sub => exact m.leavesFlagged_arithmetic .sub x y rfl (Alu.difference_exact a b)
    | subFrom => exact m.leavesFlagged_arithmetic .subFrom x y rfl (Alu.difference_exact b a)
    | shiftRight => exact m.leavesFlagged_arithmetic .shiftRight x y rfl (Alu.half_exact a)
    | shiftLeft => exact m.leavesFlagged_arithmetic .shiftLeft x y rfl (Alu.double_exact a)

end Machine
end Chip8
