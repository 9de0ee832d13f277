/-!
# Timers

A timer holds a count and loses one at each tick until nothing is left. It has no clock of its own:
after `n` ticks the count `v` is `v - n`, cut off at zero.
-/
namespace Chip8

/-- What is left of a count. -/
structure Timer where
  value : UInt8
  deriving DecidableEq, Repr

namespace Timer

def stopped : Timer := ⟨0⟩

def tick (t : Timer) : Timer := ⟨UInt8.ofNat (t.value.toNat - 1)⟩

def ticks : Nat → Timer → Timer
  | 0, t => t
  | n + 1, t => ticks n t.tick

theorem toNat_tick (t : Timer) : t.tick.value.toNat = t.value.toNat - 1 := by
  have := t.value.toNat_lt
  rw [tick, UInt8.toNat_ofNat']
  omega

theorem toNat_ticks (n : Nat) (t : Timer) : (t.ticks n).value.toNat = t.value.toNat - n := by
  induction n generalizing t with
  | zero => rfl
  | succ n ih => rw [ticks, ih, toNat_tick]; omega

end Timer
end Chip8
