/-!
# Nibbles

Numbers below sixteen. They number the digits of a word, the registers and the keys; a larger
number counts as its remainder.
-/
namespace Chip8

abbrev Nibble := Fin 16

/-- The last digit of a number in base sixteen. -/
def Nibble.ofNat (n : Nat) : Nibble := ⟨n % 16, Nat.mod_lt n (by decide)⟩

namespace Nibble

@[simp] theorem val_ofNat (n : Nat) : (Nibble.ofNat n).val = n % 16 := rfl

@[simp] theorem ofNat_val (d : Nibble) : Nibble.ofNat d.val = d :=
  Fin.ext (Nat.mod_eq_of_lt d.isLt)

end Nibble
end Chip8
