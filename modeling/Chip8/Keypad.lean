import Chip8.Nibble

/-!
# The keypad

Sixteen keys, each held down or released, and the last key that went down since it was asked for.
Only the change from released to held counts as a press. Key numbers wrap around at sixteen.
-/
namespace Chip8

abbrev Key := Nibble

structure Keypad where
  held : Vector Bool 16
  /-- The last press that was not taken yet. -/
  pressed : Option Key
  deriving DecidableEq, Repr

namespace Keypad

def size : Nat := 16

def untouched : Keypad := ⟨Vector.replicate 16 false, none⟩

/-- The key that a number names. -/
def key (number : Nat) : Key := Nibble.ofNat number

/-- Where the keys lie, row by row. -/
def layout : List (List Key) :=
  [[0x1, 0x2, 0x3, 0xC],
   [0x4, 0x5, 0x6, 0xD],
   [0x7, 0x8, 0x9, 0xE],
   [0xA, 0x0, 0xB, 0xF]].map fun row => row.map key

def isHeld (k : Keypad) (number : Nat) : Bool := k.held[key number]

def set (k : Keypad) (number : Nat) (down : Bool) : Keypad where
  held := k.held.set (key number) down
  pressed := if down && !k.isHeld number then some (key number) else k.pressed

def toggle (k : Keypad) (number : Nat) : Keypad := k.set number (!k.isHeld number)

/-- Takes over the state of all keys, from the lowest key to the highest. -/
def setAll (k : Keypad) (keys : Vector Bool 16) : Keypad :=
  (List.finRange 16).foldl (fun k (i : Key) => k.set i keys[i]) k

/-- The last press, which is forgotten. -/
def takePress (k : Keypad) : Option Key × Keypad := (k.pressed, { k with pressed := none })

/-- A key is as it was put last; the other keys do not change. -/
theorem isHeld_set (k : Keypad) (number other : Nat) (down : Bool) :
    (k.set number down).isHeld other =
      if key other = key number then down else k.isHeld other := by
  by_cases h : key other = key number
  · simp [isHeld, set, h]
  · have hv : (key number).val ≠ (key other).val := fun he => h (Fin.ext he.symm)
    simp [isHeld, set, h, hv]

/-- Only a key that was up and goes down is a press. -/
theorem pressed_set (k : Keypad) (number : Nat) (down : Bool) :
    (k.set number down).pressed =
      if down = true ∧ k.isHeld number = false then some (key number) else k.pressed := by
  simp [set]

end Keypad
end Chip8
