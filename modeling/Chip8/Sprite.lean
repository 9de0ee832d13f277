import Chip8.Screen

/-!
# Sprites

A sprite is a picture eight pixels wide with one byte a row, the most significant bit on the left.
Drawing toggles its pixels row by row and tells whether it met a lit one.
-/
namespace Chip8

namespace Sprite

def width : Nat := 8

/-- The columns of the lit pixels in a row of a sprite. -/
def columns (row : UInt8) : List Nat :=
  (List.range width).filter fun j => row.toBitVec.getMsbD j

/-- The pixels a sprite covers when its upper left corner is put at a place. -/
def pixels (rows : List UInt8) (x y : Nat) : List (Nat × Nat) :=
  rows.zipIdx.flatMap fun (row, i) => (columns row).map fun j => (x + j, y + i)

end Sprite

namespace Screen

/-- Toggles some pixels one after the other and tells whether one of them was lit when its turn
came. -/
def toggleAll (s : Screen) (pixels : List (Nat × Nat)) : Bool × Screen :=
  pixels.foldl (fun (met, s) (x, y) => (met || s.isLit x y, s.toggle x y)) (false, s)

end Screen
end Chip8
