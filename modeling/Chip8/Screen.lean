/-!
# The screen

A torus of 64 by 32 pixels: coordinates wrap around at every edge, so any pair of them names a
pixel. A row is a word whose most significant bit is the leftmost pixel. Pixels change by being
toggled one at a time, and a sprite is drawn by toggling the pixels it covers.
-/
namespace Chip8

structure Screen where
  rows : Vector (BitVec 64) 32
  deriving DecidableEq

namespace Screen

def width : Nat := 64
def height : Nat := 32

def resolution : Nat := width * height

def blank : Screen := ⟨Vector.replicate 32 0⟩

/-- The word of a row in which just one pixel is lit. -/
def pixel (x : Nat) : BitVec 64 := BitVec.twoPow 64 (63 - x % 64)

/-- The row that a vertical coordinate names. -/
def line (y : Nat) : Fin 32 := ⟨y % 32, Nat.mod_lt y (by decide)⟩

def isLit (s : Screen) (x y : Nat) : Bool := s.rows[line y].getMsbD (x % 64)

def toggle (s : Screen) (x y : Nat) : Screen :=
  ⟨s.rows.set (line y) (s.rows[line y] ^^^ pixel x)⟩

def row (s : Screen) (y : Nat) : List Bool := (List.range width).map fun x => s.isLit x y

def isBlank (s : Screen) : Bool := s.rows.all (· == 0)

theorem getMsbD_pixel (x u : Nat) : (pixel x).getMsbD (u % 64) = decide (u % 64 = x % 64) := by
  have := Nat.mod_lt u (show 0 < 64 by decide)
  have := Nat.mod_lt x (show 0 < 64 by decide)
  simp only [pixel, BitVec.getMsbD, BitVec.getLsbD_twoPow]
  grind

/-- A toggle changes the pixel it names and no other one. -/
theorem isLit_toggle (s : Screen) (x y u v : Nat) :
    (s.toggle x y).isLit u v = (s.isLit u v ^^ decide (u % 64 = x % 64 ∧ v % 32 = y % 32)) := by
  by_cases h : v % 32 = y % 32
  · have hf : line v = line y := Fin.ext h
    simp [isLit, toggle, hf, h, getMsbD_pixel]
  · have hf : (line y).val ≠ (line v).val := fun he => h he.symm
    simp [isLit, toggle, h, hf]

theorem isLit_blank (x y : Nat) : blank.isLit x y = false := by
  simp [isLit, blank]

/-- A screen is known from its pixels. -/
theorem ext_isLit {s t : Screen} (h : ∀ x y, s.isLit x y = t.isLit x y) : s = t := by
  obtain ⟨s⟩ := s
  obtain ⟨t⟩ := t
  congr 1
  ext y hy : 1
  apply BitVec.eq_of_getMsbD_eq
  intro x hx
  have := h x y
  simpa [isLit, line, Nat.mod_eq_of_lt hx, Nat.mod_eq_of_lt hy] using this

end Screen
end Chip8
