/-!
# The font

Pictures of the sixteen digits, five bytes each, which lie at the start of the memory.
-/
namespace Chip8.Font

def location : Nat := 0x000

def glyphSize : Nat := 5

/-- The pictures of the digits in ascending order. -/
def bytes : List UInt8 :=
  [0xF0, 0x90, 0x90, 0x90, 0xF0,
   0x20, 0x60, 0x20, 0x20, 0x70,
   0xF0, 0x10, 0xF0, 0x80, 0xF0,
   0xF0, 0x10, 0xF0, 0x10, 0xF0,
   0x90, 0x90, 0xF0, 0x10, 0x10,
   0xF0, 0x80, 0xF0, 0x10, 0xF0,
   0xF0, 0x80, 0xF0, 0x90, 0xF0,
   0xF0, 0x10, 0x20, 0x40, 0x40,
   0xF0, 0x90, 0xF0, 0x90, 0xF0,
   0xF0, 0x90, 0xF0, 0x10, 0xF0,
   0xF0, 0x90, 0xF0, 0x90, 0x90,
   0xE0, 0x90, 0xE0, 0x90, 0xE0,
   0xF0, 0x80, 0x80, 0x80, 0xF0,
   0xE0, 0x90, 0x90, 0x90, 0xE0,
   0xF0, 0x80, 0xF0, 0x80, 0xF0,
   0xF0, 0x80, 0xF0, 0x80, 0x80]

/-- Where the picture of a digit lies. Numbers above fifteen name places behind the font. -/
def glyph (d : UInt8) : UInt16 := UInt16.ofNat (location + d.toNat * glyphSize)

theorem length_bytes : bytes.length = 16 * glyphSize := rfl

end Chip8.Font
