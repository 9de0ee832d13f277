/-!
# Program images

An image is a sequence of bytes without a header, together with the name of the program.
-/
namespace Chip8

structure Rom where
  name : String
  data : List UInt8
  deriving DecidableEq, Repr

end Chip8
