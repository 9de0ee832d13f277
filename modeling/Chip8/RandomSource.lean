/-!
# Random bytes

The machine takes its random bytes one after the other from a given stream, so a run is determined
by the stream and by how many bytes were taken before.
-/
namespace Chip8

/-- A stream of bytes and a place in it. -/
structure RandomSource where
  stream : Nat → UInt8
  taken : Nat

namespace RandomSource

/-- The source that hands out some bytes in order and starts over at their end. -/
def repeating (bytes : List UInt8) : RandomSource :=
  let cycle := bytes.toArray
  ⟨fun i => cycle.getD (i % cycle.size) 0, 0⟩

def next (r : RandomSource) : UInt8 × RandomSource :=
  (r.stream r.taken, { r with taken := r.taken + 1 })

end RandomSource
end Chip8
