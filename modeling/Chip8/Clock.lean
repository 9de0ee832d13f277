/-!
# Rates

The two cadences at which a host drives the machine. Intervals are whole milliseconds.
-/
namespace Chip8.Clock

/-- Instructions in a second. -/
def instructionRate : Nat := 500

/-- Milliseconds between two instructions. -/
def instructionInterval : Nat := 1000 / instructionRate

/-- Timer ticks in a second. -/
def tickRate : Nat := 60

/-- Milliseconds between two ticks. -/
def tickInterval : Nat := 1000 / tickRate

end Chip8.Clock
