import Chip8.Machine.Step

/-!
# A cycle of the host

In a cycle the host hands over the keys, the machine takes a step and the host is shown the screen
if it may have changed. A blank screen is shown by blanking the host's.
-/
namespace Chip8

/-- What a host is asked to do with its screen. -/
inductive HostCall where
  | blank
  | paint (screen : Screen)
  deriving DecidableEq

/-- The call that makes the host show a screen. -/
def Screen.present (s : Screen) : HostCall := if s.isBlank then .blank else .paint s

namespace Machine

/-- The calls that follow a step with a given result. -/
def calls (m : Machine) : Except Fault Signal → List HostCall
  | .ok .draw => [m.screen.present]
  | _ => []

/-- Takes over the keys, takes a step and lists what the host has to do. -/
def cycle (m : Machine) (keys : Vector Bool 16) : Except Fault Signal × List HostCall × Machine :=
  let (result, m) := (m.setKeys keys).step
  (result, m.calls result, m)

end Machine
end Chip8
