import Chip8.Machine.Cycle

/-!
# Histories

Everything that can be done to a machine, as data: a history is a list of actions, and running it
gives an answer to each of them and the machine at the end. An action that fails is answered by its
fault, and the history goes on.
-/
namespace Chip8

inductive Action where
  | step
  /-- Executes an instruction without fetching it. -/
  | execute (i : Instruction)
  | cycle (keys : Vector Bool 16)
  | move (flow : Flow)
  | tick
  | setKey (number : Nat) (down : Bool)
  | toggleKey (number : Nat)
  | setKeys (keys : Vector Bool 16)
  | reset
  | startTrace

inductive Answer where
  | done
  | refused (fault : Fault)
  | stepped (result : Except Fault Signal)
  | cycled (result : Except Fault Signal) (calls : List HostCall)

namespace Machine

/-- Does one action. A refused reset leaves the machine as it is. -/
def act (m : Machine) : Action → Answer × Machine
  | .step =>
    let (result, m) := m.step
    (.stepped result, m)
  | .execute i =>
    let (result, m) := (execute i).on m
    (.stepped result, m)
  | .cycle keys =>
    let (result, calls, m) := m.cycle keys
    (.cycled result calls, m)
  | .move flow => (.done, m.move flow)
  | .tick => (.done, m.tick)
  | .setKey number down => (.done, m.setKey number down)
  | .toggleKey number => (.done, m.toggleKey number)
  | .setKeys keys => (.done, m.setKeys keys)
  | .reset =>
    match m.reset with
    | .ok m => (.done, m)
    | .error fault => (.refused fault, m)
  | .startTrace => (.done, m.startTrace)

def after (m : Machine) : List Action → Machine
  | [] => m
  | a :: rest => (m.act a).2.after rest

def answers (m : Machine) : List Action → List Answer
  | [] => []
  | a :: rest => (m.act a).1 :: (m.act a).2.answers rest

theorem after_append (m : Machine) (first rest : List Action) :
    m.after (first ++ rest) = (m.after first).after rest := by
  induction first generalizing m with
  | nil => rfl
  | cons a first ih => exact ih _

end Machine
end Chip8
