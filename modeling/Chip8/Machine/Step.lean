import Chip8.Instruction.Encoding
import Chip8.Machine.Execute

/-!
# A step of the machine

A step fetches the word at the program counter and executes its instruction. A step whose fetch
fails leaves the machine as it is; a step that fails later keeps just the fetched word and the
program counter behind it. While a key is awaited nothing is fetched.
-/
namespace Chip8.Machine

def fetch (m : Machine) : Except Fault UInt16 :=
  (m.memory.readBlock m.pc.toNat Word.size).bind fun bytes => Word.readAt bytes 0

/-- The machine behind a fetched word. -/
def advance (m : Machine) (word : UInt16) : Machine := { m with word := word, pc := m.pc + 2 }

/-- A step that waits for a key into a register: the last press ends the wait. -/
def resume (m : Machine) (x : Register) : Signal × Machine :=
  match m.keypad.takePress with
  | (some key, keypad) =>
    (.quiet,
      { m with keypad := keypad, awaiting := none, pc := m.pc + 2 }.setRegister x
        (UInt8.ofNat key))
  | (none, _) => (.wait, m)

/-- Advances the program by one instruction. An instruction is recorded before it is executed. -/
def step (m : Machine) : Except Fault Signal × Machine :=
  match m.awaiting with
  | some x =>
    let (signal, m) := m.resume x
    (.ok signal, m)
  | none =>
    match m.fetch with
    | .error fault => (.error fault, m)
    | .ok word =>
      let advanced := m.advance word
      match Instruction.decode word with
      | .error fault => (.error fault, advanced)
      | .ok i =>
        (execute i).on (advanced.record (m.pc, i))

end Chip8.Machine
