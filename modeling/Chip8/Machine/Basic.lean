import Chip8.CallStack
import Chip8.Font
import Chip8.Instruction
import Chip8.Keypad
import Chip8.Memory
import Chip8.RandomSource
import Chip8.Rom
import Chip8.Sprite
import Chip8.Timer

/-!
# The machine

The whole state of a machine, how it starts and how the program counter moves. A machine that is
reset differs from a fresh one for the same image only in its random source and its trace.
-/
namespace Chip8

/-- What the machine tells its host after an instruction. -/
inductive Signal where
  | quiet
  | wait
  /-- The screen may have changed. -/
  | draw
  deriving DecidableEq, Repr

/-- Where the program goes on, seen from behind the instruction. -/
inductive Flow where
  | next
  | skip
  | hold
  | jump (target : UInt16)
  deriving DecidableEq, Repr

/-- A skip that is taken on a condition. -/
def Flow.skipIf (condition : Bool) : Flow := if condition then .skip else .next

/-- An address and the instruction that was found there. -/
abbrev TraceEntry := UInt16 × Instruction

structure Machine where
  /-- The image that is loaded at the start and at every reset. -/
  rom : Rom
  /-- The word that was fetched last. -/
  word : UInt16
  memory : Memory
  registers : Vector UInt8 16
  index : UInt16
  pc : UInt16
  stack : CallStack
  delay : Timer
  sound : Timer
  screen : Screen
  keypad : Keypad
  /-- The register that waits for a key. -/
  awaiting : Option Register
  random : RandomSource
  /-- The instructions found so far, if they are recorded. -/
  trace : Option (List TraceEntry)

namespace Machine

/-- Where programs are loaded and start. -/
def start : Nat := 0x200

def registerCount : Nat := 16

/-- The register that takes carries, borrows and collisions. -/
def flag : Register := ⟨15, by decide⟩

/-- Memory with the font and an image. -/
def load (rom : Rom) : Except Fault Memory :=
  (Memory.blank.storeBlock Font.location Font.bytes).bind fun m => m.storeBlock start rom.data

theorem load_of_le {rom : Rom} (h : start + rom.data.length ≤ 4096) :
    load rom = .ok ((Memory.blank.overlay Font.location Font.bytes).overlay start rom.data) := by
  rw [load, Memory.storeBlock_of_le _ (by decide), Except.bind, Memory.storeBlock_of_le _ h]

/-- The machine at the start of a program, with a given memory. -/
def initial (rom : Rom) (memory : Memory) (random : RandomSource) : Machine where
  rom := rom
  word := 0
  memory := memory
  registers := Vector.replicate 16 0
  index := 0
  pc := UInt16.ofNat start
  stack := .empty
  delay := .stopped
  sound := .stopped
  screen := .blank
  keypad := .untouched
  awaiting := none
  random := random
  trace := none

/-- A fresh machine. An image that does not fit behind the start is refused. -/
def create (rom : Rom) (random : RandomSource) : Except Fault Machine :=
  (load rom).map fun memory => initial rom memory random

theorem create_of_le {rom : Rom} (h : start + rom.data.length ≤ 4096) (random : RandomSource) :
    create rom random = .ok (initial rom
      ((Memory.blank.overlay Font.location Font.bytes).overlay start rom.data) random) := by
  rw [create, load_of_le h, Except.map]

/-- Starts the program again: the memory is loaded anew, and all that the program and the host have
changed is put back field by field. The random source goes on where it is, and so does the trace. -/
def reset (m : Machine) : Except Fault Machine :=
  (load m.rom).map fun memory => { m with
    memory := memory
    word := 0
    registers := Vector.replicate 16 0
    index := 0
    pc := UInt16.ofNat start
    stack := .empty
    delay := ⟨0⟩
    sound := ⟨0⟩
    screen := .blank
    keypad := .untouched
    awaiting := none }

/-- Nothing of the state that a reset finds is left but the image, the random source and the trace:
every other field is as in a fresh machine. -/
theorem reset_eq (m : Machine) :
    m.reset = (load m.rom).map fun memory =>
      { initial m.rom memory m.random with trace := m.trace } := rfl

theorem reset_of_load {m : Machine} {memory : Memory} (h : load m.rom = .ok memory) :
    m.reset = .ok { initial m.rom memory m.random with trace := m.trace } := by
  rw [reset_eq, h, Except.map]

def move (flow : Flow) (m : Machine) : Machine :=
  match flow with
  | .next => m
  | .skip => { m with pc := m.pc + 2 }
  | .hold => { m with pc := m.pc - 2 }
  | .jump target => { m with pc := target }

@[simp] theorem move_awaiting (m : Machine) (flow : Flow) :
    (m.move flow).awaiting = m.awaiting := by
  cases flow <;> rfl

@[simp] theorem move_stack (m : Machine) (flow : Flow) : (m.move flow).stack = m.stack := by
  cases flow <;> rfl

def tick (m : Machine) : Machine := { m with delay := m.delay.tick, sound := m.sound.tick }

/-- A tone is heard as long as the sound timer runs. -/
def isSounding (m : Machine) : Bool := 0 < m.sound.value

def isWaiting (m : Machine) : Bool := m.awaiting.isSome

def setKey (m : Machine) (number : Nat) (down : Bool) : Machine :=
  { m with keypad := m.keypad.set number down }

def toggleKey (m : Machine) (number : Nat) : Machine :=
  { m with keypad := m.keypad.toggle number }

def setKeys (m : Machine) (keys : Vector Bool 16) : Machine :=
  { m with keypad := m.keypad.setAll keys }

/-- Records instructions from now on; what is recorded already stays. -/
def startTrace (m : Machine) : Machine := { m with trace := some (m.trace.getD []) }

def record (m : Machine) (entry : TraceEntry) : Machine :=
  { m with trace := m.trace.map (· ++ [entry]) }

end Machine
end Chip8
