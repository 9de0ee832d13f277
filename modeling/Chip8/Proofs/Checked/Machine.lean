import Chip8.Machine.Action
import Chip8.Proofs.Checked.Decode
import Chip8.Proofs.Checked.Devices

/-!
# The machine with checked operations

The machine once more with bare numbers: its registers, keys, rows and cells are found by numbers of
any size, and every operation that is not defined everywhere is checked. Where an operation leaves
its domain the whole computation has no result. The record of the instructions is left out, as
nothing reads it.
-/
namespace Chip8

structure RawMachine where
  rom : Rom
  word : UInt16
  memory : Memory
  registers : Vector UInt8 16
  index : UInt16
  pc : UInt16
  stack : List UInt16
  delay : Timer
  sound : Timer
  screen : Screen
  keypad : RawKeypad
  awaiting : Option Nat
  random : RandomSource

def Machine.raw (m : Machine) : RawMachine where
  rom := m.rom
  word := m.word
  memory := m.memory
  registers := m.registers
  index := m.index
  pc := m.pc
  stack := m.stack.entries
  delay := m.delay
  sound := m.sound
  screen := m.screen
  keypad := m.keypad.raw
  awaiting := m.awaiting.map Fin.val
  random := m.random

namespace Machine

variable (m : Machine)

@[simp] theorem raw_memory : m.raw.memory = m.memory := rfl

@[simp] theorem raw_index : m.raw.index = m.index := rfl

@[simp] theorem raw_pc : m.raw.pc = m.pc := rfl

@[simp] theorem raw_stack : m.raw.stack = m.stack.entries := rfl

@[simp] theorem raw_screen : m.raw.screen = m.screen := rfl

@[simp] theorem raw_keypad : m.raw.keypad = m.keypad.raw := rfl

@[simp] theorem raw_awaiting : m.raw.awaiting = m.awaiting.map Fin.val := rfl

end Machine

def RawMachine.move (flow : Flow) (m : RawMachine) : RawMachine :=
  match flow with
  | .next => m
  | .skip => { m with pc := m.pc + 2 }
  | .hold => { m with pc := m.pc - 2 }
  | .jump target => { m with pc := target }

namespace Checked

/-! ## Computations -/

/-- A computation on a machine, without a result where an operation is not defined. What it changed
before it was refused stays changed. -/
abbrev RawExec := ExceptT Fault (StateT RawMachine Option)

namespace RawExec

variable {α β : Type}

/-- How a computation on a machine ends, and the machine it leaves behind. -/
def on (e : RawExec α) (m : RawMachine) : Option (Except Fault α × RawMachine) := e.run.run m

/-- A checked operation. -/
def check (result : Option α) : RawExec α := liftM result

/-- A checked operation that may be refused. -/
def access (result : Option (Except Fault α)) : RawExec α := do
  let result ← check result
  liftM result

end RawExec

open RawExec

/-! ## Instructions -/

def register (x : Nat) : RawExec UInt8 := do
  let m ← get
  check (lookup m.registers x)

def setRegister (x : Nat) (value : UInt8) : RawExec Unit := do
  let m ← get
  let registers ← check (replace m.registers x value)
  set { m with registers := registers }

/-- The number of the flag register, the last one. -/
def flag : Option Nat := sub Machine.registerCount 1

def setFlag (value : UInt8) : RawExec Unit := do
  let x ← check flag
  setRegister x value

def holds : RawCondition → RawExec Bool
  | .equal x kk => do
    let vx ← register x
    return vx == kk
  | .unequal x kk => do
    let vx ← register x
    return vx != kk
  | .same x y => do
    let vx ← register x
    let vy ← register y
    return vx == vy
  | .different x y => do
    let vx ← register x
    let vy ← register y
    return vx != vy
  | .held x => do
    let vx ← register x
    let m ← get
    check (isHeld m.keypad vx.toNat)
  | .released x => do
    let vx ← register x
    let m ← get
    let held ← check (isHeld m.keypad vx.toNat)
    return !held

def arithmetic (op : Alu.Operation) (x y : Nat) : RawExec Unit := do
  let vx ← register x
  let vy ← register y
  let (result, flag?) ← check (operate op vx vy)
  setRegister x result
  match flag? with
  | some flag => setFlag flag
  | none => return

def enter : RawExec Unit := do
  let m ← get
  if m.stack.length < CallStack.capacity then set { m with stack := m.stack ++ [m.pc] }
  else throw .stackOverflow

def leave : RawExec UInt16 := do
  let m ← get
  match m.stack.getLast? with
  | some target =>
    set { m with stack := m.stack.dropLast }
    return target
  | none => throw .stackUnderflow

def draw (x y rows : Nat) : RawExec Unit := do
  let vx ← register x
  let vy ← register y
  let m ← get
  let sprite ← access (readBlock m.memory m.index.toNat rows)
  let (met, screen) ← check (drawSprite m.screen sprite vx.toNat vy.toNat)
  set { m with screen := screen }
  setFlag met.toUInt8

def putBlock (data : List UInt8) : RawExec Unit := do
  let m ← get
  let memory ← access (storeBlock m.memory m.index.toNat data)
  set { m with memory := memory }

/-- The registers up to a last one. -/
def registersTo (last : Nat) : RawExec (List UInt8) := do
  let m ← get
  let length ← check (add 64 last 1)
  check (slice m.registers 0 length)

def fill (last : Nat) : RawExec Unit := do
  let m ← get
  let length ← check (add 64 last 1)
  let block ← access (readBlock m.memory m.index.toNat length)
  let registers ← check (paste m.registers 0 length block)
  set { m with registers := registers }

def effect : RawInstruction → RawExec Outcome
  | .clear => do
    modify fun m => { m with screen := .blank }
    return { signal := .draw }
  | .ret => do
    let target ← leave
    return { flow := .jump target }
  | .jump target => return { flow := .jump target }
  | .call target => do
    enter
    return { flow := .jump target }
  | .skip c => do
    let condition ← holds c
    return { flow := .skipIf condition }
  | .load x kk => do
    setRegister x kk
    return {}
  | .add x kk => do
    let vx ← register x
    setRegister x (vx + kk)
    return {}
  | .arithmetic op x y => do
    arithmetic op x y
    return {}
  | .loadIndex a => do
    modify fun m => { m with index := a }
    return {}
  | .jumpOffset base => do
    let v0 ← register 0
    let target ← check (add 16 base.toNat v0.toNat)
    return { flow := .jump (UInt16.ofNat target) }
  | .random x mask => do
    let m ← get
    set { m with random := m.random.next.2 }
    setRegister x (mask &&& m.random.next.1)
    return {}
  | .draw x y rows => do
    draw x y rows
    return { signal := .draw }
  | .readDelay x => do
    let m ← get
    setRegister x m.delay.value
    return {}
  | .awaitKey x => do
    modify fun m => { m with keypad := { m.keypad with pressed := none }, awaiting := some x }
    return { flow := .hold, signal := .wait }
  | .setDelay x => do
    let vx ← register x
    modify fun m => { m with delay := ⟨vx⟩ }
    return {}
  | .setSound x => do
    let vx ← register x
    modify fun m => { m with sound := ⟨vx⟩ }
    return {}
  | .addIndex x => do
    let vx ← register x
    modify fun m => { m with index := m.index + vx.toUInt16 }
    return {}
  | .loadGlyph x => do
    let vx ← register x
    let index ← check (glyph vx)
    modify fun m => { m with index := index }
    return {}
  | .storeDigits x => do
    let vx ← register x
    let data ← check (digits vx)
    putBlock data
    return {}
  | .storeRegisters last => do
    let data ← registersTo last
    putBlock data
    return {}
  | .fillRegisters last => do
    fill last
    return {}

def execute (i : RawInstruction) : RawExec Signal := do
  let outcome ← effect i
  modify fun m => m.move outcome.flow
  return outcome.signal

/-! ## Steps and histories -/

def fetch : RawExec UInt16 := do
  let m ← get
  let bytes ← access (readBlock m.memory m.pc.toNat Word.size)
  let word ← (liftM (Word.readAt bytes 0) : RawExec UInt16)
  set { m with word := word, pc := m.pc + 2 }
  return word

def resume (x : Nat) : RawExec Signal := do
  let m ← get
  match m.keypad.pressed with
  | some key =>
    setRegister x (UInt8.ofNat key)
    modify fun m => { m with
      keypad := { m.keypad with pressed := none }, awaiting := none, pc := m.pc + 2 }
    return .quiet
  | none => return .wait

def step : RawExec Signal := do
  let m ← get
  match m.awaiting with
  | some x => resume x
  | none =>
    let word ← fetch
    let i ← access (decode word)
    execute i

def cycle (m : RawMachine) (keys : Vector Bool 16) :
    Option (Except Fault Signal × List HostCall × RawMachine) := do
  let keypad ← setKeys m.keypad keys
  let (result, m) ← step.on { m with keypad := keypad }
  return match result with
    | .ok .draw => (result, [m.screen.present], m)
    | _ => (result, [], m)

def load (rom : Rom) : Option (Except Fault Memory) := do
  match ← storeBlock Memory.blank Font.location Font.bytes with
  | .ok m => storeBlock m Machine.start rom.data
  | .error fault => return .error fault

/-- A fresh machine. -/
def create (rom : Rom) (random : RandomSource) : Option (Except Fault RawMachine) := do
  let memory ← load rom
  return memory.map fun memory => {
    rom := rom, word := 0, memory := memory, registers := Vector.replicate 16 0, index := 0,
    pc := UInt16.ofNat Machine.start, stack := [], delay := .stopped, sound := .stopped,
    screen := .blank, keypad := ⟨Vector.replicate 16 false, none⟩, awaiting := none,
    random := random }

/-- Starts the program again. -/
def reset (m : RawMachine) : Option (Except Fault RawMachine) := do
  let memory ← load m.rom
  return memory.map fun memory => { m with
    memory := memory, word := 0, registers := Vector.replicate 16 0, index := 0,
    pc := UInt16.ofNat Machine.start, stack := [], delay := ⟨0⟩, sound := ⟨0⟩,
    screen := .blank, keypad := ⟨Vector.replicate 16 false, none⟩, awaiting := none }

/-- Does one action. Starting a record changes nothing here. -/
def act (m : RawMachine) : Action → Option (Answer × RawMachine)
  | .step => do
    let (result, m) ← step.on m
    return (.stepped result, m)
  | .execute i => do
    let (result, m) ← (execute i.raw).on m
    return (.stepped result, m)
  | .cycle keys => do
    let (result, calls, m) ← cycle m keys
    return (.cycled result calls, m)
  | .move flow => return (.done, m.move flow)
  | .tick => return (.done, { m with delay := m.delay.tick, sound := m.sound.tick })
  | .setKey number down => do
    let keypad ← setKey m.keypad number down
    return (.done, { m with keypad := keypad })
  | .toggleKey number => do
    let keypad ← toggleKey m.keypad number
    return (.done, { m with keypad := keypad })
  | .setKeys keys => do
    let keypad ← setKeys m.keypad keys
    return (.done, { m with keypad := keypad })
  | .reset => do
    match ← reset m with
    | .ok m => return (.done, m)
    | .error fault => return (.refused fault, m)
  | .startTrace => return (.done, m)

/-- The answers to a history and the machine at its end. -/
def run (m : RawMachine) : List Action → Option (List Answer × RawMachine)
  | [] => some ([], m)
  | a :: rest => do
    let (answer, m) ← act m a
    let (answers, m) ← run m rest
    return (answer :: answers, m)

end Checked
end Chip8
