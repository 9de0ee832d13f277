import Chip8.Machine.Basic

/-!
# Executing an instruction

The effect of every instruction, as a computation on the machine that may be refused. A refusal does
not take back what was changed before it, so an instruction that must not be half done has to be
refused before its first change. The program counter is expected behind the instruction.
-/
namespace Chip8

/-- A computation on the machine. What it changed before it was refused stays changed. -/
abbrev Exec := ExceptT Fault (StateM Machine)

namespace Exec

variable {α β : Type}

/-- How a computation on a machine ends, and the machine it leaves behind. -/
def on (e : Exec α) (m : Machine) : Except Fault α × Machine := e.run.run m

@[simp] theorem on_pure (a : α) (m : Machine) : (pure a : Exec α).on m = (.ok a, m) := rfl

@[simp] theorem on_get (m : Machine) : (get : Exec Machine).on m = (.ok m, m) := rfl

@[simp] theorem on_set (m n : Machine) : (set n : Exec PUnit).on m = (.ok ⟨⟩, n) := rfl

@[simp] theorem on_modify (f : Machine → Machine) (m : Machine) :
    (modify f : Exec PUnit).on m = (.ok ⟨⟩, f m) := rfl

@[simp] theorem on_lift (result : Except Fault α) (m : Machine) :
    (liftM result : Exec α).on m = (result, m) := rfl

/-- A computation that is refused leaves its machine to no other. -/
theorem on_bind (e : Exec α) (f : α → Exec β) (m : Machine) :
    (e >>= f).on m =
      match e.on m with
      | (.ok a, n) => (f a).on n
      | (.error fault, n) => (.error fault, n) := by
  rcases he : e.on m with ⟨result, n⟩
  change ExceptT.bindCont f (e.on m).1 (e.on m).2 = _
  rw [he]
  cases result <;> rfl

end Exec

/-- What an instruction asks for behind its effect. -/
structure Outcome where
  flow : Flow := .next
  signal : Signal := .quiet
  deriving DecidableEq, Repr

namespace Machine

def register (m : Machine) (x : Register) : UInt8 := m.registers[x]

def setRegister (m : Machine) (x : Register) (value : UInt8) : Machine :=
  { m with registers := m.registers.set x value }

theorem register_setRegister (m : Machine) (x r : Register) (value : UInt8) :
    (m.setRegister x value).register r = if r = x then value else m.register r := by
  by_cases h : r = x
  · subst h
    simp [register, setRegister]
  · have hv : x.val ≠ r.val := fun he => h (Fin.ext he.symm)
    simp [register, setRegister, h, hv]

/-- Sets the flag register to one or zero. -/
def setFlag (m : Machine) (value : Bool) : Machine := m.setRegister flag value.toUInt8

/-- Whether a condition holds. A register may name a key by any number, which wraps around. -/
def holds (m : Machine) : Condition → Bool
  | .equal x kk => m.register x == kk
  | .unequal x kk => m.register x != kk
  | .same x y => m.register x == m.register y
  | .different x y => m.register x != m.register y
  | .held x => m.keypad.isHeld (m.register x).toNat
  | .released x => !m.keypad.isHeld (m.register x).toNat

/-- The flag is written behind the result, so it wins where both go to one register. -/
def arithmetic (m : Machine) (op : Alu.Operation) (x y : Register) : Machine :=
  let a := m.register x
  let b := m.register y
  let m := m.setRegister x (op.result a b)
  match op.flag? a b with
  | some f => m.setFlag f
  | none => m

/-- Takes the next random byte and loads it, masked. -/
def loadRandom (m : Machine) (x : Register) (mask : UInt8) : Machine :=
  let (byte, random) := m.random.next
  { m with random := random }.setRegister x (mask &&& byte)

/-- Starts to wait for a key. Presses up to now do not count. -/
def awaitKey (m : Machine) (x : Register) : Machine :=
  { m with keypad := m.keypad.takePress.2, awaiting := some x }

/-- The hundreds, tens and ones of a byte. -/
def decimalDigits (value : UInt8) : List UInt8 := [value / 100, value / 10 % 10, value % 10]

def registersTo (m : Machine) (last : Register) : List UInt8 :=
  m.registers.toList.take (last.val + 1)

/-- Puts the address behind the instruction onto the call stack. -/
def enter : Exec Unit := do
  let m ← get
  let stack ← m.stack.push m.pc
  set { m with stack := stack }

/-- Takes the newest address from the call stack. -/
def leave : Exec UInt16 := do
  let m ← get
  let (target, stack) ← m.stack.pop
  set { m with stack := stack }
  return target

/-- The sprite is read as a whole before a pixel is toggled. -/
def draw (x y : Register) (rows : Nat) : Exec Unit := do
  let m ← get
  let sprite ← m.memory.readBlock m.index.toNat rows
  let pixels := Sprite.pixels sprite (m.register x).toNat (m.register y).toNat
  let (met, screen) := m.screen.toggleAll pixels
  set ({ m with screen := screen }.setFlag met)

def store (data : List UInt8) : Exec Unit := do
  let m ← get
  let memory ← m.memory.storeBlock m.index.toNat data
  set { m with memory := memory }

def fill (last : Register) : Exec Unit := do
  let m ← get
  let block ← m.memory.readBlock m.index.toNat (last.val + 1)
  set { m with registers := Vector.ofFn fun i => block.getD i (m.register i) }

def effect : Instruction → Exec Outcome
  | .clear => do
    modify fun m => { m with screen := .blank }
    return { signal := .draw }
  | .ret => do
    let target ← leave
    return { flow := .jump target }
  | .jump target => return { flow := .jump (UInt16.ofNat target) }
  | .call target => do
    enter
    return { flow := .jump (UInt16.ofNat target) }
  | .skip c => do
    let m ← get
    return { flow := .skipIf (m.holds c) }
  | .load x kk => do
    modify fun m => m.setRegister x kk
    return {}
  | .add x kk => do
    modify fun m => m.setRegister x (m.register x + kk)
    return {}
  | .arithmetic op x y => do
    modify fun m => m.arithmetic op x y
    return {}
  | .loadIndex a => do
    modify fun m => { m with index := UInt16.ofNat a }
    return {}
  | .jumpOffset base => do
    let m ← get
    return { flow := .jump (UInt16.ofNat (base + (m.register 0).toNat)) }
  | .random x mask => do
    modify fun m => m.loadRandom x mask
    return {}
  | .draw x y rows => do
    draw x y rows
    return { signal := .draw }
  | .readDelay x => do
    modify fun m => m.setRegister x m.delay.value
    return {}
  | .awaitKey x => do
    modify fun m => m.awaitKey x
    return { flow := .hold, signal := .wait }
  | .setDelay x => do
    modify fun m => { m with delay := ⟨m.register x⟩ }
    return {}
  | .setSound x => do
    modify fun m => { m with sound := ⟨m.register x⟩ }
    return {}
  | .addIndex x => do
    modify fun m => { m with index := m.index + (m.register x).toUInt16 }
    return {}
  | .loadGlyph x => do
    modify fun m => { m with index := Font.glyph (m.register x) }
    return {}
  | .storeDigits x => do
    let m ← get
    store (decimalDigits (m.register x))
    return {}
  | .storeRegisters last => do
    let m ← get
    store (m.registersTo last)
    return {}
  | .fillRegisters last => do
    fill last
    return {}

/-- Executes an instruction and moves the program counter on. -/
def execute (i : Instruction) : Exec Signal := do
  let outcome ← effect i
  modify fun m => m.move outcome.flow
  return outcome.signal

end Machine
end Chip8
