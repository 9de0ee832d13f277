import Chip8.Fault

/-!
# Memory

The machine has 4096 bytes. Each access names a place and a length and either lies within the memory
as a whole or is refused as a whole, whatever the address: a refused store changes nothing.
-/
namespace Chip8

/-- The bytes of the machine, all of them in one vector. -/
structure Memory where
  bytes : Vector UInt8 4096
  deriving DecidableEq

namespace Memory

def capacity : Nat := 4096

def blank : Memory := ⟨Vector.replicate 4096 0⟩

def read (m : Memory) (address : Nat) : Except Fault UInt8 :=
  if h : address < 4096 then .ok m.bytes[address] else .error (.outOfRange address 1 capacity)

def write (m : Memory) (address : Nat) (value : UInt8) : Except Fault Memory :=
  if h : address < 4096 then .ok ⟨m.bytes.set address value⟩
  else .error (.outOfRange address 1 capacity)

/-- The bytes from an address on; a block of no bytes may start at the very end. -/
def readBlock (m : Memory) (address length : Nat) : Except Fault (List UInt8) :=
  if h : address + length ≤ 4096 then
    .ok (List.ofFn fun i : Fin length => m.bytes[address + i])
  else .error (.outOfRange address length capacity)

/-- The memory with some bytes laid over it from an address on, as far as they fit. -/
def overlay (m : Memory) (address : Nat) (data : List UInt8) : Memory :=
  let block := data.toArray
  ⟨Vector.ofFn fun i =>
    if address ≤ i then block.getD (i - address) m.bytes[i] else m.bytes[i]⟩

/-- Stores a block where all of it fits. -/
def storeBlock (m : Memory) (address : Nat) (data : List UInt8) : Except Fault Memory :=
  if address + data.length ≤ 4096 then .ok (m.overlay address data)
  else .error (.outOfRange address data.length capacity)

theorem getElem_blank {a : Nat} (h : a < 4096) : blank.bytes[a] = 0 := by
  simp [blank]

/-- A stored block reads back, and the other bytes are as before. -/
theorem getElem_overlay (m : Memory) (address : Nat) (data : List UInt8) {a : Nat} (h : a < 4096) :
    (m.overlay address data).bytes[a] =
      if address ≤ a then data.getD (a - address) m.bytes[a] else m.bytes[a] := by
  simp [overlay, Array.getD_eq_getD_getElem?, List.getD_eq_getElem?_getD]

theorem length_of_readBlock {m : Memory} {address length : Nat} {block : List UInt8}
    (h : m.readBlock address length = .ok block) : block.length = length := by
  unfold readBlock at h
  split at h
  · cases h
    exact List.length_ofFn
  · cases h

/-- A block can be read exactly where it lies within the memory. -/
theorem readBlock_of_le (m : Memory) {address length : Nat} (h : address + length ≤ 4096) :
    m.readBlock address length = .ok (List.ofFn fun i : Fin length => m.bytes[address + i]) :=
  dif_pos h

theorem readBlock_of_lt (m : Memory) {address length : Nat} (h : 4096 < address + length) :
    m.readBlock address length = .error (.outOfRange address length capacity) :=
  dif_neg (by omega)

/-- A block can be stored exactly where it lies within the memory. -/
theorem storeBlock_of_le (m : Memory) {address : Nat} {data : List UInt8}
    (h : address + data.length ≤ 4096) : m.storeBlock address data = .ok (m.overlay address data) :=
  if_pos h

theorem storeBlock_of_lt (m : Memory) {address : Nat} {data : List UInt8}
    (h : 4096 < address + data.length) :
    m.storeBlock address data = .error (.outOfRange address data.length capacity) :=
  if_neg (by omega)

theorem le_of_storeBlock {m memory : Memory} {address : Nat} {data : List UInt8}
    (h : m.storeBlock address data = .ok memory) : address + data.length ≤ 4096 := by
  unfold storeBlock at h
  split at h
  · assumption
  · cases h

end Memory
end Chip8
