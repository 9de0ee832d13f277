import Mathlib.Data.List.FinRange
import Mathlib.Data.List.Induction
import Chip8.Proofs.Checked.Operations
import Chip8.Proofs.StepRules

/-!
# Bytes that were stored last

A memory is read and written byte by byte and in blocks. An access is done as a whole if all its
bytes lie in the memory, wherever it starts, and otherwise is refused as a whole. So a read gives
for each cell the byte that the latest access to be done put there, and zero where there was none.
-/
namespace Chip8

namespace Memory

/-- What can be asked of a memory. -/
inductive Access where
  | read (address : Nat)
  | write (address : Nat) (value : UInt8)
  | readBlock (address length : Nat)
  | storeBlock (address : Nat) (data : List UInt8)

namespace Access

def address : Access → Nat
  | read address | write address _ | readBlock address _ | storeBlock address _ => address

/-- The number of cells from the address on that an access covers. -/
def length : Access → Nat
  | read _ | write .. => 1
  | readBlock _ length => length
  | storeBlock _ data => data.length

/-- The number of bytes that an access gives. -/
def given : Access → Nat
  | read _ => 1
  | readBlock _ length => length
  | write .. | storeBlock .. => 0

/-- The bytes that an access stores. -/
def data : Access → List UInt8
  | write _ value => [value]
  | storeBlock _ data => data
  | read _ | readBlock .. => []

/-- The byte that an access puts into a cell, if it is done and covers the cell. -/
def puts? (a : Access) (cell : Nat) : Option UInt8 :=
  if a.address + a.length ≤ 4096 ∧ a.address ≤ cell then a.data[cell - a.address]? else none

end Access

/-- How a store ends that was begun with some memory. -/
def stored (m : Memory) : Except Fault Memory → Except Fault (List UInt8) × Memory
  | .ok n => (.ok [], n)
  | .error fault => (.error fault, m)

/-- The bytes that an access gives or its fault, and the memory behind it. -/
def access (m : Memory) : Access → Except Fault (List UInt8) × Memory
  | .read address => ((m.read address).map fun byte => [byte], m)
  | .write address value => m.stored (m.write address value)
  | .readBlock address length => (m.readBlock address length, m)
  | .storeBlock address data => m.stored (m.storeBlock address data)

/-- A blank memory behind some accesses. -/
def after (accesses : List Access) : Memory :=
  accesses.foldl (fun m a => (m.access a).2) blank

/-- The byte that was put into a cell last; it starts at zero. -/
def latest (accesses : List Access) (cell : Nat) : UInt8 :=
  (accesses.filterMap (·.puts? cell)).getLastD 0

theorem byteAt_blank (a : Nat) : blank.byteAt a = 0 := by
  rcases Nat.lt_or_ge a 4096 with h | h
  · rw [byteAt_of_lt _ h, getElem_blank h]
  · exact byteAt_of_le _ h

/-- A memory is known from its bytes. -/
theorem ext_byteAt {m n : Memory} (h : ∀ a < 4096, m.byteAt a = n.byteAt a) : m = n := by
  obtain ⟨bytes⟩ := m
  obtain ⟨other⟩ := n
  refine congrArg Memory.mk (Vector.ext fun a ha => ?_)
  have := h a ha
  rwa [byteAt_of_lt _ ha, byteAt_of_lt _ ha] at this

/-- A byte is read as a block of one. -/
theorem read_eq (m : Memory) (address : Nat) :
    (m.read address).map (fun byte => [byte]) = m.readBlock address 1 := by
  rcases Nat.lt_or_ge address 4096 with h | h
  · rw [m.readBlock_of_le h, read, dif_pos h]
    rfl
  · rw [m.readBlock_of_lt (Nat.lt_succ_of_le h), read, dif_neg (Nat.not_lt_of_le h)]
    rfl

/-- A byte is written as a block of one. -/
theorem write_eq (m : Memory) (address : Nat) (value : UInt8) :
    m.write address value = m.storeBlock address [value] := by
  rcases Nat.lt_or_ge address 4096 with h | h
  · rw [m.storeBlock_of_le h, write, dif_pos h]
    refine congrArg Except.ok (ext_byteAt fun a ha => ?_)
    rw [byteAt_overlay _ _ _ ha, byteAt_of_lt _ ha, byteAt_of_lt _ ha, Vector.getElem_set]
    grind
  · rw [m.storeBlock_of_lt (Nat.lt_succ_of_le h), write, dif_neg (Nat.not_lt_of_le h)]
    rfl

/-- Every access is one of a block: it reads one, or it stores one. -/
theorem access_cases (m : Memory) (a : Access) :
    (a.data = [] ∧ a.given = a.length ∧ m.access a = (m.readBlock a.address a.length, m)) ∨
      a.given = 0 ∧ a.length = a.data.length ∧
        m.access a = m.stored (m.storeBlock a.address a.data) := by
  cases a with
  | read address => exact .inl ⟨rfl, rfl, by rw [access, read_eq]; rfl⟩
  | write address value => exact .inr ⟨rfl, rfl, by rw [access, write_eq]; rfl⟩
  | readBlock address length => exact .inl ⟨rfl, rfl, rfl⟩
  | storeBlock address data => exact .inr ⟨rfl, rfl, rfl⟩

theorem readBlock_bytes (m : Memory) {address length : Nat} (h : address + length ≤ 4096) :
    m.readBlock address length =
      .ok ((List.range length).map fun i => m.byteAt (address + i)) := by
  rw [m.readBlock_of_le h, List.ofFn_eq_map, ← List.map_coe_finRange_eq_range, List.map_map]
  refine congrArg Except.ok (List.map_congr_left fun i _ => (m.byteAt_of_lt ?_).symm)
  have := i.isLt
  omega

section Access

variable {m : Memory} {a : Access}

/-- An access whose cells do not all lie in the memory is refused and changes nothing. -/
theorem access_of_lt (h : 4096 < a.address + a.length) :
    m.access a = (.error (.outOfRange a.address a.length capacity), m) := by
  rcases m.access_cases a with ⟨-, -, he⟩ | ⟨-, hlength, he⟩
  · rw [he, m.readBlock_of_lt h]
  · rw [hlength] at h
    rw [he, hlength, m.storeBlock_of_lt h]
    rfl

/-- An access whose cells all lie in the memory is done. -/
theorem access_of_le (h : a.address + a.length ≤ 4096) :
    (m.access a).1 = .ok ((List.range a.given).map fun i => m.byteAt (a.address + i)) := by
  rcases m.access_cases a with ⟨-, hgiven, he⟩ | ⟨hgiven, hlength, he⟩
  · rw [he, hgiven, m.readBlock_bytes h]
  · rw [hlength] at h
    rw [he, hgiven, m.storeBlock_of_le h]
    rfl

/-- An access leaves each cell as it is that it puts nothing into. -/
theorem byteAt_access (cell : Nat) :
    (m.access a).2.byteAt cell = (a.puts? cell).getD (m.byteAt cell) := by
  by_cases hfit : a.address + a.length ≤ 4096
  · rcases m.access_cases a with ⟨hdata, -, he⟩ | ⟨-, hlength, he⟩
    · simp [he, Access.puts?, hdata]
    · rw [hlength] at hfit
      have hstore := m.storeBlock_of_le hfit
      rw [he, hstore, Access.puts?, hlength]
      refine (byteAt_of_storeBlock hstore cell).trans ?_
      grind
  · have hnone : a.puts? cell = none := if_neg fun h => hfit h.1
    rw [access_of_lt (Nat.lt_of_not_le hfit), hnone]
    rfl

end Access

/-- Behind any accesses each cell holds what was put there last. -/
theorem byteAt_after (accesses : List Access) (cell : Nat) :
    (after accesses).byteAt cell = latest accesses cell := by
  induction accesses using List.reverseRecOn with
  | nil => exact byteAt_blank cell
  | append_singleton accesses a ih =>
    have hlatest : latest (accesses ++ [a]) cell = (a.puts? cell).getD (latest accesses cell) := by
      cases h : a.puts? cell <;> simp [latest, List.filterMap_append, h]
    rw [after, List.foldl_append, hlatest, ← ih]
    exact byteAt_access cell

/-- Behind any accesses, an access is done if all its cells lie in the memory, where no sum wraps
around, and is refused without a change otherwise. If it is done, it gives for each cell that it
reads the byte that was put there last. -/
theorem reads_latest (accesses : List Access) (a : Access) :
    let m := after accesses
    ((∃ bytes, (m.access a).1 = .ok bytes) ↔ a.address + a.length ≤ 4096) ∧
    (Checked.within a.address a.length = true ↔ a.address + a.length ≤ 4096) ∧
    (¬ a.address + a.length ≤ 4096 →
      m.access a = (.error (.outOfRange a.address a.length 4096), m)) ∧
    (a.address + a.length ≤ 4096 →
      (m.access a).1 = .ok ((List.range a.given).map fun i => latest accesses (a.address + i)) ∧
      ∀ cell, (m.access a).2.byteAt cell = (a.puts? cell).getD (latest accesses cell)) ∧
    ∀ cell (h : cell < 4096), m.bytes.get ⟨cell, h⟩ = latest accesses cell := by
  intro m
  have hbytes : m.byteAt = latest accesses := funext (byteAt_after accesses)
  refine ⟨⟨?_, fun h => ⟨_, access_of_le h⟩⟩, Checked.within_iff, ?_, fun h => ⟨?_, ?_⟩, ?_⟩
  · rintro ⟨bytes, hb⟩
    by_contra hlt
    rw [access_of_lt (Nat.lt_of_not_le hlt)] at hb
    cases hb
  · exact fun h => access_of_lt (Nat.lt_of_not_le h)
  · rw [← hbytes]
    exact access_of_le h
  · rw [← hbytes]
    exact byteAt_access
  · intro cell h
    rw [← hbytes, m.byteAt_of_lt h]
    rfl

example : latest [.storeBlock 4094 [1, 2], .storeBlock 4095 [7, 8], .write 4094 3] 4095 = 2 := by
  decide

end Memory
end Chip8
