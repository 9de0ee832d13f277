import Mathlib.Algebra.Group.Nat.Defs
import Chip8.Memory

/-!
# Operations that check their domains

The operations on bare numbers and blocks that are not defined everywhere, each of which gives a
result on its domain and nothing elsewhere: sums and products have to fit a width, differences must
not fall below zero, divisors must not be zero, shifts stay below the width, indices and slices lie
within the block and a copy is as long as the place it goes to.
-/
namespace Chip8.Checked

/-! ## Numbers -/

def add (width a b : Nat) : Option Nat := if a + b < 2 ^ width then some (a + b) else none

def mul (width a b : Nat) : Option Nat := if a * b < 2 ^ width then some (a * b) else none

def sub (a b : Nat) : Option Nat := if b ≤ a then some (a - b) else none

def div (a b : Nat) : Option Nat := if b = 0 then none else some (a / b)

def rem (a b : Nat) : Option Nat := if b = 0 then none else some (a % b)

/-- The bits shifted beyond the width are lost. -/
def shiftLeft (width a count : Nat) : Option Nat :=
  if count < width then some ((a <<< count) % 2 ^ width) else none

def shiftRight (width a count : Nat) : Option Nat :=
  if count < width then some (a >>> count) else none

/-- A number that is put into fewer bits and has to fit them. -/
def narrow (width a : Nat) : Option Nat := if a < 2 ^ width then some a else none

section Numbers

variable {width a b count : Nat}

theorem add_of_lt (h : a + b < 2 ^ width) : add width a b = some (a + b) := if_pos h

theorem mul_of_lt (h : a * b < 2 ^ width) : mul width a b = some (a * b) := if_pos h

theorem sub_of_le (h : b ≤ a) : sub a b = some (a - b) := if_pos h

theorem div_of_pos (h : 0 < b) : div a b = some (a / b) := if_neg (Nat.ne_of_gt h)

theorem rem_of_pos (h : 0 < b) : rem a b = some (a % b) := if_neg (Nat.ne_of_gt h)

theorem shiftLeft_of_lt (h : count < width) :
    shiftLeft width a count = some ((a <<< count) % 2 ^ width) := if_pos h

theorem shiftRight_of_lt (h : count < width) : shiftRight width a count = some (a >>> count) :=
  if_pos h

theorem narrow_of_lt (h : a < 2 ^ width) : narrow width a = some a := if_pos h

end Numbers

/-! ## Blocks -/

section Blocks

variable {α : Type} {n : Nat}

def lookup (block : Vector α n) (i : Nat) : Option α := block[i]?

def replace (block : Vector α n) (i : Nat) (value : α) : Option (Vector α n) :=
  if h : i < n then some (block.set i value) else none

/-- The values from a place up to another one, without the latter. -/
def slice (block : Vector α n) (first last : Nat) : Option (List α) :=
  if first ≤ last ∧ last ≤ n then some ((block.toList.drop first).take (last - first)) else none

/-- Copies values to the slice between two places, which has to be as long as they are. -/
def paste (block : Vector α n) (first last : Nat) (values : List α) : Option (Vector α n) :=
  if first ≤ last ∧ last ≤ n ∧ values.length = last - first then
    some (Vector.ofFn fun i =>
      if first ≤ i then values.getD (i - first) (block.get i) else block.get i)
  else none

/-- The values in groups of a size, of which the last one may be smaller. -/
def chunks (size : Nat) (values : List α) : Option (List (List α)) :=
  if size = 0 then none
  else some ((List.range ((values.length + (size - 1)) / size)).map fun i =>
    (values.drop (i * size)).take size)

theorem lookup_of_fin (block : Vector α n) (i : Fin n) : lookup block i = some (block.get i) := by
  simp [lookup, Vector.get]

theorem replace_of_fin (block : Vector α n) (i : Fin n) (value : α) :
    replace block i value = some (block.set i value) := dif_pos i.isLt

theorem slice_of_le (block : Vector α n) {first last : Nat} (h : first ≤ last) (hl : last ≤ n) :
    slice block first last = some ((block.toList.drop first).take (last - first)) :=
  if_pos ⟨h, hl⟩

theorem chunks_of_length {size count : Nat} {values : List α} (hs : 0 < size)
    (h : values.length = count * size) :
    chunks size values = some (List.ofFn fun i : Fin count =>
      (values.drop (i * size)).take size) := by
  have hcount : (values.length + (size - 1)) / size = count := by
    rw [h, Nat.add_comm, Nat.add_mul_div_right _ _ hs, Nat.div_eq_of_lt (by omega), Nat.zero_add]
  rw [chunks, if_neg (Nat.ne_of_gt hs), hcount]
  refine congrArg some (List.ext_getElem ?_ fun i _ _ => ?_)
  · simp
  · simp

theorem paste_of_le (block : Vector α n) {first last : Nat} {values : List α} (hl : last ≤ n)
    (h : first + values.length = last) :
    paste block first last values = some (Vector.ofFn fun i =>
      if first ≤ i then values.getD (i - first) (block.get i) else block.get i) :=
  if_pos (by omega)

end Blocks

/-! ## Loops -/

/-- A loop whose passes are all defined, where some of them change nothing, runs through the others
one after the other. -/
theorem foldlM_of_filter {α β : Type} {f : β → α → Option β} {g : β → α → β} {p : α → Bool}
    {l : List α} (h : ∀ a ∈ l, ∀ b, f b a = some (if p a then g b a else b)) (b : β) :
    l.foldlM f b = some ((l.filter p).foldl g b) := by
  induction l generalizing b with
  | nil => rfl
  | cons a l ih =>
    obtain ⟨ha, hl⟩ := List.forall_mem_cons.mp h
    rw [List.foldlM_cons, ha, Option.bind_eq_bind, Option.bind_some, ih hl]
    cases hp : p a <;> simp [hp]

/-- A loop whose passes are all defined is the loop without the checks. -/
theorem foldlM_of_forall {α β : Type} {f : β → α → Option β} {g : β → α → β} {l : List α}
    (h : ∀ a ∈ l, ∀ b, f b a = some (g b a)) (b : β) : l.foldlM f b = some (l.foldl g b) := by
  have hall := foldlM_of_filter (p := fun _ => true) h b
  rwa [List.filter_eq_self.mpr fun _ _ => rfl] at hall

/-- Values that are numbered from zero on. -/
theorem zipIdx_ofFn {α : Type} {n : Nat} (f : Fin n → α) :
    (List.ofFn f).zipIdx = (List.finRange n).map fun i => (f i, i.val) := by
  apply List.ext_getElem
  · simp
  · intro i _ _
    simp

theorem zipIdx_toList {α : Type} {n : Nat} (block : Vector α n) :
    block.toList.zipIdx = (List.finRange n).map fun i => (block.get i, i.val) := by
  have h : block.toList = List.ofFn block.get := by
    apply List.ext_getElem
    · simp
    · intro i _ _
      simp [Vector.get]
  rw [h, zipIdx_ofFn]

theorem mapM_of_forall {α β : Type} {f : α → Option β} {g : α → β} {l : List α}
    (h : ∀ a ∈ l, f a = some (g a)) : l.mapM f = some (l.map g) := by
  induction l with
  | nil => rfl
  | cons a l ih =>
    obtain ⟨ha, hl⟩ := List.forall_mem_cons.mp h
    rw [List.mapM_cons, ha, ih hl]
    rfl

/-! ## The memory -/

/-- Whether a block lies within the memory, also where its end has no number. -/
def within (address length : Nat) : Bool :=
  match add 64 address length with
  | some last => last ≤ Memory.capacity
  | none => false

theorem within_iff {address length : Nat} :
    within address length = true ↔ address + length ≤ 4096 := by
  unfold within add Memory.capacity
  split
  · rename_i last h
    split at h
    · obtain rfl := Option.some.inj h
      exact decide_eq_true_iff
    · cases h
  · rename_i h
    split at h
    · cases h
    · rename_i hlt
      have : 4096 < 2 ^ 64 := by decide
      simp only [Bool.false_eq_true, false_iff]
      omega

def readBlock (m : Memory) (address length : Nat) : Option (Except Fault (List UInt8)) :=
  if within address length then do
    let last ← add 64 address length
    let block ← slice m.bytes address last
    return .ok block
  else return .error (.outOfRange address length Memory.capacity)

def storeBlock (m : Memory) (address : Nat) (data : List UInt8) : Option (Except Fault Memory) :=
  if within address data.length then do
    let last ← add 64 address data.length
    let bytes ← paste m.bytes address last data
    return .ok ⟨bytes⟩
  else return .error (.outOfRange address data.length Memory.capacity)

theorem readBlock_eq (m : Memory) (address length : Nat) :
    readBlock m address length = some (m.readBlock address length) := by
  unfold readBlock
  split
  · rename_i h
    rw [within_iff] at h
    have hblock : (m.bytes.toList.drop address).take (address + length - address) =
        List.ofFn fun i : Fin length => m.bytes.get ⟨address + i, by omega⟩ := by
      apply List.ext_getElem
      · simp
        omega
      · intro i _ _
        simp [Vector.get]
    rw [add_of_lt (by omega), m.readBlock_of_le h, Option.bind_eq_bind, Option.bind_some,
      slice_of_le m.bytes (Nat.le_add_right ..) h, hblock]
    rfl
  · rename_i h
    rw [within_iff] at h
    rw [m.readBlock_of_lt (by omega)]
    rfl

theorem storeBlock_eq (m : Memory) (address : Nat) (data : List UInt8) :
    storeBlock m address data = some (m.storeBlock address data) := by
  unfold storeBlock
  split
  · rename_i h
    rw [within_iff] at h
    have hbytes : (Vector.ofFn fun i : Fin 4096 =>
        if address ≤ i then data.getD (i - address) (m.bytes.get i) else m.bytes.get i) =
        (m.overlay address data).bytes := by
      ext i hi : 1
      rw [m.getElem_overlay address data hi]
      simp [Vector.get]
    rw [add_of_lt (by omega), m.storeBlock_of_le h, Option.bind_eq_bind, Option.bind_some,
      paste_of_le m.bytes h rfl, hbytes]
    rfl
  · rename_i h
    rw [within_iff] at h
    rw [m.storeBlock_of_lt (by omega)]
    rfl

end Chip8.Checked
