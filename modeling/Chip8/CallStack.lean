import Chip8.Fault

/-!
# The call stack

Up to sixteen return addresses, the oldest first. A push onto a full stack and a pop from an empty
one are refused; a push that is not refused is undone by the next pop.
-/
namespace Chip8

/-- The return addresses of the open calls. -/
structure CallStack where
  entries : List UInt16
  length_le : entries.length ≤ 16

namespace CallStack

def capacity : Nat := 16

def empty : CallStack := ⟨[], by decide⟩

/-- Puts an address behind the others. -/
def push (s : CallStack) (address : UInt16) : Except Fault CallStack :=
  if h : s.entries.length < 16 then
    .ok ⟨s.entries ++ [address], by rw [List.length_append]; exact h⟩
  else .error .stackOverflow

/-- The newest entry and the stack without it. -/
def pop (s : CallStack) : Except Fault (UInt16 × CallStack) :=
  match s.entries.getLast? with
  | none => .error .stackUnderflow
  | some address =>
    .ok (address, ⟨s.entries.dropLast, by have := s.length_le; rw [List.length_dropLast]; omega⟩)

@[ext]
theorem ext {s t : CallStack} (h : s.entries = t.entries) : s = t := by
  cases s; cases t; cases h; rfl

instance : DecidableEq CallStack := fun s t =>
  decidable_of_iff (s.entries = t.entries) ⟨ext, fun h => h ▸ rfl⟩

/-- A return comes back behind the last call. -/
theorem pop_of_push {s t : CallStack} {address : UInt16} (h : s.push address = .ok t) :
    t.pop = .ok (address, s) := by
  unfold push at h
  split at h
  · cases h
    simp [pop]
  · cases h

theorem push_cases (s : CallStack) (address : UInt16) :
    (s.entries.length = 16 ∧ s.push address = .error .stackOverflow) ∨
      ∃ t : CallStack, t.entries = s.entries ++ [address] ∧ s.push address = .ok t := by
  have hl := s.length_le
  unfold push
  split
  · exact .inr ⟨_, rfl, rfl⟩
  · exact .inl ⟨by omega, rfl⟩

theorem pop_cases (s : CallStack) :
    (s.entries = [] ∧ s.pop = .error .stackUnderflow) ∨
      ∃ (address : UInt16) (t : CallStack),
        s.entries = t.entries ++ [address] ∧ s.pop = .ok (address, t) := by
  unfold pop
  split
  · rename_i h
    exact .inl ⟨List.getLast?_eq_none_iff.mp h, rfl⟩
  · rename_i address h
    obtain ⟨older, ho⟩ := List.getLast?_eq_some_iff.mp h
    refine .inr ⟨address, _, ?_, rfl⟩
    change s.entries = s.entries.dropLast ++ [address]
    rw [ho, List.dropLast_concat]

end CallStack
end Chip8
