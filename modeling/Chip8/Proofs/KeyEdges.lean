import Chip8.Proofs.HistoryInvariant

/-!
# Keys that go down

A key goes down when it is put down and was not held before. The keypad remembers the last key that
went down: after any action it is the last one that went down in it, or the one remembered before.
-/
namespace Chip8

namespace Keypad

/-- The key that goes down when a key is put down or released, if it was not held before. -/
def edge (k : Keypad) (number : Nat) (down : Bool) : List Key :=
  if down ∧ ¬ k.isHeld number then [key number] else []

/-- The keys that go down when the keys of a list are put one after the other. -/
def edgesOf (keys : Vector Bool 16) : Keypad → List Key → List Key
  | _, [] => []
  | k, i :: rest => k.edge i (keys.get i) ++ edgesOf keys (k.set i (keys.get i)) rest

theorem pressed_set_edge (k : Keypad) (number : Nat) (down : Bool) :
    (k.set number down).pressed = (k.edge number down).getLast?.or k.pressed := by
  rw [pressed_set, edge]
  by_cases h : down = true ∧ k.isHeld number = false
  · rw [if_pos h, if_pos ⟨h.1, Bool.eq_false_iff.mp h.2⟩]
    rfl
  · rw [if_neg h, if_neg fun hd => h ⟨hd.1, Bool.eq_false_iff.mpr hd.2⟩]
    rfl

theorem pressed_foldl_set (keys : Vector Bool 16) (k : Keypad) (l : List Key) :
    (l.foldl (fun k (i : Key) => k.set i (keys.get i)) k).pressed =
      (k.edgesOf keys l).getLast?.or k.pressed := by
  induction l generalizing k with
  | nil => rfl
  | cons i rest ih =>
    rw [List.foldl_cons, ih, pressed_set_edge, edgesOf, List.getLast?_append, Option.or_assoc]

theorem pressed_setAll (k : Keypad) (keys : Vector Bool 16) :
    (k.setAll keys).pressed = (k.edgesOf keys (List.finRange 16)).getLast?.or k.pressed :=
  pressed_foldl_set keys k (List.finRange 16)

end Keypad

namespace Machine

/-- The keys that go down in an action, in order. -/
def edges (m : Machine) : Action → List Key
  | .setKey number down => m.keypad.edge number down
  | .toggleKey number => m.keypad.edge number (!m.keypad.isHeld number)
  | .setKeys keys | .cycle keys => m.keypad.edgesOf keys (List.finRange 16)
  | _ => []

/-- The keys that go down in a history, in order. -/
def presses (m : Machine) : List Action → List Key
  | [] => []
  | a :: rest => m.edges a ++ (m.act a).2.presses rest

theorem presses_append (m : Machine) (first rest : List Action) :
    m.presses (first ++ rest) = m.presses first ++ (m.after first).presses rest := by
  induction first generalizing m with
  | nil => rfl
  | cons a first ih =>
    rw [List.cons_append, presses, presses, ih, List.append_assoc]
    rfl

theorem presses_eq_nil_of_append {m : Machine} {first rest : List Action}
    (h : m.presses (first ++ rest) = []) : m.presses first = [] := by
  rw [presses_append] at h
  exact (List.append_eq_nil_iff.mp h).1

/-- What the keypad remembers after an action that takes no step. -/
theorem pressed_act {m : Machine} {a : Action} (h : a.runs) (hs : a ≠ .step) :
    (m.act a).2.keypad.pressed = (m.edges a).getLast?.or m.keypad.pressed := by
  cases a with
  | step => exact absurd rfl hs
  | tick => rfl
  | setKey number down => exact m.keypad.pressed_set_edge number down
  | toggleKey number => exact m.keypad.pressed_set_edge number (!m.keypad.isHeld number)
  | setKeys keys => exact Keypad.pressed_setAll m.keypad keys
  | _ => cases h

end Machine
end Chip8
