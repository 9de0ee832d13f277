import Mathlib.Data.List.Induction
import Chip8.Proofs.KeyEdges

/-!
# Presses that are reported

A keypad is told about its keys one by one or all at once, and asked for the last press. Each key is
as it was put last, whatever became of the others. A question is answered by the latest press since
the one before, and a press is what brings a key that is up down: a release and a key that is held
already are none. So no press is reported twice, and one is lost only to a later one.
-/
namespace Chip8

/-- What befalls a keypad, key by key. -/
inductive KeyEvent where
  | put (key : Key) (down : Bool)
  | invert (key : Key)
  /-- The last press is asked for. -/
  | take
  deriving DecidableEq, Repr

namespace KeyEvent

/-- Whether a key is held behind an event. -/
def leaves (e : KeyEvent) (key : Key) (held : Bool) : Bool :=
  match e with
  | put other down => if other = key then down else held
  | invert other => if other = key then !held else held
  | take => held

/-- Whether a key is held after some events: as it was put last, and inverted since then. -/
def level (events : List KeyEvent) (key : Key) : Bool :=
  events.foldl (fun held e => e.leaves key held) false

/-- The event at a place brings a key down. -/
def GoesDown (events : List KeyEvent) (t : Nat) (key : Key) : Prop :=
  t < events.length ∧ level (events.take t) key = false ∧ level (events.take (t + 1)) key = true

/-- A key went down at a place behind which no key went down and nothing was asked. -/
structure Pending (events : List KeyEvent) (t : Nat) (key : Key) : Prop where
  press : GoesDown events t key
  latest : ∀ u other, GoesDown events u other → u ≤ t
  untaken : ∀ u, events[u]? = some .take → u ≤ t

section Events

variable {events : List KeyEvent} {e : KeyEvent} {t u : Nat} {key other : Key}

theorem level_append_singleton (events : List KeyEvent) (e : KeyEvent) (key : Key) :
    level (events ++ [e]) key = e.leaves key (level events key) := by
  simp [level]

/-- An event brings down one key at most. -/
theorem eq_of_leaves (h : e.leaves key false = true) (ho : e.leaves other false = true) :
    key = other := by
  cases e <;> simp_all [leaves]

theorem goesDown_append_singleton :
    GoesDown (events ++ [e]) t key ↔
      GoesDown events t key ∨
        t = events.length ∧ level events key = false ∧ e.leaves key false = true := by
  rcases Nat.lt_trichotomy t events.length with h | rfl | h
  · simp [GoesDown, List.take_append_of_le_length, h, Nat.le_of_lt h, Nat.ne_of_lt h,
      Nat.lt_succ_of_lt h, Nat.succ_le_of_lt h]
  · have htake : (events ++ [e]).take (events.length + 1) = events ++ [e] :=
      List.take_of_length_le (by simp)
    simp only [GoesDown, htake, level_append_singleton, List.take_left, List.length_append,
      List.length_singleton, Nat.lt_irrefl, false_and, false_or, true_and, Nat.lt_succ_self]
    exact and_congr_right fun h => by rw [h]
  · have : events.length + 1 ≤ t := h
    simp [GoesDown, Nat.ne_of_gt h, Nat.not_lt_of_gt h, Nat.not_lt_of_le this]

theorem take_append_singleton :
    (events ++ [e])[t]? = some .take ↔
      events[t]? = some .take ∨ t = events.length ∧ e = .take := by
  rcases Nat.lt_trichotomy t events.length with h | rfl | h
  · rw [List.getElem?_append_left h]
    simp [Nat.ne_of_lt h]
  · simp
  · have hbehind : (events ++ [e])[t]? = none :=
      List.getElem?_eq_none (by rw [List.length_append]; exact h)
    rw [hbehind, List.getElem?_eq_none (Nat.le_of_lt h)]
    simp [Nat.ne_of_gt h]

end Events

/-- What is remembered of the presses: the pending one, or none when each of them was asked for. -/
def Remembered (events : List KeyEvent) : Option Key → Prop
  | some key => ∃ t, Pending events t key
  | none => ∀ t key, GoesDown events t key → ∃ u, t < u ∧ events[u]? = some .take

section Remembered

variable {events : List KeyEvent} {e : KeyEvent} {t u : Nat} {key other : Key}

/-- At each place one key at most goes down. -/
theorem GoesDown.unique (h : GoesDown events t key) (ho : GoesDown events t other) :
    key = other := by
  obtain ⟨ht, hup, hdown⟩ := h
  obtain ⟨-, hother, hdownOther⟩ := ho
  rw [List.take_succ_eq_append_getElem ht, level_append_singleton] at hdown hdownOther
  rw [hup] at hdown
  rw [hother] at hdownOther
  exact eq_of_leaves hdown hdownOther

theorem Pending.unique (h : Pending events t key) (ho : Pending events u other) : key = other := by
  obtain rfl : t = u := Nat.le_antisymm (ho.latest t key h.press) (h.latest u other ho.press)
  exact h.press.unique ho.press

theorem Remembered.eq_some_iff {pressed : Option Key} (h : Remembered events pressed) :
    pressed = some key ↔ ∃ t, Pending events t key := by
  constructor
  · rintro rfl
    exact h
  · rintro ⟨t, ht⟩
    cases pressed with
    | none =>
      obtain ⟨u, hu, htake⟩ := h t key ht.press
      exact absurd (ht.untaken u htake) (Nat.not_le_of_lt hu)
    | some other =>
      obtain ⟨u, hu⟩ := h
      exact congrArg some (hu.unique ht)

theorem Remembered.eq_none_iff {pressed : Option Key} (h : Remembered events pressed) :
    pressed = none ↔
      ∀ t key, GoesDown events t key → ∃ u, t < u ∧ events[u]? = some .take := by
  constructor
  · rintro rfl
    exact h
  · intro hall
    cases pressed with
    | none => rfl
    | some key =>
      obtain ⟨t, ht⟩ := h
      obtain ⟨u, hu, htake⟩ := hall t key ht.press
      exact absurd (ht.untaken u htake) (Nat.not_le_of_lt hu)

theorem remembered_take : Remembered (events ++ [.take]) none := by
  intro t key h
  rcases goesDown_append_singleton.mp h with ⟨ht, -⟩ | ⟨-, -, hdown⟩
  · exact ⟨events.length, ht, by simp⟩
  · cases hdown

theorem remembered_down (hup : level events key = false) (hdown : e.leaves key false = true) :
    Remembered (events ++ [e]) (some key) := by
  refine ⟨events.length, goesDown_append_singleton.mpr (.inr ⟨rfl, hup, hdown⟩), ?_, ?_⟩
  · intro u other hu
    rcases goesDown_append_singleton.mp hu with ⟨hlt, -⟩ | ⟨rfl, -⟩
    · exact Nat.le_of_lt hlt
    · exact Nat.le_refl _
  · intro u hu
    have hlt := (List.getElem?_eq_some_iff.mp hu).1
    rw [List.length_append, List.length_singleton] at hlt
    exact Nat.le_of_lt_succ hlt

/-- An event that brings no key down and asks nothing leaves the memory of the presses alone. -/
theorem Remembered.quiet {pressed : Option Key} (h : Remembered events pressed) (he : e ≠ .take)
    (hq : ∀ key, level events key = false → e.leaves key false = false) :
    Remembered (events ++ [e]) pressed := by
  have hgoes {t : Nat} {key : Key} : GoesDown (events ++ [e]) t key ↔ GoesDown events t key := by
    rw [goesDown_append_singleton]
    refine or_iff_left ?_
    rintro ⟨-, hup, hdown⟩
    rw [hq key hup] at hdown
    cases hdown
  have htakes {t : Nat} : (events ++ [e])[t]? = some .take ↔ events[t]? = some .take := by
    rw [take_append_singleton]
    exact or_iff_left fun h => he h.2
  cases pressed with
  | none =>
    intro t key ht
    obtain ⟨u, hu, htake⟩ := h t key (hgoes.mp ht)
    exact ⟨u, hu, htakes.mpr htake⟩
  | some key =>
    obtain ⟨t, hpress, hlatest, huntaken⟩ := h
    exact ⟨t, hgoes.mpr hpress, fun u other hu => hlatest u other (hgoes.mp hu),
      fun u hu => huntaken u (htakes.mp hu)⟩

end Remembered
end KeyEvent

namespace Keypad

open KeyEvent

/-- What can be asked of a keypad. -/
inductive Call where
  | set (number : Nat) (down : Bool)
  | toggle (number : Nat)
  | setAll (keys : Vector Bool 16)
  | takePress

/-- What a call means key by key, from the lowest key to the highest. -/
def Call.events : Call → List KeyEvent
  | set number down => [.put (Nibble.ofNat number) down]
  | toggle number => [.invert (Nibble.ofNat number)]
  | setAll keys => (List.finRange 16).map fun key => .put key (keys.get key)
  | takePress => [.take]

/-- A call that puts down no key but those that are held already. -/
def Call.PressesNothing (held : Key → Bool) : Call → Prop
  | set number down => down = true → held (Nibble.ofNat number) = true
  | toggle number => held (Nibble.ofNat number) = true
  | setAll keys => ∀ key, keys.get key = true → held key = true
  | takePress => False

/-- The keypad behind a call. -/
def call (k : Keypad) : Call → Keypad
  | .set number down => k.set number down
  | .toggle number => k.toggle number
  | .setAll keys => k.setAll keys
  | .takePress => k.takePress.2

/-- A new keypad behind some calls. -/
def after (calls : List Call) : Keypad := calls.foldl call untouched

/-- The keypad behind an event. -/
def meet (k : Keypad) : KeyEvent → Keypad
  | .put key down => k.set key down
  | .invert key => k.toggle key
  | .take => k.takePress.2

theorem isHeld_val (k : Keypad) (key : Key) : k.isHeld key = k.held.get key := by
  change k.held.get (Nibble.ofNat key) = _
  rw [Nibble.ofNat_val]

theorem isHeld_meet (k : Keypad) (e : KeyEvent) (key : Key) :
    (k.meet e).isHeld key = e.leaves key (k.isHeld key) := by
  cases e with
  | put other down => simp [meet, leaves, isHeld_set, Keypad.key, eq_comm]
  | invert other =>
    by_cases h : other = key
    · simp [meet, leaves, toggle, isHeld_set, Keypad.key, h]
    · simp [meet, leaves, toggle, isHeld_set, Keypad.key, h, Ne.symm h]
  | take => rfl

/-- What an event does to the press that is remembered. -/
theorem pressed_meet (k : Keypad) (e : KeyEvent) :
    (e = .take ∧ (k.meet e).pressed = none) ∨
      (∃ key : Key, k.isHeld key = false ∧ e.leaves key false = true ∧
        (k.meet e).pressed = some key) ∨
      e ≠ .take ∧ (∀ key : Key, k.isHeld key = false → e.leaves key false = false) ∧
        (k.meet e).pressed = k.pressed := by
  cases e with
  | put other down =>
    by_cases h : down = true ∧ k.isHeld other = false
    · refine .inr (.inl ⟨other, h.2, by simp [leaves, h.1], ?_⟩)
      simp [meet, pressed_set, h, Keypad.key]
    · refine .inr (.inr ⟨nofun, fun key hup => ?_, by rw [meet, pressed_set, if_neg h]⟩)
      by_cases hk : other = key
      · subst hk
        simpa [leaves, hup] using h
      · simp [leaves, hk]
  | invert other =>
    by_cases h : k.isHeld other = false
    · refine .inr (.inl ⟨other, h, by simp [leaves], ?_⟩)
      simp [meet, toggle, pressed_set, h, Keypad.key]
    · refine .inr (.inr ⟨nofun, fun key hup => ?_, by simp [meet, toggle, pressed_set, h]⟩)
      have hk : other ≠ key := fun hk => h (hk ▸ hup)
      simp [leaves, hk]
  | take => exact .inl ⟨rfl, rfl⟩

theorem set_ofNat (k : Keypad) (number : Nat) (down : Bool) :
    k.set (Nibble.ofNat number) down = k.set number down := by
  have hkey : key (Nibble.ofNat number) = key number := Nibble.ofNat_val _
  simp only [set, isHeld, hkey]
  rfl

theorem toggle_ofNat (k : Keypad) (number : Nat) :
    k.toggle (Nibble.ofNat number) = k.toggle number := by
  have hkey : key (Nibble.ofNat number) = key number := Nibble.ofNat_val _
  rw [toggle, toggle, set_ofNat]
  simp only [isHeld, hkey]

theorem isHeld_ofNat (k : Keypad) (number : Nat) :
    k.isHeld (Nibble.ofNat number) = k.isHeld number :=
  k.isHeld_val (Nibble.ofNat number)

theorem call_eq (k : Keypad) (c : Call) : k.call c = c.events.foldl meet k := by
  cases c with
  | set number down => exact (k.set_ofNat number down).symm
  | toggle number => exact (k.toggle_ofNat number).symm
  | setAll keys =>
    rw [Call.events, List.foldl_map]
    rfl
  | takePress => rfl

theorem after_eq (calls : List Call) :
    after calls = (calls.flatMap Call.events).foldl meet untouched := by
  rw [List.foldl_flatMap, after]
  congr
  funext k c
  exact k.call_eq c

theorem isHeld_foldl (events : List KeyEvent) (key : Key) :
    (events.foldl meet untouched).isHeld key = level events key := by
  induction events using List.reverseRecOn with
  | nil => simp [isHeld, untouched, level]
  | append_singleton events e ih =>
    rw [List.foldl_append, level_append_singleton, ← ih]
    exact isHeld_meet _ e key

/-- A keypad remembers the pending press. -/
theorem remembered_foldl (events : List KeyEvent) :
    Remembered events (events.foldl meet untouched).pressed := by
  induction events using List.reverseRecOn with
  | nil => exact fun t key h => absurd h.1 (Nat.not_lt_zero t)
  | append_singleton events e ih =>
    rw [List.foldl_append]
    change Remembered _ ((events.foldl meet untouched).meet e).pressed
    rcases (events.foldl meet untouched).pressed_meet e with
      ⟨rfl, hp⟩ | ⟨key, hup, hdown, hp⟩ | ⟨he, hq, hp⟩
    · rw [hp]
      exact remembered_take
    · rw [hp]
      exact remembered_down ((isHeld_foldl events key).symm.trans hup) hdown
    · rw [hp]
      exact ih.quiet he fun key hup => hq key ((isHeld_foldl events key).trans hup)

/-- Of the keys that are put one after the other, those go down that are put down and were up. -/
theorem edgesOf_eq_filter (k : Keypad) (keys : Vector Bool 16) {l : List Key} (h : l.Nodup) :
    k.edgesOf keys l = l.filter fun key => keys.get key && !k.isHeld key := by
  induction l generalizing k with
  | nil => rfl
  | cons i rest ih =>
    obtain ⟨hi, hrest⟩ := List.nodup_cons.mp h
    have hkept : ∀ key ∈ rest, (k.set i (keys.get i)).isHeld key = k.isHeld key := by
      intro key hkey
      have hne : Nibble.ofNat key ≠ Nibble.ofNat i := by
        rw [Nibble.ofNat_val, Nibble.ofNat_val]
        exact fun he => hi (he ▸ hkey)
      rw [isHeld_set]
      exact if_neg hne
    have hfilter : (rest.filter fun key => keys.get key && !(k.set i (keys.get i)).isHeld key) =
        rest.filter fun key => keys.get key && !k.isHeld key :=
      List.filter_congr fun key hkey => by rw [hkept key hkey]
    have hkey : Keypad.key i = i := Nibble.ofNat_val i
    rw [edgesOf, ih _ hrest, hfilter, edge, hkey, List.filter_cons]
    cases keys.get i <;> cases k.isHeld i <;> simp

/-- The keys that go down when all are put at once, in ascending order. -/
def newPresses (k : Keypad) (keys : Vector Bool 16) : List Key :=
  (List.finRange 16).filter fun key => keys.get key && !k.isHeld key

theorem mem_newPresses {k : Keypad} {keys : Vector Bool 16} {key : Key} :
    key ∈ k.newPresses keys ↔ keys.get key = true ∧ k.isHeld key = false := by
  simp [newPresses]

theorem pressed_setAll_newPresses (k : Keypad) (keys : Vector Bool 16) :
    (k.setAll keys).pressed = (k.newPresses keys).getLast?.or k.pressed := by
  rw [pressed_setAll, edgesOf_eq_filter k keys (List.nodup_finRange 16), newPresses]

/-- Of the keys that go down at once the highest is remembered. -/
theorem pressed_setAll_highest {k : Keypad} {keys : Vector Bool 16} {key : Key}
    (hkey : key ∈ k.newPresses keys) (hh : ∀ other ∈ k.newPresses keys, other ≤ key) :
    (k.setAll keys).pressed = some key := by
  have hne : k.newPresses keys ≠ [] := List.ne_nil_of_mem hkey
  have hsorted : (k.newPresses keys).Pairwise (· < ·) :=
    (List.pairwise_lt_finRange 16).filter _
  have hlast : (k.newPresses keys).getLast hne = key := by
    refine Fin.le_antisymm (hh _ (List.getLast_mem hne)) ?_
    rw [← List.dropLast_concat_getLast hne] at hkey hsorted
    rcases List.mem_append.mp hkey with hin | hin
    · have hbelow := (List.pairwise_append.mp hsorted).2.2 key hin
      exact Nat.le_of_lt (hbelow _ (List.mem_singleton_self _))
    · exact Nat.le_of_eq (congrArg Fin.val (List.mem_singleton.mp hin))
  rw [pressed_setAll_newPresses, List.getLast?_eq_some_getLast hne, hlast]
  rfl

/-- A call that presses nothing leaves the press that is remembered. -/
theorem pressed_call {k : Keypad} {c : Call} (h : c.PressesNothing fun key => k.isHeld key) :
    (k.call c).pressed = k.pressed := by
  cases c with
  | set number down =>
    rw [call, pressed_set, if_neg]
    rintro ⟨hdown, hup⟩
    have hheld : k.isHeld (Nibble.ofNat number) = true := h hdown
    rw [isHeld_ofNat, hup] at hheld
    cases hheld
  | toggle number =>
    have hheld : k.isHeld (Nibble.ofNat number) = true := h
    rw [isHeld_ofNat] at hheld
    simp [call, toggle, pressed_set, hheld]
  | setAll keys =>
    have hnone : k.newPresses keys = [] := by
      refine List.eq_nil_iff_forall_not_mem.mpr fun key hkey => ?_
      obtain ⟨hdown, hup⟩ := mem_newPresses.mp hkey
      have hheld : k.isHeld key = true := h key hdown
      rw [hup] at hheld
      cases hheld
    rw [call, pressed_setAll_newPresses, hnone]
    rfl
  | takePress => cases h

/-- Whatever a keypad was told and asked, each of its keys is as it was put last, and the last press
is the latest one that was not asked for yet, if there is any. Of the keys that go down at once the
highest counts. A call that presses nothing neither makes a press nor drops one, and what was
answered to a question is older than every press that is reported later. -/
theorem presses_reported (calls : List Call) :
    let k := after calls
    let events := calls.flatMap Call.events
    (∀ key, k.held.get key = level events key) ∧
    (∀ r : UInt8, k.isHeld r.toNat = level events (Nibble.ofNat r.toNat)) ∧
    (∀ key, k.takePress.1 = some key ↔ ∃ t, Pending events t key) ∧
    (k.takePress.1 = none ↔
      ∀ t key, GoesDown events t key → ∃ u, t < u ∧ events[u]? = some .take) ∧
    (∀ keys key, keys.get key = true → level events key = false →
      (∀ other, key < other → keys.get other = true → level events other = true) →
      (k.setAll keys).takePress.1 = some key) ∧
    (∀ c, c.PressesNothing (level events) → (k.call c).takePress.1 = k.takePress.1) ∧
    ∀ first rest t u key other, calls = first ++ .takePress :: rest →
      Pending (first.flatMap Call.events) t key → Pending events u other → t < u := by
  intro k events
  have hlevel (key : Key) : k.isHeld key = level events key := by
    rw [← isHeld_foldl, ← after_eq]
  have hremembered : Remembered events k.pressed := by
    have := remembered_foldl events
    rwa [← after_eq] at this
  refine ⟨fun key => ?_, fun r => ?_, fun key => hremembered.eq_some_iff,
    hremembered.eq_none_iff, fun keys key hdown hup hh => ?_, fun c hc => ?_, ?_⟩
  · rw [← isHeld_val]
    exact hlevel key
  · rw [← hlevel, isHeld_ofNat]
  · refine pressed_setAll_highest (mem_newPresses.mpr ⟨hdown, (hlevel key).trans hup⟩) ?_
    intro other hother
    obtain ⟨hdownOther, hupOther⟩ := mem_newPresses.mp hother
    rw [hlevel] at hupOther
    by_contra hlt
    rw [hh other (Nat.lt_of_not_le hlt) hdownOther] at hupOther
    cases hupOther
  · exact pressed_call (by rwa [funext hlevel])
  · rintro first rest t u key other rfl ht hu
    have htake : events[(first.flatMap Call.events).length]? = some .take := by
      simp [events, List.flatMap_append, Call.events]
    exact Nat.lt_of_lt_of_le ht.press.1 (hu.untaken _ htake)

/-- A press is reported when its key is up again, and only once. -/
example : (after [.set 19 true, .toggle 3]).takePress.1 = some (Nibble.ofNat 3) ∧
    (after [.set 19 true, .toggle 3, .takePress, .set 4 false]).takePress.1 = none := by
  decide

end Keypad
end Chip8
