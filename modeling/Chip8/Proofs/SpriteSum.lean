import Chip8.Proofs.HistoryInvariant
import Chip8.Proofs.HostScreen
import Chip8.Proofs.WordForms

/-!
# The screen as a sum of sprites

A sprite that is drawn flips the pixels it covers, so drawing it adds its mask to the screen, pixel
by pixel and without a carry. Nothing else changes the screen but blanking it. A screen is
therefore the sum of what it was and of the sprites drawn since, in any order, and a sprite that is
drawn twice at one place is gone.
-/
namespace Chip8

/-! ## Sums of screens -/

namespace Screen

/-- The sum of two screens without a carry: a pixel is lit where just one of them is lit. -/
instance : XorOp Screen := ⟨fun s t => ⟨s.rows.zipWith (· ^^^ ·) t.rows⟩⟩

theorem isLit_xor (s t : Screen) (x y : Nat) :
    (s ^^^ t).isLit x y = (s.isLit x y ^^ t.isLit x y) := by
  change (Vector.zipWith (· ^^^ ·) s.rows t.rows)[line y].getMsbD (x % 64) = _
  simp [isLit]

theorem xor_right_comm (s t u : Screen) : s ^^^ t ^^^ u = s ^^^ u ^^^ t :=
  ext_isLit fun x y => by
    simp only [isLit_xor, Bool.xor_assoc, Bool.xor_comm (t.isLit x y)]

theorem xor_xor_cancel (s t : Screen) : s ^^^ t ^^^ t = s :=
  ext_isLit fun x y => by simp only [isLit_xor, Bool.xor_assoc, Bool.xor_self, Bool.xor_false]

end Screen

/-- A sprite at the place where it is drawn. -/
structure Drawing where
  rows : List UInt8
  /-- The column and the row of its upper left corner. -/
  x : Fin 64
  y : Fin 32
  length_lt : rows.length < 16
  deriving DecidableEq

/-- The sprite on a blank screen. Each of its bytes lies at the left end of a row, from where the
row is turned to the right. -/
def Drawing.mask (d : Drawing) : Screen :=
  ⟨Vector.ofFn fun v =>
    ((d.rows.getD ((v + (32 - d.y)) % 32) 0).toBitVec ++ 0#56).rotateRight d.x⟩

theorem Drawing.isLit_mask (d : Drawing) (u v : Nat) :
    d.mask.isLit u v =
      (d.rows.getD ((v + (32 - d.y)) % 32) 0).toBitVec.getMsbD ((u + (64 - d.x)) % 64) := by
  have hx := d.x.isLt
  have hu := Nat.mod_lt u (show 0 < 64 by decide)
  have hrow : (v % 32 + (32 - d.y)) % 32 = (v + (32 - d.y)) % 32 := Nat.mod_add_mod ..
  simp only [mask, Screen.isLit, Screen.line, Fin.getElem_fin, Vector.getElem_ofFn, hrow,
    BitVec.getMsbD_rotateRight, BitVec.getMsbD_append, hu, decide_true, Bool.true_and]
  generalize (d.rows.getD ((v + (32 - d.y)) % 32) 0).toBitVec = row
  have hbehind {i : Nat} (hi : 8 ≤ i) : row.getMsbD i = false := by simp [BitVec.getMsbD, hi]
  rw [Nat.mod_eq_of_lt hx]
  by_cases h : u % 64 < d.x
  · rw [if_pos h, show (64 + u % 64 - d.x) % 64 = (u + (64 - d.x)) % 64 by omega]
    split
    · rename_i hi
      rw [hbehind hi, BitVec.getMsbD_zero]
    · rfl
  · rw [if_neg h, show u % 64 - d.x = (u + (64 - d.x)) % 64 by omega]
    split
    · rename_i hi
      rw [hbehind hi, BitVec.getMsbD_zero]
    · rfl

/-! ## Drawing is adding -/

namespace Screen

/-- The screen with some sprites drawn on it. -/
def overlaid (s : Screen) (drawings : List Drawing) : Screen :=
  drawings.foldl (fun s d => s ^^^ d.mask) s

theorem overlaid_append (s : Screen) (first rest : List Drawing) :
    s.overlaid (first ++ rest) = (s.overlaid first).overlaid rest := List.foldl_append

/-- The order of the sprites does not matter. -/
theorem overlaid_perm (s : Screen) {drawings other : List Drawing} (h : drawings.Perm other) :
    s.overlaid drawings = s.overlaid other :=
  h.foldl_eq' (fun d _ d' _ s => s.xor_right_comm d.mask d'.mask) s

/-- A sprite that is drawn twice is gone. -/
theorem overlaid_twice (s : Screen) (d : Drawing) (rest : List Drawing) :
    s.overlaid (d :: d :: rest) = s.overlaid rest :=
  congrArg (·.overlaid rest) (s.xor_xor_cancel d.mask)

/-- Some pixels toggled one after the other. -/
def toggles (s : Screen) (pixels : List (Nat × Nat)) : Screen :=
  pixels.foldl (fun s p => s.toggle p.1 p.2) s

theorem toggles_append (s : Screen) (first rest : List (Nat × Nat)) :
    s.toggles (first ++ rest) = (s.toggles first).toggles rest := List.foldl_append

theorem snd_toggleAll (s : Screen) (pixels : List (Nat × Nat)) :
    (s.toggleAll pixels).2 = s.toggles pixels := by
  unfold toggleAll
  generalize false = met
  induction pixels generalizing met s with
  | nil => rfl
  | cons p pixels ih => exact ih ..

/-- Toggling some of the columns behind a place flips the pixels of these columns. The columns are
so few that none of them comes round to another one. -/
theorem isLit_toggles_columns (s : Screen) (p : Nat → Bool) (x y u v : Nat) {n : Nat}
    (hn : n ≤ 64) :
    (s.toggles (((List.range n).filter p).map fun j => (x + j, y))).isLit u v =
      (s.isLit u v ^^ decide (v % 32 = y % 32 ∧ (u + (64 - x % 64)) % 64 < n ∧
        p ((u + (64 - x % 64)) % 64) = true)) := by
  induction n with
  | zero => simp [toggles]
  | succ n ih =>
    have ih := ih (by omega)
    have hplace : u % 64 = (x + n) % 64 ↔ (u + (64 - x % 64)) % 64 = n := by omega
    rw [List.range_succ, List.filter_append, List.map_append, toggles_append]
    cases hp : p n with
    | false =>
      simp only [List.filter_cons_of_neg, hp, Bool.false_eq_true, not_false_eq_true,
        List.filter_nil, List.map_nil, toggles, List.foldl_nil] at ih ⊢
      rw [ih]
      grind
    | true =>
      simp only [List.filter_cons_of_pos, hp, List.filter_nil, List.map_cons, List.map_nil]
      change ((s.toggles _).toggle (x + n) y).isLit u v = _
      rw [isLit_toggle, ih]
      simp only [hplace]
      grind

/-- Toggling the rows of a sprite from a row of the screen on flips the pixels that are lit in
them. -/
theorem isLit_toggles_rows (s : Screen) (rows : List UInt8) (x y u v : Nat) {k : Nat}
    (hk : k + rows.length ≤ 32) :
    (s.toggles ((rows.zipIdx k).flatMap fun (row, i) =>
        (Sprite.columns row).map fun j => (x + j, y + i))).isLit u v =
      (s.isLit u v ^^ decide (k ≤ (v + (32 - y % 32)) % 32 ∧
        (rows.getD ((v + (32 - y % 32)) % 32 - k) 0).toBitVec.getMsbD
          ((u + (64 - x % 64)) % 64) = true)) := by
  induction rows generalizing s k with
  | nil => simp [toggles]
  | cons row rest ih =>
    rw [List.length_cons] at hk
    have hplace : v % 32 = (y + k) % 32 ↔ (v + (32 - y % 32)) % 32 = k := by omega
    have hrow := s.isLit_toggles_columns row.toBitVec.getMsbD x (y + k) u v
      (show Sprite.width ≤ 64 by decide)
    rw [← Sprite.columns] at hrow
    rw [List.zipIdx_cons, List.flatMap_cons, toggles_append, ih _ (by omega)]
    simp only [hrow, hplace]
    generalize (v + (32 - y % 32)) % 32 = i
    generalize (u + (64 - x % 64)) % 64 = j
    have hin : row.toBitVec.getMsbD j = true → j < Sprite.width := BitVec.lt_of_getMsbD
    rcases Nat.lt_trichotomy i k with h | rfl | h
    · simp [show i ≠ k by omega, show ¬ k + 1 ≤ i by omega, show ¬ k ≤ i by omega]
    · simp [and_iff_right_of_imp hin, show ¬ i + 1 ≤ i by omega]
    · simp [show i ≠ k by omega, show k + 1 ≤ i by omega, show k ≤ i by omega,
        show i - k = i - (k + 1) + 1 by omega]

/-- Drawing a sprite adds its mask. -/
theorem toggleAll_pixels (s : Screen) (d : Drawing) {x y : Nat} (hx : d.x = x % 64)
    (hy : d.y = y % 32) : (s.toggleAll (Sprite.pixels d.rows x y)).2 = s ^^^ d.mask := by
  have hl : 0 + d.rows.length ≤ 32 := by have := d.length_lt; omega
  rw [snd_toggleAll]
  refine ext_isLit fun u v => (s.isLit_toggles_rows d.rows x y u v hl).trans ?_
  rw [isLit_xor, Drawing.isLit_mask, hx, hy]
  simp

end Screen

/-! ## The sprites of a run -/

namespace Machine

/-- The sprite that an instruction draws from a machine: so many bytes from the index register on,
at the place that two registers tell. -/
def sprite (m : Machine) (x y : Register) (rows : Nibble) : Drawing where
  rows := List.ofFn fun i : Fin rows => m.memory.byteAt (m.index.toNat + i)
  x := Fin.ofNat 64 (m.register x).toNat
  y := Fin.ofNat 32 (m.register y).toNat
  length_lt := by rw [List.length_ofFn]; exact rows.isLt

/-- The sprite that a step draws, if it executes an instruction that draws one and is not
refused. -/
def drawn? (m : Machine) : Option Drawing :=
  match m.awaiting, m.fetch.bind Instruction.decode, m.step.1 with
  | none, .ok (.draw x y rows), .ok _ => some (m.sprite x y rows)
  | _, _, _ => none

/-- The sprite drawn by an action, if any. -/
def drawnBy? (m : Machine) : Action → Option Drawing
  | .step => m.drawn?
  | _ => none

/-- The sprites drawn along a history, in order. -/
def drawings (m : Machine) : List Action → List Drawing
  | [] => []
  | a :: rest => (m.drawnBy? a).toList ++ (m.act a).2.drawings rest

/-- A step would execute the instruction that blanks the screen. -/
def Clears (m : Machine) : Prop := m.awaiting = none ∧ m.fetch = .ok 0x00E0

/-- No step of a history executes the instruction that blanks the screen. -/
def NeverClears (m : Machine) : List Action → Prop
  | [] => True
  | a :: rest => (a = .step → ¬ m.Clears) ∧ (m.act a).2.NeverClears rest

section Step

variable {m : Machine}

theorem drawn?_of_ne {i : Instruction} (hd : m.fetch.bind Instruction.decode = .ok i)
    (hi : ∀ x y rows, i ≠ .draw x y rows) : m.drawn? = none := by
  cases ha : m.awaiting <;> simp only [drawn?, ha, hd]
  cases i with
  | draw x y rows => exact absurd rfl (hi x y rows)
  | _ => rfl

theorem decoded_of_le {i : Instruction} (hp : m.pc.toNat ≤ 0xFFE)
    (hd : Instruction.ofWord? m.here = some i) : m.fetch.bind Instruction.decode = .ok i := by
  rw [fetch_of_le hp, Except.bind, Instruction.decode_eq_ok_iff.mpr hd]

theorem move_screen (m : Machine) (flow : Flow) : (m.move flow).screen = m.screen := by
  cases flow <;> rfl

/-- The bytes that an instruction reads for a sprite are the ones it is said to draw. -/
theorem readBlock_sprite {x y : Register} {rows : Nibble} {block : List UInt8}
    (h : m.memory.readBlock m.index.toNat rows = .ok block) : block = (m.sprite x y rows).rows := by
  rcases Nat.lt_or_ge 4096 (m.index.toNat + rows) with hl | hl
  · rw [m.memory.readBlock_of_lt hl] at h
    cases h
  · rw [m.memory.readBlock_of_le hl] at h
    rw [← Except.ok.inj h]
    refine congrArg List.ofFn (funext fun i => (m.memory.byteAt_of_lt ?_).symm)
    have := i.isLt
    omega

/-- A step adds the sprite that it draws, and nothing else, to a screen that it does not blank. -/
theorem screen_step (hc : ¬ m.Clears) : m.step.2.screen = m.screen.overlaid m.drawn?.toList := by
  rcases hs : m.step with ⟨result, n⟩
  cases step_cases hs with
  | waiting ha hk => simp only [drawn?, ha]; rfl
  | resumed ha hk => simp only [drawn?, ha]; rfl
  | unfetched ha hp => simp only [drawn?, ha, fetch_of_lt hp, Except.bind]; rfl
  | undecoded ha hp hd =>
    have hdecode : Instruction.decode m.here = .error (.invalidOpcode m.here) := by
      rw [Instruction.decode, hd]
    simp only [drawn?, ha, fetch_of_le hp, Except.bind, hdecode]
    rfl
  | refused ha hp hd hr => simp only [drawn?, ha, decoded_of_le hp hd, hs]; rfl
  | @completed i o n ha hp hd hcompleted =>
    rw [move_screen]
    by_cases hdraw : ∃ x y rows, i = .draw x y rows
    · obtain ⟨x, y, rows, rfl⟩ := hdraw
      have hdrawn : m.drawn? = some (m.sprite x y rows) := by
        simp only [drawn?, ha, decoded_of_le hp hd, hs]
      rw [hdrawn]
      cases hcompleted with
      | draw _ _ _ hr ht =>
        obtain rfl := readBlock_sprite hr (x := x) (y := y)
        exact (congrArg Prod.snd ht).symm.trans (m.screen.toggleAll_pixels _ rfl rfl)
    · have hne : ∀ x y rows, i ≠ .draw x y rows := fun x y rows he => hdraw ⟨x, y, rows, he⟩
      rw [drawn?_of_ne (decoded_of_le hp hd) hne]
      by_cases hfoot : Part.screen ∈ i.footprint (m.fetched i).index.toNat
      · obtain rfl := (drawing_of_mem_footprint hfoot).resolve_right hdraw
        have hword := Instruction.toWord_of_ofWord? hd
        exact absurd ⟨ha, (fetch_of_le hp).trans (congrArg Except.ok hword.symm)⟩ hc
      · exact hcompleted.agree hfoot

end Step

/-- An action of a run adds the sprite that it draws. -/
theorem screen_act {m : Machine} {a : Action} (ha : a.runs) (hc : a = .step → ¬ m.Clears) :
    (m.act a).2.screen = m.screen.overlaid (m.drawnBy? a).toList := by
  cases a with
  | step => exact screen_step (hc rfl)
  | tick => exact m.screen_outside m.keypad m.delay.tick m.sound.tick m.trace
  | setKey number down =>
    exact m.screen_outside (m.keypad.set number down) m.delay m.sound m.trace
  | toggleKey number => exact m.screen_outside (m.keypad.toggle number) m.delay m.sound m.trace
  | setKeys keys => exact m.screen_outside (m.keypad.setAll keys) m.delay m.sound m.trace
  | _ => cases ha

/-- What a run draws is added to the screen it starts from. -/
theorem screen_after {m : Machine} {history : List Action} (hh : ∀ a ∈ history, a.runs)
    (hc : m.NeverClears history) :
    (m.after history).screen = m.screen.overlaid (m.drawings history) := by
  induction history generalizing m with
  | nil => rfl
  | cons a rest ih =>
    obtain ⟨ha, hrest⟩ := List.forall_mem_cons.mp hh
    rw [after, ih hrest hc.2, drawings, Screen.overlaid_append, screen_act ha hc.1]

/-- A run that executes no blanking instruction leaves the sum of the screen it found and of the
masks of all sprites it drew. Two such runs from equal screens that draw the same sprites at the
same places, each as often as the other, leave equal screens, and a sprite that was drawn twice
leaves nothing. -/
theorem screen_sum_of_sprites {m : Machine} {history : List Action}
    (hh : ∀ a ∈ history, a.runs) (hc : m.NeverClears history) :
    (m.after history).screen = (m.drawings history).foldl (fun s d => s ^^^ d.mask) m.screen ∧
    (∀ (n : Machine) (other : List Action), (∀ a ∈ other, a.runs) → n.NeverClears other →
      n.screen = m.screen → (n.drawings other).Perm (m.drawings history) →
      (n.after other).screen = (m.after history).screen) ∧
    ∀ d rest, (m.drawings history).Perm (d :: d :: rest) →
      (m.after history).screen = rest.foldl (fun s d => s ^^^ d.mask) m.screen := by
  have hsum := screen_after hh hc
  refine ⟨hsum, fun n other ho hoc hs hp => ?_, fun d rest hp => ?_⟩
  · rw [screen_after ho hoc, hsum, hs]
    exact m.screen.overlaid_perm hp
  · rw [hsum, m.screen.overlaid_perm hp]
    exact m.screen.overlaid_twice d rest

/-! ## One sprite after the other -/

/-- What a step sees of a machine that is about to draw a sprite. -/
structure AboutToDraw (m : Machine) (x y : Register) (rows : Nibble) : Prop where
  running : m.awaiting = none
  fetched : m.pc.toNat ≤ 0xFFE
  decoded : Instruction.ofWord? m.here = some (.draw x y rows)
  within : m.index.toNat + rows ≤ 4096

theorem sprite_outside (m : Machine) (keypad : Keypad) (delay sound : Timer)
    (trace : Option (List TraceEntry)) (x y : Register) (rows : Nibble) :
    (m.outside keypad delay sound trace).sprite x y rows = m.sprite x y rows := rfl

section AboutToDraw

variable {m : Machine} {x y : Register} {rows : Nibble} (h : m.AboutToDraw x y rows)
include h

theorem AboutToDraw.not_clears : ¬ m.Clears := by
  rintro ⟨-, hf⟩
  have hd := h.decoded
  rw [← (fetch_eq_ok hf).2] at hd
  cases hd

theorem AboutToDraw.drawn : m.drawn? = some (m.sprite x y rows) := by
  have hs := step_draw h.running h.fetched h.decoded h.within
  simp only [drawn?, h.running, decoded_of_le h.fetched h.decoded, hs]

theorem AboutToDraw.step_keeps :
    m.step.2.awaiting = none ∧ m.step.2.pc = m.pc + 2 ∧ m.step.2.index = m.index ∧
      (∀ a, m.step.2.memory.byteAt a = m.memory.byteAt a) ∧
      ∀ r, r ≠ flag → m.step.2.register r = m.register r := by
  rcases hs : m.step with ⟨result, n⟩
  have hdraw := step_draw h.running h.fetched h.decoded h.within
  rw [hs] at hdraw
  cases step_cases hs with
  | @completed i o n ha hp hd hc =>
    obtain rfl := Option.some.inj (hd.symm.trans h.decoded)
    have hagree {p : Part} (hp : p ∉ (Instruction.draw x y rows).footprint m.index.toNat) :
        Agree (m.fetched (.draw x y rows)) (n.move o.flow) p := (hc.agree hp).trans (agree_move _)
    refine ⟨?_, ?_, ?_, fun a => ?_, fun r hr => ?_⟩
    · exact Eq.trans (hagree (p := .awaiting) (by simp [Instruction.footprint])) ha
    · cases hc
      rfl
    · exact hagree (p := .index) (by simp [Instruction.footprint])
    · exact hagree (p := .cell a) (by simp [Instruction.footprint])
    · exact hagree (p := .register r) (by simp [Instruction.footprint, hr])
  | _ => cases hdraw

theorem AboutToDraw.outside (keypad : Keypad) (delay sound : Timer)
    (trace : Option (List TraceEntry)) :
    (m.outside keypad delay sound trace).AboutToDraw x y rows :=
  ⟨h.running, h.fetched, h.decoded, h.within⟩

/-- A sprite whose place is not read from the flag is drawn once more by the same instruction. -/
theorem AboutToDraw.twice (h' : m.step.2.AboutToDraw x y rows) (hx : x ≠ flag) (hy : y ≠ flag) :
    m.drawings [.step, .tick, .step] = [m.sprite x y rows, m.sprite x y rows] ∧
      m.NeverClears [.step, .tick, .step] := by
  obtain ⟨-, -, hindex, hcell, hregister⟩ := h.step_keeps
  have hsame : m.step.2.sprite x y rows = m.sprite x y rows := by
    simp only [sprite, hregister x hx, hregister y hy, hindex, hcell]
  generalize hn : m.step.2 = n at h' hsame
  have htick : n.tick.AboutToDraw x y rows :=
    h'.outside n.keypad n.delay.tick n.sound.tick n.trace
  have hticked : n.tick.sprite x y rows = n.sprite x y rows :=
    n.sprite_outside n.keypad n.delay.tick n.sound.tick n.trace x y rows
  constructor
  · simp only [drawings, drawnBy?, act, hn, h.drawn, htick.drawn, hticked, hsame, Option.toList,
      List.cons_append, List.nil_append]
  · refine ⟨fun _ => h.not_clears, (absurd · Action.noConfusion), fun _ => ?_, trivial⟩
    rw [act, hn]
    exact htick.not_clears

end AboutToDraw

/-- A program that draws the picture of the digit 0 twice at one place. -/
def twiceDrawingRom : Rom := ⟨"", [0xD0, 0x05, 0xD0, 0x05]⟩

theorem screen_sum_of_sprites_erased :
    ∃ m d, create twiceDrawingRom (RandomSource.repeating []) = .ok m ∧
      let history := [.step, .tick, .step]
      d.rows = [0xF0, 0x90, 0x90, 0x90, 0xF0] ∧ m.drawings history = [d, d] ∧
        (m.after history).screen = .blank := by
  generalize RandomSource.repeating [] = random
  have hm := create_of_le (show start + twiceDrawingRom.data.length ≤ 4096 by decide) random
  generalize hfont : Memory.blank.overlay Font.location Font.bytes = font at hm
  generalize hmemory : font.overlay start twiceDrawingRom.data = memory at hm
  have hdigit (i : Nat) (hlt : i < 5) : memory.byteAt (0 + i) = Font.bytes.getD i 0 := by
    have hbytes : i < Font.bytes.length := Nat.lt_of_lt_of_le hlt (by decide)
    rw [Nat.zero_add, ← hmemory, Memory.byteAt_overlay _ _ _ (by omega),
      if_neg (by unfold start; omega), ← hfont, Memory.byteAt_overlay _ _ _ (by omega),
      if_pos (show Font.location ≤ i from Nat.zero_le i)]
    simp [hbytes, Font.location]
  have hword {k : Nat} (hk : k = 0 ∨ k = 2) : memory.wordAt (start + k) = 0xD005 := by
    rw [← hmemory]
    rcases hk with rfl | rfl
    · exact font.wordAt_overlay_add start 0 (by decide) (by decide)
    · exact font.wordAt_overlay_add start 2 (by decide) (by decide)
  generalize hi : initial twiceDrawingRom memory random = m at hm
  have hpc : m.pc = 0x200 := by rw [← hi]; rfl
  have hindex : m.index = 0 := by rw [← hi]; rfl
  have hcell (a : Nat) : m.memory.byteAt a = memory.byteAt a := by rw [← hi]; rfl
  have hready {n : Machine} {k : Nat} (hk : k = 0 ∨ k = 2) (ha : n.awaiting = none)
      (hp : n.pc.toNat = start + k) (hn : n.index = 0)
      (hcell : ∀ a, n.memory.byteAt a = memory.byteAt a) :
      n.AboutToDraw (Nibble.ofNat 0) (Nibble.ofNat 0) (Nibble.ofNat 5) := by
    have hhere : n.here = 0xD005 := by
      rw [← hword hk, here, hp, Memory.wordAt, Memory.wordAt, hcell, hcell]
    refine ⟨ha, by unfold start at hp; omega, ?_, ?_⟩
    · rw [hhere]
      rfl
    · rw [hn]
      decide
  have hfirst := hready (n := m) (.inl rfl) (by rw [← hi]; rfl) (by rw [hpc]; rfl) hindex hcell
  obtain ⟨ha, hpc', hindex', hcell', -⟩ := hfirst.step_keeps
  have hsecond := hready (.inr rfl) ha (by rw [hpc', hpc]; decide) (hindex'.trans hindex)
    fun a => (hcell' a).trans (hcell a)
  obtain ⟨hdrawings, hclears⟩ := hfirst.twice hsecond (by decide) (by decide)
  obtain ⟨-, -, herased⟩ := screen_sum_of_sprites (by simp [Action.runs]) hclears
  refine ⟨m, _, hm, ?_, hdrawings, ?_⟩
  · have hrows : (fun i : Fin 5 => m.memory.byteAt (m.index.toNat + i)) =
        fun i : Fin 5 => Font.bytes.getD i 0 := by
      funext i
      rw [hindex, hcell]
      exact hdigit i i.isLt
    exact (congrArg List.ofFn hrows).trans rfl
  · rw [herased _ [] (.of_eq hdrawings), ← hi]
    rfl

end Machine
end Chip8
