import Chip8.Proofs.ParkedWait

/-!
# The bounds of the program counter

Words are fetched from the memory only, so every return address lies behind one, and the farthest a
program gets is the highest address of a jump with the highest offset. The sums and differences on
the way are far from both ends of a word.
-/
namespace Chip8.Machine

/-- A step fetches and decodes an instruction, which completes with an outcome. -/
structure Executes (m : Machine) (word : UInt16) (i : Instruction) (o : Outcome) (n : Machine) :
    Prop where
  awaiting : m.awaiting = none
  fetch : m.fetch = .ok word
  decode : Instruction.decode word = .ok i
  effect : (effect i).on ((m.advance word).record (m.pc, i)) = (.ok o, n)

/-- No sum and no difference that a step forms for the program counter wraps around. -/
structure NeverWraps (m : Machine) : Prop where
  advance : ∀ word, m.awaiting = none → m.fetch = .ok word →
    (m.advance word).pc.toNat = m.pc.toNat + 2
  skip : ∀ word i o n, m.Executes word i o n → o.flow = .skip →
    m.step.2 = n.move .skip ∧ (n.move .skip).pc.toNat = n.pc.toNat + 2
  hold : ∀ word i o n, m.Executes word i o n → o.flow = .hold →
    m.step.2 = n.move .hold ∧ (n.move .hold).pc.toNat + 2 = n.pc.toNat
  resume : ∀ x key, m.awaiting = some x → m.keypad.pressed = some key →
    m.step.2 = (m.resume x).2 ∧ (m.resume x).2.pc.toNat = m.pc.toNat + 2
  jumpOffset : ∀ word base o n, m.Executes word (.jumpOffset base) o n →
    base.val + (m.register 0).toNat < 65536 ∧ ∃ target, o.flow = .jump target ∧
      m.step.2 = n.move (.jump target) ∧ target.toNat = base.val + (m.register 0).toNat

/-- The bounds of the program counter and the return addresses, for a machine that waits where it
was told to. -/
structure Bounded (m : Machine) : Prop where
  pc_le : m.pc.toNat ≤ 0x10FE
  stack : ∀ a ∈ m.stack.entries, 0x0002 ≤ a.toNat ∧ a.toNat ≤ 0x1000
  parked : m.WaitsParked

/-! ## Sums and differences -/

theorem toNat_skip {m : Machine} (h : m.pc.toNat ≤ 0x1000) :
    (m.move .skip).pc.toNat = m.pc.toNat + 2 :=
  toNat_add_two (by omega)

theorem toNat_hold {m : Machine} (h : 2 ≤ m.pc.toNat) :
    (m.move .hold).pc.toNat + 2 = m.pc.toNat := by
  change (m.pc - 2).toNat + 2 = _
  rw [UInt16.toNat_sub_of_le _ _ h]
  change m.pc.toNat - 2 + 2 = _
  omega

theorem Completed.toNat_pc {m n : Machine} {i : Instruction} {o : Outcome}
    (h : Completed (m.fetched i) i o n) (hp : m.pc.toNat ≤ 0xFFE) :
    n.pc.toNat = m.pc.toNat + 2 := by
  rw [h.frame.1]
  exact toNat_add_two (by omega)

theorem toNat_resume {m : Machine} {x : Register} {key : Key} (hk : m.keypad.pressed = some key)
    (hp : m.pc.toNat ≤ 0xFFE) : (m.resume x).2.pc.toNat = m.pc.toNat + 2 := by
  simp only [resume, Keypad.takePress, hk]
  exact toNat_add_two (by omega)

theorem Executes.completed {m n : Machine} {word : UInt16} {i : Instruction} {o : Outcome}
    (h : m.Executes word i o n) :
    m.pc.toNat ≤ 0xFFE ∧ Completed (m.fetched i) i o n ∧
      m.step = (.ok o.signal, n.move o.flow) := by
  obtain ⟨ha, hf, hd, he⟩ := h
  obtain ⟨hp, rfl⟩ := fetch_eq_ok hf
  refine ⟨hp, ?_, step_completed ha hp (Instruction.decode_eq_ok_iff.mp hd) he⟩
  rcases effect_cases (m.fetched i) i with ⟨fault, -, hr⟩ | ⟨o', n', hc, hr⟩
  · cases he.symm.trans hr
  · cases he.symm.trans hr
    exact hc

/-! ## The bounds along a history -/

theorem Fresh.bounded {m : Machine} (h : m.Fresh) : m.Bounded := by
  have hp := h.waitsParked
  obtain ⟨rom, memory, random, trace, rfl⟩ := h
  refine ⟨show 0x200 ≤ 0x10FE by decide, ?_, hp⟩
  intro a ha
  cases ha

theorem Bounded.outside {m : Machine} (h : m.Bounded) (keypad : Keypad) (delay sound : Timer)
    (trace : Option (List TraceEntry)) : (m.outside keypad delay sound trace).Bounded :=
  ⟨h.pc_le, h.stack, h.parked.outside keypad delay sound trace⟩

/-- Wherever an instruction goes on to, the program counter keeps its bound. -/
theorem Bounded.move {m n : Machine} (h : m.Bounded) {i : Instruction} {o : Outcome}
    (hp : m.pc.toNat ≤ 0xFFE) (hc : Completed (m.fetched i) i o n) :
    (n.move o.flow).pc.toNat ≤ 0x10FE := by
  have hn := hc.toNat_pc hp
  cases hf : o.flow with
  | next =>
    change n.pc.toNat ≤ 0x10FE
    omega
  | skip =>
    have hs := toNat_skip (m := n) (by omega)
    omega
  | hold =>
    have hh := toNat_hold (m := n) (by omega)
    omega
  | jump target =>
    change target.toNat ≤ 0x10FE
    rcases hc.jump_cases hf with ht | ht
    · exact ht
    · have := (h.stack target ht).2
      omega

theorem Bounded.step {m : Machine} (h : m.Bounded) : m.step.2.Bounded := by
  have hw := h.parked.step
  rcases hs : m.step with ⟨result, n⟩
  rw [hs] at hw
  cases step_cases hs with
  | waiting ha hk => exact h
  | resumed ha hk =>
    have hp := (h.parked _ ha).pc_le
    refine ⟨?_, h.stack, hw⟩
    change (m.pc + 2).toNat ≤ 0x10FE
    rw [toNat_add_two (by omega)]
    omega
  | unfetched ha hp => exact h
  | undecoded ha hp hd | refused ha hp hd hr =>
    refine ⟨?_, h.stack, hw⟩
    change (m.pc + 2).toNat ≤ 0x10FE
    rw [toNat_add_two (by omega)]
    omega
  | completed ha hp hd hc =>
    refine ⟨h.move hp hc, ?_, hw⟩
    intro a ha
    rw [move_stack] at ha
    rcases hc.mem_stack ha with hold | rfl
    · exact h.stack a hold
    · -- the return address of a call lies behind the word that was fetched
      change 2 ≤ (m.pc + 2).toNat ∧ (m.pc + 2).toNat ≤ 0x1000
      rw [toNat_add_two (by omega)]
      omega

theorem Bounded.neverWraps {m : Machine} (h : m.Bounded) : m.NeverWraps := by
  constructor
  · intro word ha hf
    have hp := (fetch_eq_ok hf).1
    exact toNat_add_two (by omega)
  · intro word i o n he hf
    obtain ⟨hp, hc, hs⟩ := he.completed
    have hn := hc.toNat_pc hp
    exact ⟨by rw [hs, hf], toNat_skip (by omega)⟩
  · intro word i o n he hf
    obtain ⟨hp, hc, hs⟩ := he.completed
    have hn := hc.toNat_pc hp
    exact ⟨by rw [hs, hf], toNat_hold (by omega)⟩
  · intro x key ha hk
    exact ⟨by rw [step_of_awaiting ha], toNat_resume hk (h.parked x ha).pc_le⟩
  · intro word base o n he
    obtain ⟨hp, hc, hs⟩ := he.completed
    have hb := base.isLt
    have hv := (m.register 0).toNat_lt
    cases hc
    refine ⟨by omega, _, rfl, by rw [hs], ?_⟩
    change (UInt16.ofNat (base.val + (m.register 0).toNat)).toNat = _
    rw [UInt16.toNat_ofNat']
    omega

/-- Throughout a history the program counter and the return addresses keep their bounds, and
nothing that a step or the step of a cycle counts wraps around. -/
theorem counters_bounded {rom : Rom} {random : RandomSource} {m : Machine}
    (hm : create rom random = .ok m) {history : List Action} (hh : ∀ a ∈ history, a.hosted) :
    let n := m.after history
    n.pc.toNat ≤ 0x10FE ∧ (∀ a ∈ n.stack.entries, 0x0002 ≤ a.toNat ∧ a.toNat ≤ 0x1000) ∧
      n.NeverWraps ∧ ∀ keys, (n.setKeys keys).NeverWraps := by
  have hb : (m.after history).Bounded :=
    hosted_induction (fun m => Fresh.bounded) (fun m => Bounded.step)
      (fun m keypad delay sound trace h => h.outside keypad delay sound trace) hm hh
  refine ⟨hb.pc_le, hb.stack, hb.neverWraps, fun keys => ?_⟩
  exact (hb.outside (Keypad.setAll _ keys) _ _ _).neverWraps

/-- A program that calls itself. -/
def callingRom : Rom := ⟨"", [0x22, 0x00]⟩

theorem counters_bounded_calling :
    ∃ m, create callingRom (RandomSource.repeating []) = .ok m ∧
      let n := m.after [.step]
      n.stack.entries = [0x202] ∧ (n.advance 0x2200).pc.toNat = n.pc.toNat + 2 := by
  generalize RandomSource.repeating [] = random
  obtain ⟨memory, hm, hw⟩ := create_here callingRom random rfl (by decide)
  have hp : (initial callingRom memory random).pc.toNat ≤ 0xFFE := show 0x200 ≤ 0xFFE by decide
  have hd : Instruction.ofWord? (initial callingRom memory random).here =
      some (.call ⟨0x200, by decide⟩) := by rw [hw]; rfl
  refine ⟨_, hm, ?_⟩
  generalize hn : Machine.after _ [.step] = n
  have hs : n = (initial callingRom memory random).step.2 := hn.symm
  rw [step_completed rfl hp hd rfl] at hs
  have hf : n.fetch = .ok 0x2200 := by
    have hh : n.here = 0x2200 := by
      rw [hs]
      exact hw
    rw [fetch_of_le (by rw [hs]; exact hp), hh]
  have hh : ∀ a ∈ [Action.step], a.hosted := by decide
  obtain ⟨-, -, hc, -⟩ := counters_bounded hm hh
  rw [hn] at hc
  exact ⟨by rw [hs]; rfl, hc.advance _ (by rw [hs]; rfl) hf⟩

end Chip8.Machine
