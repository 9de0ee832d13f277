import Chip8.Machine.Step
import Chip8.Proofs.InstructionRules

/-!
# What a step can do

A step is one of six: it goes on waiting, ends a wait, finds no word, finds no instruction, is
refused or completes an instruction. Later proofs take a step apart by this rule and do not look
into it again.
-/
namespace Chip8

namespace Memory

/-- The byte at an address, zero behind the end. -/
def byteAt (m : Memory) (address : Nat) : UInt8 := m.bytes[address]?.getD 0

/-- The word at an address, the high byte first. -/
def wordAt (m : Memory) (address : Nat) : UInt16 :=
  Word.ofBytes (m.byteAt address) (m.byteAt (address + 1))

theorem byteAt_of_lt (m : Memory) {address : Nat} (h : address < 4096) :
    m.byteAt address = m.bytes[address] := by
  simp [byteAt, h]

theorem byteAt_overlay (m : Memory) (address : Nat) (data : List UInt8) {a : Nat}
    (h : a < 4096) :
    (m.overlay address data).byteAt a =
      if address ≤ a then data.getD (a - address) (m.byteAt a) else m.byteAt a := by
  rw [byteAt_of_lt _ h, getElem_overlay, byteAt_of_lt _ h]

theorem wordAt_overlay_add (m : Memory) (address k : Nat) {data : List UInt8}
    (hk : k + 1 < data.length) (h : address + k + 1 < 4096) :
    (m.overlay address data).wordAt (address + k) = Word.ofBytes data[k] data[k + 1] := by
  rw [wordAt, byteAt_overlay _ _ _ (by omega), byteAt_overlay _ _ _ h, if_pos (by omega),
    if_pos (by omega), Nat.add_assoc, Nat.add_sub_cancel_left, Nat.add_sub_cancel_left]
  simp [hk, show k < data.length by omega]

theorem wordAt_overlay (m : Memory) {address : Nat} (high low : UInt8) (rest : List UInt8)
    (h : address + 1 < 4096) :
    (m.overlay address (high :: low :: rest)).wordAt address = Word.ofBytes high low := by
  have hk : 0 + 1 < (high :: low :: rest).length := by simp
  exact m.wordAt_overlay_add address 0 hk h

theorem byteAt_of_le (m : Memory) {address : Nat} (h : 4096 ≤ address) : m.byteAt address = 0 := by
  simp [byteAt, Nat.not_lt_of_le h]

/-- A block that was stored reads back, and the other bytes are as before. -/
theorem byteAt_of_storeBlock {m memory : Memory} {address : Nat} {data : List UInt8}
    (h : m.storeBlock address data = .ok memory) (a : Nat) :
    memory.byteAt a =
      if address ≤ a ∧ a < address + data.length then data.getD (a - address) 0
      else m.byteAt a := by
  have hle := le_of_storeBlock h
  rw [m.storeBlock_of_le hle] at h
  obtain rfl := Except.ok.inj h
  rcases Nat.lt_or_ge a 4096 with ha | ha
  · rw [byteAt_overlay _ _ _ ha]
    grind
  · rw [if_neg (by omega), byteAt_of_le _ ha, byteAt_of_le _ ha]

theorem byteAt_stored {m memory : Memory} {address : Nat} {data : List UInt8}
    (h : m.storeBlock address data = .ok memory) {k : Nat} (hk : k < data.length) :
    memory.byteAt (address + k) = data[k] := by
  rw [byteAt_of_storeBlock h, if_pos (by omega), Nat.add_sub_cancel_left]
  simp [hk]

end Memory

namespace Machine

/-- The word at the program counter. -/
def here (m : Machine) : UInt16 := m.memory.wordAt m.pc.toNat

/-- The machine behind the word at the program counter, with its instruction recorded. -/
def fetched (m : Machine) (i : Instruction) : Machine := (m.advance m.here).record (m.pc, i)

theorem here_initial (rom : Rom) (memory : Memory) (random : RandomSource) (high low : UInt8)
    (rest : List UInt8) :
    (initial rom (memory.overlay start (high :: low :: rest)) random).here =
      Word.ofBytes high low :=
  memory.wordAt_overlay high low rest (by decide)

/-- An image that fits starts the program at its first two bytes. -/
theorem create_here (rom : Rom) (random : RandomSource) {high low : UInt8} {rest : List UInt8}
    (hr : rom.data = high :: low :: rest) (h : start + rom.data.length ≤ 4096) :
    ∃ memory, create rom random = .ok (initial rom memory random) ∧
      (initial rom memory random).here = Word.ofBytes high low := by
  refine ⟨_, create_of_le h random, ?_⟩
  rw [hr]
  exact here_initial rom _ random high low rest

theorem fetch_of_le {m : Machine} (h : m.pc.toNat ≤ 0xFFE) : m.fetch = .ok m.here := by
  have hr := m.memory.readBlock_of_le (show m.pc.toNat + 2 ≤ 4096 by omega)
  have h0 := m.memory.byteAt_of_lt (show m.pc.toNat < 4096 by omega)
  have h1 := m.memory.byteAt_of_lt (show m.pc.toNat + 1 < 4096 by omega)
  rw [fetch, Word.size, hr, Except.bind, Word.readAt_of_lt (by simp), here, Memory.wordAt, h0, h1]
  simp

theorem fetch_of_lt {m : Machine} (h : 0xFFE < m.pc.toNat) :
    m.fetch = .error (.outOfRange m.pc.toNat 2 4096) := by
  rw [fetch, Word.size, m.memory.readBlock_of_lt (by omega)]
  rfl

theorem fetch_eq_ok {m : Machine} {word : UInt16} (h : m.fetch = .ok word) :
    m.pc.toNat ≤ 0xFFE ∧ word = m.here := by
  rcases Nat.lt_or_ge 0xFFE m.pc.toNat with hp | hp
  · cases (fetch_of_lt hp).symm.trans h
  · exact ⟨hp, (Except.ok.inj ((fetch_of_le hp).symm.trans h)).symm⟩

theorem toNat_add_two {pc : UInt16} (h : pc.toNat < 65534) : (pc + 2).toNat = pc.toNat + 2 := by
  rw [UInt16.toNat_add]
  change (pc.toNat + 2) % 65536 = _
  omega

/-- A fetch leaves the grounds of a refusal alone. -/
theorem refused_fetched (m : Machine) (j : Instruction) {i : Instruction} {fault : Fault} :
    Refused (m.fetched j) i fault ↔ Refused m i fault :=
  ⟨fun h => h.congr rfl rfl, fun h => h.congr rfl rfl⟩

/-- The six ways of a step, each with its result and the machine it leaves. -/
inductive StepCase (m : Machine) : Except Fault Signal → Machine → Prop
  | waiting {x : Register} (ha : m.awaiting = some x) (hk : m.keypad.pressed = none) :
      StepCase m (.ok .wait) m
  | resumed {x : Register} {key : Key} (ha : m.awaiting = some x)
      (hk : m.keypad.pressed = some key) :
      StepCase m (.ok .quiet)
        { m with
          registers := (m.setRegister x (UInt8.ofNat key)).registers, pc := m.pc + 2,
          keypad := { m.keypad with pressed := none }, awaiting := none }
  | unfetched (ha : m.awaiting = none) (hp : 0xFFE < m.pc.toNat) :
      StepCase m (.error (.outOfRange m.pc.toNat 2 4096)) m
  | undecoded (ha : m.awaiting = none) (hp : m.pc.toNat ≤ 0xFFE)
      (hd : Instruction.ofWord? m.here = none) :
      StepCase m (.error (.invalidOpcode m.here)) (m.advance m.here)
  | refused {i : Instruction} {fault : Fault} (ha : m.awaiting = none) (hp : m.pc.toNat ≤ 0xFFE)
      (hd : Instruction.ofWord? m.here = some i) (hr : Refused m i fault) :
      StepCase m (.error fault) (m.fetched i)
  | completed {i : Instruction} {o : Outcome} {n : Machine} (ha : m.awaiting = none)
      (hp : m.pc.toNat ≤ 0xFFE) (hd : Instruction.ofWord? m.here = some i)
      (hc : Completed (m.fetched i) i o n) : StepCase m (.ok o.signal) (n.move o.flow)

section Equations

variable {m : Machine}

theorem step_waiting {x : Register} (ha : m.awaiting = some x) (hk : m.keypad.pressed = none) :
    m.step = (.ok .wait, m) := by
  simp only [step, ha, resume, Keypad.takePress, hk]

theorem step_resumed {x : Register} {key : Key} (ha : m.awaiting = some x)
    (hk : m.keypad.pressed = some key) :
    m.step = (.ok .quiet,
      { m with
        registers := (m.setRegister x (UInt8.ofNat key)).registers, pc := m.pc + 2,
        keypad := { m.keypad with pressed := none }, awaiting := none }) := by
  simp only [step, ha, resume, Keypad.takePress, hk, setRegister]

theorem step_unfetched (ha : m.awaiting = none) (hp : 0xFFE < m.pc.toNat) :
    m.step = (.error (.outOfRange m.pc.toNat 2 4096), m) := by
  simp only [step, ha, fetch_of_lt hp]

theorem step_undecoded (ha : m.awaiting = none) (hp : m.pc.toNat ≤ 0xFFE)
    (hd : Instruction.ofWord? m.here = none) :
    m.step = (.error (.invalidOpcode m.here), m.advance m.here) := by
  simp only [step, ha, fetch_of_le hp, Instruction.decode, hd]

theorem step_refused {i : Instruction} {fault : Fault} (ha : m.awaiting = none)
    (hp : m.pc.toNat ≤ 0xFFE) (hd : Instruction.ofWord? m.here = some i)
    (hr : Refused m i fault) : m.step = (.error fault, m.fetched i) := by
  have he := effect_of_refused ((m.refused_fetched i).mpr hr)
  rw [fetched] at he ⊢
  simp only [step, ha, fetch_of_le hp, Instruction.decode, hd, execute, Exec.on_bind, he]

theorem step_completed {i : Instruction} {o : Outcome} {n : Machine} (ha : m.awaiting = none)
    (hp : m.pc.toNat ≤ 0xFFE) (hd : Instruction.ofWord? m.here = some i)
    (he : (effect i).on (m.fetched i) = (.ok o, n)) :
    m.step = (.ok o.signal, n.move o.flow) := by
  rw [fetched] at he
  simp only [step, ha, fetch_of_le hp, Instruction.decode, hd, execute, Exec.on_bind, he,
    Exec.on_modify, Exec.on_pure]

/-- The step that starts a wait. -/
theorem step_awaitKey {x : Register} (ha : m.awaiting = none)
    (hp : m.pc.toNat ≤ 0xFFE) (hd : Instruction.ofWord? m.here = some (.awaitKey x)) :
    m.step = (.ok .wait,
      { m with
        word := m.here, keypad := { m.keypad with pressed := none }, awaiting := some x,
        trace := m.trace.map (· ++ [(m.pc, .awaitKey x)]) }) := by
  have hs := step_completed ha hp hd
    (show (effect (.awaitKey x)).on (m.fetched (.awaitKey x)) =
      (.ok ⟨.hold, .wait⟩, (m.fetched (.awaitKey x)).awaitKey x) from rfl)
  have hpc : m.pc + 2 - 2 = m.pc := UInt16.add_sub_cancel m.pc 2
  rw [hs]
  simp only [move, awaitKey, fetched, advance, record, Keypad.takePress, hpc]

end Equations

/-- A step goes one of its six ways. -/
theorem step_cases {m n : Machine} {result : Except Fault Signal} (h : m.step = (result, n)) :
    StepCase m result n := by
  cases ha : m.awaiting with
  | some x =>
    cases hk : m.keypad.pressed with
    | none =>
      cases (step_waiting ha hk).symm.trans h
      exact .waiting ha hk
    | some key =>
      cases (step_resumed ha hk).symm.trans h
      exact .resumed ha hk
  | none =>
    rcases Nat.lt_or_ge 0xFFE m.pc.toNat with hp | hp
    · cases (step_unfetched ha hp).symm.trans h
      exact .unfetched ha hp
    cases hd : Instruction.ofWord? m.here with
    | none =>
      cases (step_undecoded ha hp hd).symm.trans h
      exact .undecoded ha hp hd
    | some i =>
      rcases effect_cases (m.fetched i) i with ⟨fault, hr, -⟩ | ⟨o, n, hc, he⟩
      · have hr := (m.refused_fetched i).mp hr
        cases (step_refused ha hp hd hr).symm.trans h
        exact .refused ha hp hd hr
      · cases (step_completed ha hp hd he).symm.trans h
        exact .completed ha hp hd hc

/-- Each of the six ways is the way of the step. -/
theorem StepCase.step_eq {m n : Machine} {result : Except Fault Signal}
    (h : StepCase m result n) : m.step = (result, n) := by
  cases h with
  | waiting ha hk => exact step_waiting ha hk
  | resumed ha hk => exact step_resumed ha hk
  | unfetched ha hp => exact step_unfetched ha hp
  | undecoded ha hp hd => exact step_undecoded ha hp hd
  | refused ha hp hd hr => exact step_refused ha hp hd hr
  | completed ha hp hd hc => exact step_completed ha hp hd (effect_of_completed hc)

end Machine
end Chip8
