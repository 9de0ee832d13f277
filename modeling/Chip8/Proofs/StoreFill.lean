import Chip8.Proofs.ExecutedSteps
import Chip8.Proofs.Footprint

/-!
# Registers stored and filled again

A store of the first registers reaches the cells from the index register on, one for each register,
and nothing else. Only a completed store changes a cell later on. So a fill from the same place
brings the registers back after any run that stores into none of these cells.
-/
namespace Chip8

/-- How many cells an instruction stores, from the index register on. -/
def Instruction.stores : Instruction → Nat
  | storeDigits _ => 3
  | storeRegisters last => last + 1
  | _ => 0

theorem Instruction.cell_mem_footprint {i : Instruction} {index address : Nat} :
    Part.cell address ∈ i.footprint index ↔ index ≤ address ∧ address < index + i.stores := by
  have hcells (count : Nat) :
      Part.cell address ∈ Part.cells index count ↔ index ≤ address ∧ address < index + count := by
    constructor
    · rintro ⟨k, hk, he⟩
      obtain rfl := Part.cell.inj he
      omega
    · rintro ⟨hle, hlt⟩
      exact ⟨address - index, by omega, by congr 1; omega⟩
  cases i with
  | storeDigits x => exact hcells 3
  | storeRegisters last => exact hcells (last + 1)
  | arithmetic op x y => cases h : op.setsFlag <;> simp [footprint, stores, h]
  | _ => simp [footprint, stores, Part.registersTo]

/-- A block that was read holds the bytes of its cells. -/
theorem Memory.getD_of_readBlock {m : Memory} {address length k : Nat} {block : List UInt8}
    (h : m.readBlock address length = .ok block) (hk : k < length) (default : UInt8) :
    block.getD k default = m.byteAt (address + k) := by
  unfold readBlock at h
  split at h
  · rename_i hle
    obtain rfl := Except.ok.inj h
    rw [m.byteAt_of_lt (by omega)]
    simp [hk]
  · cases h

namespace Machine

/-- The step completes an instruction that stores into a cell. -/
def StoresInto (m : Machine) (address : Nat) : Prop :=
  ∃ i signal, m.found? = some i ∧ m.step.1 = .ok signal ∧
    m.index.toNat ≤ address ∧ address < m.index.toNat + i.stores

section Cells

variable {m : Machine} {address : Nat}

theorem move_byteAt (m : Machine) (flow : Flow) (address : Nat) :
    (m.move flow).memory.byteAt address = m.memory.byteAt address :=
  agree_move (p := .cell address) flow

/-- A step keeps each cell that it does not store into. -/
theorem byteAt_step (h : ¬ m.StoresInto address) :
    m.step.2.memory.byteAt address = m.memory.byteAt address := by
  cases hf : m.found? with
  | none =>
    obtain ⟨word, registers, pc, keypad, awaiting, he⟩ := step_idle hf
    rw [he]
  | some i =>
    rcases step_of_found hf with ⟨fault, -, he⟩ | ⟨o, n, hc, he⟩
    · rw [he]
      rfl
    · have hout : Part.cell address ∉ i.footprint (m.fetched i).index.toNat := by
        intro hin
        obtain ⟨hle, hlt⟩ := Instruction.cell_mem_footprint.mp hin
        exact h ⟨i, o.signal, hf, by rw [he], hle, hlt⟩
      rw [he, move_byteAt]
      exact hc.agree hout

/-- A run keeps each cell that none of its steps stores into. -/
theorem byteAt_after {run : List Action} (hr : ∀ a ∈ run, a.runs)
    (h : ∀ s ∈ m.steps run, ¬ s.StoresInto address) :
    (m.after run).memory.byteAt address = m.memory.byteAt address := by
  induction run generalizing m with
  | nil => rfl
  | cons a rest ih =>
    obtain ⟨ha, hrest⟩ := List.forall_mem_cons.mp hr
    obtain ⟨hfirst, hlater⟩ := List.forall_mem_append.mp h
    rw [after, ih hrest hlater]
    rcases act_of_runs (m := m) ha with rfl | ⟨keypad, delay, sound, he⟩
    · exact byteAt_step (hfirst m (List.mem_singleton_self m))
    · rw [he]
      rfl

end Cells

/-- A fill takes each register it reaches from its cell. -/
theorem Completed.register_of_fill {m n : Machine} {last : Register} {o : Outcome}
    (h : Completed m (.fillRegisters last) o n) (r : Register) :
    n.register r = if r ≤ last then m.memory.byteAt (m.index.toNat + r) else m.register r := by
  by_cases hr : r ≤ last
  · rw [if_pos hr]
    cases h with
    | fillRegisters _ hb =>
      rw [← Memory.getD_of_readBlock hb (Nat.lt_succ_of_le hr) (m.register r)]
      simp [register]
  · rw [if_neg hr]
    refine h.agree (p := .register r) ?_
    rintro ⟨q, hq, he⟩
    obtain rfl := Part.register.inj he
    exact hr hq

section Executed

variable {m : Machine} {a : Action} {x : Register}

/-- A store that succeeds finds room for its registers, puts each into its cell and leaves the other
cells and the index register as they are. -/
theorem act_of_store {signal : Signal} (hx : m.executed? a = some (.storeRegisters x))
    (ha : (m.act a).1.result? = some (.ok signal)) :
    (m.act a).2.index = m.index ∧ m.index.toNat + x < 4096 ∧
      (∀ r ≤ x, (m.act a).2.memory.byteAt (m.index.toNat + r) = m.register r) ∧
      ∀ address, address < m.index.toNat ∨ m.index.toNat + x < address →
        (m.act a).2.memory.byteAt address = m.memory.byteAt address := by
  obtain ⟨word, pc, keypad, trace, ⟨fault, -, hfault, -⟩ | ⟨o, n, hc, -, he⟩⟩ := act_of_executed hx
  · cases hfault.symm.trans ha
  have hagree {p : Part} (hp : p ∉ (Instruction.storeRegisters x).footprint m.index.toNat) :
      Agree (m.withWord word pc keypad trace) (m.act a).2 p := by
    rw [he]
    exact (hc.agree hp).trans (agree_move o.flow)
  obtain ⟨hroom, hstored⟩ := hc.leaves
  refine ⟨hagree (p := .index) ?_, hroom, fun r hr => ?_, fun address hout => ?_⟩
  · rintro ⟨k, -, hk⟩
    cases hk
  · rw [he, move_byteAt]
    exact hstored r hr
  · refine hagree (p := .cell address) fun hin => ?_
    obtain ⟨hle, hlt⟩ := Instruction.cell_mem_footprint.mp hin
    change address < m.index.toNat + (x + 1) at hlt
    omega

/-- A fill with room for its registers succeeds and takes each from its cell. -/
theorem act_of_fill (hx : m.executed? a = some (.fillRegisters x))
    (hroom : m.index.toNat + x < 4096) :
    (m.act a).1.result? = some (.ok .quiet) ∧
      (∀ r, (m.act a).2.register r =
        if r ≤ x then m.memory.byteAt (m.index.toNat + r) else m.register r) ∧
      (m.act a).2.index = m.index ∧ (m.act a).2.memory = m.memory := by
  obtain ⟨word, pc, keypad, trace, ⟨fault, hr, -⟩ | ⟨o, n, hc, hresult, he⟩⟩ := act_of_executed hx
  · cases hr with
    | fillRegisters _ hfull =>
      change 4096 < m.index.toNat + (x + 1) at hfull
      omega
  have hregister := hc.register_of_fill
  cases hc
  rw [he]
  exact ⟨hresult, hregister, rfl, rfl⟩

end Executed

/-- A store of the first registers that succeeds leaves the index register and the cells beyond as
they are. A fill from the same place brings back as many of the registers as it reaches, after any
run in which nothing is stored into their cells. -/
theorem filled_of_stored {m : Machine} {a : Action} {x : Register} {signal : Signal}
    (hx : m.executed? a = some (.storeRegisters x))
    (ha : (m.act a).1.result? = some (.ok signal)) :
    let k := (m.act a).2
    k.index = m.index ∧
    (∀ address, address < m.index.toNat ∨ m.index.toNat + x < address →
      k.memory.byteAt address = m.memory.byteAt address) ∧
    ∀ run, (∀ b ∈ run, b.runs) →
      (∀ s ∈ k.steps run, ∀ address, m.index.toNat ≤ address → address ≤ m.index.toNat + x →
        ¬ s.StoresInto address) →
      let n := k.after run
      n.index = m.index → ∀ y ≤ x, ∀ b, n.executed? b = some (.fillRegisters y) →
        (n.act b).1.result? = some (.ok .quiet) ∧
        (∀ r, (n.act b).2.register r = if r ≤ y then m.register r else n.register r) ∧
        (n.act b).2.index = n.index ∧ (n.act b).2.memory = n.memory := by
  intro k
  obtain ⟨hindex, hroom, hstored, hbeyond⟩ := act_of_store hx ha
  refine ⟨hindex, hbeyond, ?_⟩
  intro run hrun hkept n hn y hy b hb
  have hyx : y.val ≤ x.val := hy
  obtain ⟨hresult, hregister, hsame⟩ := act_of_fill hb (by rw [hn]; omega)
  refine ⟨hresult, fun r => ?_, hsame⟩
  rw [hregister r]
  by_cases hr : r ≤ y
  · have hrx : r.val ≤ x.val := Nat.le_trans hr hyx
    have hcell : n.memory.byteAt (m.index.toNat + r) = k.memory.byteAt (m.index.toNat + r) := by
      apply byteAt_after hrun
      intro s hs
      exact hkept s hs _ (Nat.le_add_right _ _) (Nat.add_le_add_left hrx _)
    rw [if_pos hr, if_pos hr, hn, hcell]
    exact hstored r hrx
  · rw [if_neg hr, if_neg hr]

/-- A program that stores the registers 0 and 1, loads the register 0 and fills both again. -/
def savingRom : Rom := ⟨"", [0xF1, 0x55, 0x60, 0x07, 0xF1, 0x65]⟩

/-- A machine at the start of this program, with three in the register 0. -/
def saving (memory : Memory) (random : RandomSource) : Machine :=
  { initial savingRom memory random with
    index := 0x300, registers := (Vector.replicate 16 0).set 0 3 }

theorem filled_of_stored_saving :
    ∃ memory, load savingRom = .ok memory ∧
      let n := (saving memory (RandomSource.repeating [])).after [.step, .step]
      n.register 0 = 7 ∧ n.step.2.register 0 = 3 := by
  generalize RandomSource.repeating [] = random
  have hl := load_of_le (show start + savingRom.data.length ≤ 4096 by decide)
  generalize Memory.blank.overlay Font.location Font.bytes = font at hl
  have hload : (font.overlay start savingRom.data).wordAt 0x202 = 0x6007 :=
    font.wordAt_overlay_add start 2 (by decide) (by decide)
  have hfill : (font.overlay start savingRom.data).wordAt 0x204 = 0xF165 :=
    font.wordAt_overlay_add start 4 (by decide) (by decide)
  refine ⟨_, hl, ?_⟩
  generalize font.overlay start savingRom.data = memory at hl hload hfill
  generalize hi : saving memory random = m
  have hstore : m.found? = some (.storeRegisters (Nibble.ofNat 1)) := by
    rw [← hi]
    exact found?_of_load (k := 0) hl rfl rfl rfl rfl rfl
  obtain ⟨stored, hstep⟩ : ∃ stored, m.step =
      (.ok .quiet, { m.fetched (.storeRegisters (Nibble.ofNat 1)) with memory := stored }) := by
    rcases step_of_found hstore with ⟨fault, hr, -⟩ | ⟨o, n, hc, he⟩
    · cases hr with
      | storeRegisters _ hfull =>
        rw [← hi] at hfull
        exact absurd hfull (show ¬ 4096 < 0x300 + 2 by decide)
    · cases hc
      exact ⟨_, he⟩
  have hrun (m : Machine) : m.after [.step] = m.step.2 ∧ m.steps [.step] = [m] ∧
    m.after [.step, .step] = m.step.2.step.2 := ⟨rfl, rfl, rfl⟩
  obtain ⟨-, hbeyond, hback⟩ := filled_of_stored (a := .step) hstore
    (by rw [act_step_result, hstep])
  rw [(hrun m).2.2]
  rw [act_step_left] at hbeyond hback
  generalize hk : m.step.2 = k at hbeyond hback
  rw [hstep] at hk
  have hword {address : Nat} (h : address + 1 < 0x300) :
      k.memory.wordAt address = memory.wordAt address := by
    have hbase : m.index.toNat = 0x300 := by rw [← hi]; rfl
    have hmemory : m.memory = memory := by rw [← hi]; rfl
    rw [Memory.wordAt, Memory.wordAt, hbeyond _ (.inl (by omega)), hbeyond _ (.inl (by omega)),
      hmemory]
  have hkload : k.found? = some (.load (Nibble.ofNat 0) 7) := by
    have hpc : k.pc.toNat = 0x202 := by
      rw [← hk, ← hi]
      rfl
    have hw := (hword (show 0x202 + 1 < 0x300 by decide)).trans hload
    exact found?_of_wordAt (by rw [← hk, ← hi]; rfl) hpc (by decide) hw rfl
  have hloaded := step_completes hkload (.load _ _)
  have hquiet (address : Nat) : ¬ k.StoresInto address := by
    rintro ⟨i, signal, hf, -, hle, hlt⟩
    obtain rfl := Option.some.inj (hkload.symm.trans hf)
    rw [show Instruction.stores (.load (Nibble.ofNat 0) 7) = 0 from rfl] at hlt
    omega
  have hkfill : k.step.2.found? = some (.fillRegisters (Nibble.ofNat 1)) := by
    have hpc : k.step.2.pc.toNat = 0x204 := by
      rw [hloaded, ← hk, ← hi]
      rfl
    have hw : k.step.2.memory.wordAt 0x204 = 0xF165 := by
      rw [Memory.wordAt, byteAt_step (hquiet _), byteAt_step (hquiet _)]
      exact (hword (by decide)).trans hfill
    exact found?_of_wordAt (by rw [hloaded, ← hk, ← hi]; rfl) hpc (by decide) hw rfl
  have hfilled := hback [.step] (by decide)
  rw [(hrun k).1, (hrun k).2.1] at hfilled
  obtain ⟨-, hregister, -⟩ := hfilled (by simp [hquiet])
    (by rw [hloaded, ← hk]; rfl) _ (Nat.le_refl _) .step hkfill
  rw [act_step_left] at hregister
  constructor
  · rw [hloaded]
    exact (register_setRegister _ _ _ _).trans (if_pos rfl)
  · rw [hregister, if_pos (by decide), ← hi]
    rfl

end Machine
end Chip8
