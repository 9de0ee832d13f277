import Mathlib.Data.List.GetD
import Chip8.Proofs.LatestStore

/-!
# Images in memory

A fresh machine holds the font from its first byte on and the image from the start of programs on;
all bytes between them and behind them are zero. An image is refused exactly if it does not fit, and
the fault names the whole of it. So the program that a fresh machine finds is the image, word by
word.
-/
namespace Chip8.Machine

/-- A blank memory with the font and an image, as far as it fits. -/
def imageMemory (data : List UInt8) : Memory :=
  (Memory.blank.overlay Font.location Font.bytes).overlay start data

section Cells

variable (data : List UInt8) {a : Nat}

theorem byteAt_font (ha : a < 4096) :
    (Memory.blank.overlay Font.location Font.bytes).byteAt a = Font.bytes.getD a 0 := by
  rw [Memory.byteAt_overlay _ _ _ ha, if_pos (show Font.location ≤ a from Nat.zero_le a),
    Memory.byteAt_blank]
  rfl

/-- In front of the start of programs the image changes nothing. -/
theorem imageMemory_of_lt (h : a < start) : (imageMemory data).byteAt a = Font.bytes.getD a 0 := by
  have ha : a < 4096 := Nat.lt_trans h (by decide)
  rw [imageMemory, Memory.byteAt_overlay _ _ _ ha, if_neg (Nat.not_le_of_lt h), byteAt_font ha]

/-- From the start of programs on there is nothing of the font. -/
theorem imageMemory_of_le (h : start ≤ a) (ha : a < 4096) :
    (imageMemory data).byteAt a = data.getD (a - start) 0 := by
  have hfont : Font.bytes.length ≤ a := by
    rw [Font.length_bytes]
    exact Nat.le_trans (by decide) h
  rw [imageMemory, Memory.byteAt_overlay _ _ _ ha, if_pos h, byteAt_font ha,
    List.getD_eq_default _ _ hfont]

theorem byteAt_imageMemory (ha : a < 4096) :
    (imageMemory data).byteAt a =
      if a < 80 then Font.bytes.getD a 0
      else if start ≤ a ∧ a < start + data.length then data.getD (a - start) 0
      else 0 := by
  have hfont : Font.bytes.length = 80 := Font.length_bytes
  rcases Nat.lt_or_ge a start with hlt | hge
  · rw [imageMemory_of_lt data hlt, if_neg (show ¬ (start ≤ a ∧ _) by omega)]
    split
    · rfl
    · exact List.getD_eq_default _ _ (by omega)
  · have hbehind : ¬ a < 80 := Nat.not_lt_of_le (Nat.le_trans (by decide) hge)
    rw [imageMemory_of_le data hge ha, if_neg hbehind]
    split
    · rfl
    · exact List.getD_eq_default _ _ (by omega)

end Cells

/-- An image that reaches behind the memory is refused. -/
theorem create_of_lt {rom : Rom} (h : 4096 < start + rom.data.length) (random : RandomSource) :
    create rom random = .error (.outOfRange start rom.data.length Memory.capacity) := by
  rw [create, load, Memory.storeBlock_of_le _ (by decide), Except.bind, Memory.storeBlock_of_lt _ h]
  rfl

section Create

variable {rom : Rom} {random : RandomSource}

theorem memory_of_create {m : Machine} (h : create rom random = .ok m) :
    start + rom.data.length ≤ 4096 ∧ m.memory = imageMemory rom.data := by
  rcases Nat.lt_or_ge 4096 (start + rom.data.length) with hlt | hfit
  · cases (create_of_lt hlt random).symm.trans h
  · cases (create_of_le hfit random).symm.trans h
    exact ⟨hfit, rfl⟩

theorem fault_of_create {fault : Fault} (h : create rom random = .error fault) :
    fault = .outOfRange start rom.data.length Memory.capacity := by
  rcases Nat.lt_or_ge 4096 (start + rom.data.length) with hlt | hfit
  · exact (Except.error.inj ((create_of_lt hlt random).symm.trans h)).symm
  · cases (create_of_le hfit random).symm.trans h

end Create

/-- An image is loaded if and only if it fits behind the start of programs. A fresh machine then
holds the font, the image and zeros elsewhere, and a fetch finds the image word by word. Otherwise
the fault names the start and the length of the image. -/
theorem image_loaded (name : String) (data : List UInt8) (random : RandomSource) :
    ((∃ m, create ⟨name, data⟩ random = .ok m) ↔ data.length ≤ 4096 - 0x200) ∧
    (∀ m, create ⟨name, data⟩ random = .ok m →
      (∀ a (h : a < 4096), m.memory.bytes.get ⟨a, h⟩ =
        if a < 80 then Font.bytes.getD a 0
        else if 0x200 ≤ a ∧ a < 0x200 + data.length then data.getD (a - 0x200) 0
        else 0) ∧
      ∀ k (h : 2 * k + 1 < data.length) (n : Machine),
        n.memory = m.memory → n.pc.toNat = 0x200 + 2 * k →
        ∃ word, n.fetch = .ok word ∧
          word.toNat = 256 * data[2 * k].toNat + data[2 * k + 1].toNat) ∧
    ∀ fault, create ⟨name, data⟩ random = .error fault →
      fault = .outOfRange 0x200 data.length 4096 := by
  refine ⟨⟨?_, fun h => ?_⟩, fun m hm => ⟨fun a ha => ?_, ?_⟩, fun fault => fault_of_create⟩
  · rintro ⟨m, hm⟩
    exact Nat.le_sub_of_add_le' (memory_of_create hm).1
  · exact ⟨_, create_of_le (Nat.add_le_of_le_sub' (by decide) h) random⟩
  · have hbyte := byteAt_imageMemory data ha
    rw [← (memory_of_create hm).2, Memory.byteAt_of_lt _ ha] at hbyte
    exact hbyte
  · -- Both bytes of the word are of the image, so the fetch stays within the memory.
    intro k hk n hn hpc
    obtain ⟨hfit, hmemory⟩ := memory_of_create hm
    change 0x200 + data.length ≤ 4096 at hfit
    have hword : (imageMemory data).wordAt (0x200 + 2 * k) = _ :=
      Memory.wordAt_overlay_add _ start (2 * k) hk (show 0x200 + 2 * k + 1 < 4096 by omega)
    refine ⟨n.here, fetch_of_le (by omega), ?_⟩
    rw [here, hn, hmemory, hpc, hword, Word.toNat_ofBytes]

/-- An image may fill the memory up to its last word, and one byte more is refused. -/
theorem image_loaded_full :
    (∃ m, create ⟨"FULL", List.replicate 3584 0x12⟩ (.repeating []) = .ok m ∧
      ∃ word, ({ m with pc := 0xFFE } : Machine).fetch = .ok word ∧ word.toNat = 0x1212) ∧
    create ⟨"BIG", List.replicate 3585 0x12⟩ (.repeating []) =
      .error (.outOfRange 0x200 3585 4096) := by
  obtain ⟨hfits, hloaded, -⟩ := image_loaded "FULL" (List.replicate 3584 0x12) (.repeating [])
  obtain ⟨hbig, -, hfault⟩ := image_loaded "BIG" (List.replicate 3585 0x12) (.repeating [])
  rw [List.length_replicate] at hfits hbig hfault
  constructor
  · obtain ⟨m, hm⟩ := hfits.mpr (by decide)
    obtain ⟨word, hword, hvalue⟩ := (hloaded m hm).2 1791 (by rw [List.length_replicate]; decide)
      { m with pc := 0xFFE } rfl rfl
    rw [List.getElem_replicate, List.getElem_replicate] at hvalue
    exact ⟨m, hm, word, hword, hvalue⟩
  · cases hcreate : create ⟨"BIG", List.replicate 3585 0x12⟩ (.repeating []) with
    | ok m => exact absurd (hbig.mp ⟨m, hcreate⟩) (by decide)
    | error fault => rw [hfault fault hcreate]

end Chip8.Machine
