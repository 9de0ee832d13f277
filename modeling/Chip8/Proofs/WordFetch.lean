import Chip8.Proofs.LatestStore

/-!
# Fetching a word and reading it

A word is read where two bytes are left, wherever the position is: it may be the last number of 64
bits, behind which there is none. A fetch cuts two bytes out of the memory first and reads the word
at the start of them. It gives the word, or the fault, that reading the whole memory at the program
counter gives, so the cut alone decides whether a fetch fails.
-/
namespace Chip8

namespace Checked

/-- The word at a position of some bytes, where the position of the low byte may have no number. -/
def readAt (data : List UInt8) (position : Nat) : Except Fault UInt16 :=
  match data[position]?, (add 64 position 1).bind (data[·]?) with
  | some high, some low => .ok (Word.ofBytes high low)
  | _, _ => .error (.outOfRange position Word.size data.length)

/-- Behind the last number there is no byte, so the check of the sum refuses nothing more. -/
theorem readAt_eq {data : List UInt8} (h : data.length < 2 ^ 64) (position : Nat) :
    readAt data position = Word.readAt data position := by
  have hlow : (add 64 position 1).bind (data[·]?) = data[position + 1]? := by
    rcases Nat.lt_or_ge (position + 1) (2 ^ 64) with hp | hp
    · rw [add_of_lt hp, Option.bind_some]
    · rw [add, if_neg (Nat.not_lt_of_le hp), Option.bind_none,
        List.getElem?_eq_none (Nat.le_of_lt (Nat.lt_of_lt_of_le h hp))]
  rw [readAt, hlow]
  rfl

end Checked

namespace Word

variable {data : List UInt8} {position : Nat}

/-- A word is read if and only if both of its bytes are there. -/
theorem exists_readAt_iff :
    (∃ word, readAt data position = .ok word) ↔ position + 2 ≤ data.length := by
  constructor
  · rintro ⟨word, hword⟩
    by_contra hlt
    rw [readAt_of_le (by omega)] at hword
    cases hword
  · intro h
    exact ⟨_, readAt_of_lt (by omega)⟩

end Word

namespace Memory

/-- Reading the whole memory at a place gives the word that lies there. -/
theorem readAt_bytes (m : Memory) {a : Nat} (h : a + 1 < 4096) :
    Word.readAt m.bytes.toList a = .ok (m.wordAt a) := by
  have hlength : a + 1 < m.bytes.toList.length := by rwa [Vector.length_toList]
  rw [Word.readAt_of_lt hlength, wordAt, m.byteAt_of_lt h, m.byteAt_of_lt (Nat.lt_of_succ_lt h),
    Vector.getElem_toList, Vector.getElem_toList]

end Memory

namespace Machine

/-- A fetch reads the whole memory at the program counter. -/
theorem fetch_eq_readAt (m : Machine) :
    m.fetch = Word.readAt m.memory.bytes.toList m.pc.toNat := by
  rcases Nat.lt_or_ge 0xFFE m.pc.toNat with hp | hp
  · have hlength : m.memory.bytes.toList.length = 4096 := Vector.length_toList
    rw [fetch_of_lt hp, Word.readAt_of_le (by omega), hlength]
    rfl
  · rw [fetch_of_le hp, m.memory.readAt_bytes (by omega)]
    rfl

/-- A word is read from bytes exactly where two of them are left, and is refused with its position
and the number of the bytes elsewhere, whatever position is asked for; numbers of 64 bits are enough
for it. A fetch gives the word or the fault that reading the whole memory at the program counter
gives, and never fails behind the cut of the two bytes. -/
theorem fetch_reads_word (data : List UInt8) (position : Nat) (m : Machine) :
    (((∃ word, Word.readAt data position = .ok word) ↔ position + 2 ≤ data.length) ∧
      (∀ h : position + 2 ≤ data.length, ∃ word, Word.readAt data position = .ok word ∧
        word.toNat = 256 * data[position].toNat + data[position + 1].toNat) ∧
      (¬ position + 2 ≤ data.length →
        Word.readAt data position = .error (.outOfRange position 2 data.length)) ∧
      (data.length < 2 ^ 64 → Checked.readAt data position = Word.readAt data position)) ∧
    m.fetch = Word.readAt m.memory.bytes.toList m.pc.toNat ∧
    ∀ bytes, m.memory.readBlock m.pc.toNat Word.size = .ok bytes →
      ∃ word, Word.readAt bytes 0 = .ok word := by
  refine ⟨⟨Word.exists_readAt_iff, fun h => ?_, fun h => ?_, fun h => Checked.readAt_eq h position⟩,
    m.fetch_eq_readAt, fun bytes hbytes => ?_⟩
  · exact ⟨_, Word.readAt_of_lt (by omega), Word.toNat_ofBytes _ _⟩
  · exact Word.readAt_of_le (by omega)
  · have hlength := Memory.length_of_readBlock hbytes
    exact Word.exists_readAt_iff.mpr (Nat.le_of_eq hlength.symm)

end Machine
end Chip8
