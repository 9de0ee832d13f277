import Chip8.Proofs.Dump.Cells

/-!
# The dump identifies the machine

A dump is read from its end. The name of the program is the only part that may hold line breaks,
and it may well look like a section, so the sections are not found from the front. The last lines
are the three tables and a brace. In front of them the title of the memory is the last line to begin
with a single tabulator, and the ten lines before it are the numbers. What is left is the name.
-/
namespace Chip8

namespace Dump

/-! ## Lines -/

/-- A list is cut at the last place of an element. -/
theorem last_inj {α : Type} {x x' z z' : List α} {a : α} (hz : a ∉ z) (hz' : a ∉ z')
    (h : x ++ a :: z = x' ++ a :: z') : x = x' ∧ z = z' := by
  rcases List.append_eq_append_iff.mp h with ⟨gap, hx, hrest⟩ | ⟨gap, hx, hrest⟩
  · cases gap with
    | nil => exact ⟨by rw [hx, List.append_nil], (List.cons.inj hrest).2⟩
    | cons b gap =>
      have hin : z = gap ++ a :: z' := (List.cons.inj hrest).2
      exact (hz (hin ▸ List.mem_append_right gap List.mem_cons_self)).elim
  · cases gap with
    | nil => exact ⟨by rw [hx, List.append_nil], (List.cons.inj hrest).2.symm⟩
    | cons b gap =>
      have hin : z' = gap ++ a :: z := (List.cons.inj hrest).2
      exact (hz' (hin ▸ List.mem_append_right gap List.mem_cons_self)).elim

/-- Joined lines come apart at the line breaks, also at those that they hold themselves. -/
theorem splitOn_intercalate {lines : List String} (h : lines ≠ []) :
    ("\n".intercalate lines).toList.splitOn '\n' =
      lines.flatMap fun line => line.toList.splitOn '\n' := by
  rw [String.toList_intercalate]
  induction lines with
  | nil => exact absurd rfl h
  | cons line rest ih =>
    cases rest with
    | nil => simp
    | cons next rest =>
      have hrest := ih (List.cons_ne_nil next rest)
      rw [List.map_cons] at hrest
      rw [List.map_cons, List.map_cons, List.intercalate_cons_cons, List.append_assoc,
        List.flatMap_cons, ← hrest]
      exact List.splitOn_append_cons_self _ _

/-- The section has no line break in any of its lines. -/
structure Section.IsOneLined (s : Section) : Prop where
  title : '\n' ∉ s.title.toList
  lines : ∀ line ∈ s.lines, '\n' ∉ line.toList

theorem Section.IsOneLined.text {s : Section} (h : s.IsOneLined) :
    ∀ line ∈ s.text, '\n' ∉ line.toList := by
  intro line hm
  rcases List.mem_cons.mp hm with rfl | hm
  · simp [h.title]
  · obtain ⟨shown, hs, rfl⟩ := List.mem_map.mp hm
    simp [h.lines shown hs]

theorem splitOn_sections {parts : List Section} (h : ∀ s ∈ parts, s.IsOneLined) :
    ((parts.flatMap Section.text).flatMap fun line => line.toList.splitOn '\n') =
      (parts.flatMap Section.text).map String.toList := by
  rw [← List.flatMap_singleton' (List.map _ _), List.flatMap_map]
  refine List.flatMap_congr fun line hm => ?_
  obtain ⟨s, hs, hm⟩ := List.mem_flatMap.mp hm
  exact List.splitOn_eq_singleton ((h s hs).text line hm)

theorem toList_injective : Function.Injective String.toList := fun _ _ => String.toList_inj.mp

theorem indent_injective : Function.Injective fun line : String => "\t\t" ++ line :=
  fun _ _ => (String.append_right_inj "\t\t").mp

theorem Section.text_inj {s t : Section} (h : s.text = t.text) : s = t := by
  obtain ⟨htitle, hlines⟩ := List.cons.inj h
  rw [String.append_left_inj, String.append_right_inj] at htitle
  obtain ⟨title, lines⟩ := s
  obtain ⟨title', lines'⟩ := t
  obtain rfl : title = title' := htitle
  obtain rfl : lines = lines' := List.map_injective_iff.mpr indent_injective hlines
  rfl

/-- The lines of some sections. -/
def shown (parts : List Section) : List (List Char) :=
  (parts.flatMap Section.text).map String.toList

theorem shown_append (parts others : List Section) :
    shown (parts ++ others) = shown parts ++ shown others := by
  rw [shown, List.flatMap_append, List.map_append]
  rfl

/-- Sections of known sizes are known from their lines. -/
theorem shown_inj {s t : List Section}
    (hl : s.map (fun part => part.lines.length) = t.map fun part => part.lines.length)
    (h : shown s = shown t) : s = t := by
  replace h := List.map_injective_iff.mpr toList_injective h
  induction s generalizing t with
  | nil => exact (List.map_eq_nil_iff.mp hl.symm).symm
  | cons part s ih =>
    obtain ⟨other, t, rfl, hother, ht⟩ := List.map_eq_cons_iff.mp hl.symm
    obtain ⟨htext, hrest⟩ := List.append_inj h (by simp [Section.text, hother])
    rw [Section.text_inj htext, ih ht.symm hrest]

/-! ## The parts of a dump -/

def numbers (m : Machine) : List Section :=
  [⟨"Opcode", [hex m.word.toNat]⟩,
   ⟨"Program Counter", [hex m.pc.toNat]⟩,
   ⟨"Index Register", [hex m.index.toNat]⟩,
   ⟨"Delay Timer", [hex m.delay.value.toNat]⟩,
   ⟨"Sound Timer", [hex m.sound.value.toNat]⟩]

def memorySection (m : Machine) : Section :=
  ⟨"Memory", (MemoryRow.ofMemory m.memory).map MemoryRow.text⟩

def tables (m : Machine) : List Section :=
  [⟨"Keyboard", table (m.keypad.held.toList.map toString)⟩,
   ⟨"Stack", table ((stackCells m.stack).map fun address => hex address.toNat)⟩,
   ⟨"Register", table (m.registers.toList.map fun value => hex value.toNat)⟩]

/-- The sections behind the name. -/
def unnamed (m : Machine) : List Section := numbers m ++ memorySection m :: tables m

theorem lines_eq (m : Machine) :
    lines m = ["Chipset \x7b", "\tProgram Name :", "\t\t" ++ m.rom.name] ++
      (unnamed m).flatMap Section.text ++ ["\x7d"] :=
  rfl

theorem isOneLined_unnamed (m : Machine) : ∀ s ∈ unnamed m, s.IsOneLined := by
  have hnumber {title : String} (n : Nat) (ht : '\n' ∉ title.toList) :
      Section.IsOneLined ⟨title, [hex n]⟩ :=
    ⟨ht, List.forall_mem_singleton.mpr (break_not_mem_hex n)⟩
  have htable {title : String} {cells : List String} (hc : ∀ cell ∈ cells, IsCell cell)
      (ht : '\n' ∉ title.toList) : Section.IsOneLined ⟨title, table cells⟩ :=
    ⟨ht, fun line => break_not_mem_table hc⟩
  have hmemory : (memorySection m).IsOneLined := by
    refine ⟨show '\n' ∉ "Memory".toList by decide, fun line hm => ?_⟩
    obtain ⟨row, -, rfl⟩ := List.mem_map.mp hm
    exact MemoryRow.break_not_mem_text row
  simp only [unnamed, numbers, tables, List.cons_append, List.nil_append, List.forall_mem_cons]
  exact ⟨hnumber _ (by decide), hnumber _ (by decide), hnumber _ (by decide),
    hnumber _ (by decide), hnumber _ (by decide), hmemory,
    htable (isCell_map isCell_bool) (by decide), htable (isCell_map isCell_word) (by decide),
    htable (isCell_map isCell_byte) (by decide), List.forall_mem_nil _⟩

theorem splitOn_dump (m : Machine) :
    m.dump.toList.splitOn '\n' =
      ["Chipset \x7b".toList, "\tProgram Name :".toList] ++
        ("\t\t" ++ m.rom.name).toList.splitOn '\n' ++ shown (unnamed m) ++ ["\x7d".toList] := by
  have hone (line : String) (h : '\n' ∉ line.toList) :
      line.toList.splitOn '\n' = [line.toList] := List.splitOn_eq_singleton h
  rw [Machine.dump, splitOn_intercalate (by rw [lines_eq]; exact List.cons_ne_nil _ _), lines_eq,
    List.flatMap_append, List.flatMap_append, splitOn_sections (isOneLined_unnamed m)]
  simp only [List.flatMap_cons, List.flatMap_nil, hone "Chipset \x7b" (by decide),
    hone "\tProgram Name :" (by decide), hone "\x7d" (by decide), List.append_nil]
  rfl

theorem length_shown_numbers (m : Machine) : (shown (numbers m)).length = 10 := by
  rw [shown, List.length_map]
  rfl

theorem length_shown_tables (m : Machine) : (shown (tables m)).length = 9 := by
  rw [shown, List.length_map]
  rfl

/-- The lines of the memory behind their title. -/
def memoryLines (m : Machine) : List (List Char) :=
  ((MemoryRow.ofMemory m.memory).map MemoryRow.text).map fun line => ("\t\t" ++ line).toList

theorem memoryTitle_not_mem (m : Machine) : "\tMemory :".toList ∉ memoryLines m := by
  intro hm
  obtain ⟨line, -, he⟩ := List.mem_map.mp hm
  rw [String.toList_append] at he
  exact absurd (List.cons.inj (List.cons.inj he).2).1 (by decide)

theorem shown_unnamed (m : Machine) : shown (unnamed m) =
    shown (numbers m) ++ "\tMemory :".toList :: memoryLines m ++ shown (tables m) := by
  have hmemory : shown [memorySection m] = "\tMemory :".toList :: memoryLines m := by
    rw [shown, List.flatMap_singleton, Section.text, List.map_cons, List.map_map]
    rfl
  rw [unnamed, ← List.singleton_append, shown_append, shown_append, hmemory, List.append_assoc]

/-- Machines with the same dump agree part by part. -/
theorem parts_of_dump {m n : Machine} (h : m.dump = n.dump) :
    m.rom.name = n.rom.name ∧ numbers m = numbers n ∧ m.memory = n.memory ∧
      tables m = tables n := by
  have hlines : m.dump.toList.splitOn '\n' = n.dump.toList.splitOn '\n' := by rw [h]
  rw [splitOn_dump, splitOn_dump, List.append_left_inj, shown_unnamed, shown_unnamed] at hlines
  simp only [← List.append_assoc] at hlines
  obtain ⟨hlines, htables⟩ := List.append_inj' hlines (by
    rw [length_shown_tables, length_shown_tables])
  obtain ⟨hlines, hmemory⟩ := last_inj (memoryTitle_not_mem m) (memoryTitle_not_mem n) hlines
  obtain ⟨hname, hnumbers⟩ := List.append_inj' hlines (by
    rw [length_shown_numbers, length_shown_numbers])
  have hname := congrArg (['\n'].intercalate ·) (List.append_cancel_left hname)
  rw [List.intercalate_splitOn, List.intercalate_splitOn] at hname
  refine ⟨indent_injective (toList_injective hname), shown_inj rfl hnumbers, ?_,
    shown_inj rfl htables⟩
  exact MemoryRow.memory_eq_of_lines
    (List.map_injective_iff.mpr (toList_injective.comp indent_injective) hmemory)

/-! ## The values in the parts -/

/-- Each cell shows the entry at its place, and zero where there is none. -/
theorem stackCells_eq (s : CallStack) :
    stackCells s = (List.range 16).map fun i => s.entries.getD i 0 := by
  have hl := s.length_le
  refine List.ext_getElem ?_ fun i h _ => ?_
  · simp [stackCells, CallStack.capacity]
    omega
  · by_cases hi : i < s.entries.length <;> simp [stackCells, List.getElem_append, hi]

theorem length_stackCells (s : CallStack) : (stackCells s).length = 16 := by
  rw [stackCells_eq, List.length_map, List.length_range]

end Dump

namespace Machine

open Dump

/-- The machines agree in all that a dump shows of them. -/
structure ShownAlike (m n : Machine) : Prop where
  name : m.rom.name = n.rom.name
  word : m.word = n.word
  pc : m.pc = n.pc
  index : m.index = n.index
  delay : m.delay = n.delay
  sound : m.sound = n.sound
  memory : m.memory = n.memory
  held : m.keypad.held = n.keypad.held
  /-- Both stacks are the same once zeros fill them up. -/
  stack : ∀ i < 16, m.stack.entries.getD i 0 = n.stack.entries.getD i 0
  registers : m.registers = n.registers

variable {m n : Machine}

theorem ShownAlike.dump_eq (h : m.ShownAlike n) : m.dump = n.dump := by
  have hstack : stackCells m.stack = stackCells n.stack := by
    rw [stackCells_eq, stackCells_eq]
    exact List.map_congr_left fun i hi => h.stack i (List.mem_range.mp hi)
  have hlines : lines m = lines n := by
    rw [lines, lines, sections, sections, h.name, h.word, h.pc, h.index, h.delay, h.sound, h.memory,
      h.held, hstack, h.registers]
  rw [dump, dump, hlines]

theorem shownAlike_of_dump (h : m.dump = n.dump) : m.ShownAlike n := by
  obtain ⟨hname, hnumbers, hmemory, htables⟩ := parts_of_dump h
  simp only [numbers, List.cons.injEq, Section.mk.injEq, and_true, true_and] at hnumbers
  simp only [tables, List.cons.injEq, Section.mk.injEq, and_true, true_and] at htables
  obtain ⟨hword, hpc, hindex, hdelay, hsound⟩ := hnumbers
  obtain ⟨hkeys, hstack, hregisters⟩ := htables
  have hheld : m.keypad.held.toList = n.keypad.held.toList :=
    table_map_inj toString_injective isCell_bool Vector.length_toList Vector.length_toList hkeys
  have hcells : stackCells m.stack = stackCells n.stack :=
    table_map_inj hexOfWord_injective isCell_word (length_stackCells _) (length_stackCells _) hstack
  have hvalues : m.registers.toList = n.registers.toList :=
    table_map_inj hexOfByte_injective isCell_byte Vector.length_toList Vector.length_toList
      hregisters
  rw [stackCells_eq, stackCells_eq] at hcells
  exact {
    name := hname
    word := hexOfWord_injective hword
    pc := hexOfWord_injective hpc
    index := hexOfWord_injective hindex
    delay := congrArg Timer.mk (hexOfByte_injective hdelay)
    sound := congrArg Timer.mk (hexOfByte_injective hsound)
    memory := hmemory
    held := Vector.toList_inj.mp hheld
    stack := fun i hi => List.map_inj_left.mp hcells i (List.mem_range.mpr hi)
    registers := Vector.toList_inj.mp hvalues }

/-- Two machines have the same dump if and only if they agree in the name, the last word, the
program counter, the index, both timers, the memory, the keys, the registers and the stack as zeros
fill it up, whatever lines their names are made of. -/
theorem dump_eq_iff (m n : Machine) : m.dump = n.dump ↔ m.ShownAlike n :=
  ⟨shownAlike_of_dump, ShownAlike.dump_eq⟩

end Machine
end Chip8
