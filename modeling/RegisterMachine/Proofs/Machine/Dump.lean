import Mathlib.Data.List.DropRight
import RegisterMachine.Proofs.Machine.Output
import RegisterMachine.Proofs.Program.RoundTrip

/-! # What a dump tells

A dump leaves the zeros at the end of memory out, and it writes every number with as many digits as
it needs.  Nothing is lost by that: two machines whose dumps are the same text have the same
instruction pointer, registers and memory (`eq_of_dump_eq`).

The lines of the text are those of the dump, since none of them has a line end in it
(`lines_dump`).  The words of a row are its numbers, since there are blanks between them
(`words_row`); and what no row shows is zero, since the rows reach up to the highest address with
another word (`exists_isTop`). -/

namespace RegisterMachine

theorem Word.text_injective {v w : Word} (h : v.text = w.text) : v = w :=
  UInt32.toNat_inj.mp (Text.paddedHex_injective h)

theorem Word.isWord_text (w : Word) : Text.IsWord w.text :=
  ⟨w.text_ne_nil, fun _ hc => (not_blank_of_mem_text hc).1⟩

namespace Machine
variable {m n : Machine}

/-! ## The used part of memory -/

/-- **The highest address** whose word is not zero. -/
structure IsTop (m : Machine) (top : Fin memorySize) : Prop where
  nonzero : m.word top ≠ 0
  highest : ∀ address, top < address → m.word address = 0

theorem getElem?_toList_memory (m : Machine) (address : Nat) :
    m.memory.toList[address]? = m.word? address :=
  Vector.getElem?_toList

/-- Memory without the zeros at its end. -/
def usedWords (m : Machine) : List Word :=
  m.memory.toList.rdropWhile (· == 0)

theorem length_usedWords (m : Machine) : m.usedWords.length = m.usedLength :=
  List.length_reverse

/-- Memory is its used part and zeros. -/
theorem usedWords_append (m : Machine) :
    m.usedWords ++ m.memory.toList.rtakeWhile (· == 0) = m.memory.toList :=
  List.rdropWhile_append_rtakeWhile

theorem usedLength_le (m : Machine) : m.usedLength ≤ memorySize := by
  have hle : m.usedWords.length ≤ m.memory.toList.length :=
    (List.rdropWhile_prefix (· == 0) m.memory.toList).length_le
  rw [length_usedWords, Vector.length_toList] at hle
  exact hle

/-- The used part has a last address, unless it is empty. -/
theorem exists_last (h : m.usedLength ≠ 0) : ∃ last : Fin memorySize, m.usedLength = last + 1 := by
  have hle := m.usedLength_le
  refine ⟨⟨m.usedLength - 1, by omega⟩, ?_⟩
  show m.usedLength = m.usedLength - 1 + 1
  omega

/-- **Behind the used part there are zeros only.** -/
theorem word_of_usedLength_le {address : Fin memorySize} (h : m.usedLength ≤ address) :
    m.word address = 0 := by
  rw [← length_usedWords] at h
  have hword : (m.memory.toList.rtakeWhile (· == 0))[address.val - m.usedWords.length]? =
      some (m.word address) := by
    rw [← List.getElem?_append_right h, usedWords_append, getElem?_toList_memory, m.word?_eq address]
  have hzero := List.mem_rtakeWhile_imp (List.mem_of_getElem? hword)
  exact eq_of_beq hzero

/-- **The used part ends with a word that is not zero.** -/
theorem word_last_ne {last : Fin memorySize} (h : m.usedLength = last + 1) : m.word last ≠ 0 := by
  rw [← length_usedWords] at h
  have hne : m.usedWords ≠ [] := List.ne_nil_of_length_eq_add_one h
  have hword : m.usedWords[last.val]? = some (m.word last) := by
    rw [← m.word?_eq last, ← getElem?_toList_memory, ← usedWords_append,
      List.getElem?_append_left (by omega)]
  have hlast : m.usedWords.getLast hne = m.word last := by
    have hget := List.getLast?_eq_some_getLast hne
    rw [List.getLast?_eq_getElem?, h, Nat.add_sub_cancel, hword] at hget
    exact (Option.some.inj hget).symm
  have hnot := List.rdropWhile_last_not (· == 0) m.memory.toList hne
  intro hzero
  exact hnot (beq_iff_eq.mpr (hlast.trans hzero))

/-- **Where some word is not zero, one of them has the highest address**, and the used part ends
there. -/
theorem exists_isTop (h : ∃ address, m.word address ≠ 0) :
    ∃ top, m.IsTop top ∧ m.usedLength = top + 1 := by
  obtain ⟨address, hword⟩ := h
  have hused : m.usedLength ≠ 0 := by
    intro hempty
    exact hword (word_of_usedLength_le (by omega))
  obtain ⟨top, htop⟩ := exists_last hused
  refine ⟨top, ⟨word_last_ne htop, fun higher hhigher => word_of_usedLength_le ?_⟩, htop⟩
  rw [htop]
  exact hhigher

theorem usedLength_of_forall_zero (h : ∀ address, m.word address = 0) : m.usedLength = 0 := by
  by_contra hused
  obtain ⟨last, hlast⟩ := exists_last hused
  exact word_last_ne hlast (h last)

/-! ## Rows -/

/-- **A row of a dump**: the address of its first word, then that word and those after it. -/
def ShowsRow (m : Machine) (base : Nat) (t : Text) : Prop :=
  ∃ ws : List Word, ws.length = rowLength ∧ (∀ i < rowLength, ws[i]? = m.word? (base + i)) ∧
    t = Text.paddedHex base ++ ": ".toList ++ ws.flatMap fun w => "  ".toList ++ w.text

/-- A row of memory has all its words, as far as memory goes. -/
theorem showsRow_row {index : Nat} (h : index < m.rowCount) :
    m.ShowsRow (rowLength * index) (m.row index) := by
  have hle := m.usedLength_le
  have hend : rowLength * index + rowLength ≤ memorySize := by
    unfold rowCount rowLength memorySize at *
    omega
  refine ⟨(m.memory.toList.drop (rowLength * index)).take rowLength, ?_, ?_, rfl⟩
  · rw [List.length_take, List.length_drop, Vector.length_toList]
    omega
  · intro i hi
    rw [List.getElem?_take_of_lt hi, List.getElem?_drop, getElem?_toList_memory]

/-- The numbers in a row are its words. -/
theorem words_row (ws : List Word) :
    Text.words (ws.flatMap fun w => "  ".toList ++ w.text) = ws.map Word.text := by
  have hwords : ∀ u ∈ ws.map Word.text, Text.IsWord u := by
    intro u hu
    obtain ⟨w, -, rfl⟩ := List.mem_map.mp hu
    exact w.isWord_text
  have hgap : ∀ c ∈ [' '], Text.isBlank c = true := List.forall_mem_singleton.mpr (by decide)
  have hline := Text.words_append_flatMap (c := ' ') [] (by decide) hgap hwords
  rw [List.flatMap_map] at hline
  exact hline

/-- **A row tells its words.** -/
theorem ShowsRow.word?_eq {base i : Nat} {t : Text} (hm : m.ShowsRow base t)
    (hn : n.ShowsRow base t) (hi : i < rowLength) : m.word? (base + i) = n.word? (base + i) := by
  obtain ⟨ws, -, hws, rfl⟩ := hm
  obtain ⟨vs, -, hvs, htext⟩ := hn
  have hwords := congrArg Text.words (List.append_cancel_left htext)
  rw [words_row, words_row] at hwords
  have heq : ws = vs := List.map_injective_iff.mpr (fun _ _ => Word.text_injective) hwords
  rw [← hws i hi, ← hvs i hi, heq]

/-- The addresses at which rows begin. -/
theorem filter_range_rowLength (length : Nat) :
    (List.range length).filter (rowLength ∣ ·) =
      (List.range ((length + rowLength - 1) / rowLength)).map (rowLength * ·) := by
  induction length with
  | zero => rfl
  | succ length ih =>
    rw [List.range_succ, List.filter_append, ih]
    by_cases hdvd : rowLength ∣ length
    · have hcount : (length + 1 + rowLength - 1) / rowLength =
          (length + rowLength - 1) / rowLength + 1 := by
        unfold rowLength at *
        omega
      have hlast : rowLength * ((length + rowLength - 1) / rowLength) = length := by
        unfold rowLength at *
        omega
      rw [hcount, List.range_succ, List.map_append, List.map_singleton, hlast]
      simp [hdvd]
    · have hcount : (length + 1 + rowLength - 1) / rowLength =
          (length + rowLength - 1) / rowLength := by
        unfold rowLength at *
        omega
      rw [hcount]
      simp [hdvd]

/-- **There is a row for each multiple of the row length in the used part.** -/
theorem forall₂_showsRow (m : Machine) :
    List.Forall₂ m.ShowsRow ((List.range m.usedLength).filter (rowLength ∣ ·))
      ((List.range m.rowCount).map m.row) := by
  rw [filter_range_rowLength, List.forall₂_map_left_iff, List.forall₂_map_right_iff]
  exact List.forall₂_same.mpr fun index hindex => showsRow_row (List.mem_range.mp hindex)

/-! ## Lines -/

/-- The lines of a dump that do not depend on memory. -/
def dumpHead (m : Machine) : List Text :=
  ("IP      = ".toList ++ Text.paddedHex m.ip) :: (List.finRange registerCount).map m.registerLine

theorem oneLine_row (m : Machine) (index : Nat) : Text.OneLine (m.row index) := by
  have hmark : Text.OneLine ": ".toList := by decide
  have hgap : Text.OneLine "  ".toList := by decide
  refine ((Text.oneLine_paddedHex _).append hmark).append fun c hc => ?_
  obtain ⟨w, -, hw⟩ := List.mem_flatMap.mp hc
  exact hgap.append (Text.oneLine_paddedHex w.toNat) c hw

theorem oneLine_registerLine (m : Machine) (index : Fin registerCount) :
    Text.OneLine (m.registerLine index) := by
  have hmark : Text.OneLine "R".toList := by decide
  have hequals : Text.OneLine " = ".toList := by decide
  exact ((hmark.append (Text.oneLine_paddedHex _)).append hequals).append (Text.oneLine_paddedHex _)

theorem oneLine_of_mem_dump {t : Text} (h : t ∈ m.dump) : Text.OneLine t := by
  have hmark : Text.OneLine "IP      = ".toList := by decide
  rcases List.mem_cons.mp h with rfl | h
  · exact hmark.append (Text.oneLine_paddedHex m.ip)
  · rcases List.mem_append.mp h with h | h
    · obtain ⟨index, -, rfl⟩ := List.mem_map.mp h
      exact oneLine_registerLine m index
    · obtain ⟨index, -, rfl⟩ := List.mem_map.mp h
      exact oneLine_row m index

/-- **The lines of the text are those of the dump.** -/
theorem lines_dump (m : Machine) : Text.lines (m.dump.flatMap (· ++ ['\n'])) = m.dump :=
  Text.lines_flatMap fun _ => oneLine_of_mem_dump

/-! ## Nothing is lost -/

theorem registers_of_registerLine (h : ∀ index, m.registerLine index = n.registerLine index) :
    m.registers = n.registers := by
  refine Vector.ext fun i hi => ?_
  exact Word.text_injective (List.append_cancel_left (h ⟨i, hi⟩))

/-- **Memory is what its rows show**, and zero behind them. -/
theorem memory_of_row (hcount : m.rowCount = n.rowCount)
    (h : ∀ index < m.rowCount, m.row index = n.row index) : m.memory = n.memory := by
  refine Vector.ext fun address hlt => ?_
  show m.word ⟨address, hlt⟩ = n.word ⟨address, hlt⟩
  by_cases hshown : address / rowLength < m.rowCount
  · have hm := showsRow_row hshown
    rw [h _ hshown] at hm
    have hword := hm.word?_eq (showsRow_row (hcount ▸ hshown)) (Nat.mod_lt address (by decide))
    rw [Nat.div_add_mod, m.word?_eq ⟨address, hlt⟩, n.word?_eq ⟨address, hlt⟩] at hword
    exact Option.some.inj hword
  · have hbehind : ∀ k : Machine, k.rowCount = m.rowCount → k.word ⟨address, hlt⟩ = 0 := by
      intro k hk
      refine word_of_usedLength_le ?_
      show k.usedLength ≤ address
      unfold rowCount rowLength at *
      omega
    rw [hbehind m rfl, hbehind n hcount.symm]

/-- **A dump tells the machine** that it was made of. -/
theorem eq_of_dump_eq (h : m.dump = n.dump) :
    m.ip = n.ip ∧ m.registers = n.registers ∧ m.memory = n.memory := by
  obtain ⟨hip, hrest⟩ := List.cons.inj h
  obtain ⟨hregisters, hrows⟩ := List.append_inj hrest (by simp)
  have hcount : m.rowCount = n.rowCount := by simpa using congrArg List.length hrows
  rw [← hcount] at hrows
  refine ⟨Text.paddedHex_injective (List.append_cancel_left hip), ?_, ?_⟩
  · exact registers_of_registerLine fun index => List.map_inj_left.mp hregisters index (by simp)
  · exact memory_of_row hcount fun index hindex =>
      List.map_inj_left.mp hrows index (List.mem_range.mpr hindex)

/-- **A dump is lossless.**  Its text has a line for the instruction pointer and one for each
register.  Nothing comes after them if all memory is zero; else there is a row of words for each
multiple of the row length up to the highest address whose word is not.  A machine whose dump is the
same text has the same instruction pointer, the same registers and the same memory. -/
theorem writeDump_lossless (prompts : Bool) (m : Machine) :
    ∃ t head rows, m.writeDump.transcript.text prompts = m.transcript.text prompts ++ t ∧
      t = (head ++ rows).flatMap (· ++ ['\n']) ∧ Text.lines t = head ++ rows ∧
      head.length = 1 + registerCount ∧
      ((∀ address, m.word address = 0) → rows = []) ∧
      ((∃ address, m.word address ≠ 0) → ∃ top, m.IsTop top ∧
        List.Forall₂ m.ShowsRow ((List.range (top + 1)).filter (rowLength ∣ ·)) rows) ∧
      ∀ n : Machine, n.writeDump.transcript.text prompts = n.transcript.text prompts ++ t →
        n.ip = m.ip ∧ n.registers = m.registers ∧ n.memory = m.memory := by
  refine ⟨m.dump.flatMap (· ++ ['\n']), m.dumpHead, (List.range m.rowCount).map m.row,
    text_writeDump prompts m, rfl, lines_dump m, by simp [dumpHead, Nat.add_comm], ?_, ?_, ?_⟩
  · intro hzero
    rw [rowCount, usedLength_of_forall_zero hzero]
    rfl
  · intro hsome
    obtain ⟨top, htop, hlength⟩ := exists_isTop hsome
    refine ⟨top, htop, ?_⟩
    rw [← hlength]
    exact forall₂_showsRow m
  · intro n htext
    rw [text_writeDump] at htext
    have hlines := congrArg Text.lines (List.append_cancel_left htext)
    rw [lines_dump, lines_dump] at hlines
    exact eq_of_dump_eq hlines

/-- A machine with nothing but a word at the last address has a dump with all 64 rows, which is not
that of a blank machine. -/
theorem writeDump_lossless_of_last_word :
    let m := blank.setWord 255 0x12345678
    ∃ t head rows, m.writeDump.transcript.text true = t ∧ Text.lines t = head ++ rows ∧
      head.length = 5 ∧ rows.length = 64 ∧ blank.writeDump.transcript.text true ≠ t := by
  intro m
  obtain ⟨t, head, rows, htext, -, hlines, hhead, -, hrows, hlossless⟩ := writeDump_lossless true m
  have hword : m.word 255 ≠ 0 := by
    rw [show m.word 255 = 0x12345678 from word_setWord_self blank 255 _]
    decide
  refine ⟨t, head, rows, htext, hlines, hhead, ?_, ?_⟩
  · obtain ⟨top, htop, hshown⟩ := hrows ⟨255, hword⟩
    have hlast : 255 ≤ top := Fin.not_lt.mp fun hlt => hword (htop.highest 255 hlt)
    obtain rfl : top = 255 := Fin.le_antisymm (Fin.le_last top) hlast
    rw [← hshown.length_eq, filter_range_rowLength, List.length_map, List.length_range]
    rfl
  · intro hsame
    obtain ⟨-, -, hmemory⟩ := hlossless blank hsame
    refine hword ?_
    rw [word, ← hmemory]
    simp [blank]

end Machine
end RegisterMachine
