import RegisterMachine.Program
import RegisterMachine.Proofs.Text.Numeral

/-! # Programs and their text

A program that was printed is read back as it was (`read_print`): its lines are the texts of its
words, none of them is blank, and each is the numeral of its word.

Reading takes other texts, too.  What a line may say is told without reading it (`Admits`), and
there are three ways in which a first line can go: it is skipped, it is a word, or it is the line at
fault (`line_cases`).  From these follows when a text is read and as what, and which line is named
if it is not (`read_line_by_line`). -/

namespace RegisterMachine

namespace Word

theorem mem_hexDigits_of_mem_text {w : Word} {c : Char} (h : c ∈ w.text) : c ∈ Text.hexDigits :=
  Text.mem_hexDigits_of_mem_paddedHex h

theorem not_blank_of_mem_text {w : Word} {c : Char} (h : c ∈ w.text) :
    Text.isBlank c = false ∧ c ≠ '+' ∧ c ≠ '\n' ∧ c ≠ '\r' :=
  Text.hexDigits_not_blank c (mem_hexDigits_of_mem_text h)

theorem trim_text (w : Word) : Text.trim w.text = w.text :=
  Text.trim_of_forall_not_blank fun _ hc => (not_blank_of_mem_text hc).1

theorem text_ne_nil (w : Word) : w.text ≠ [] :=
  Text.paddedHex_ne_nil w.toNat

end Word

namespace Program

theorem word?_text (w : Word) : word? w.text = some w := by
  have hnumber : Text.number? 16 UInt32.size w.text = some w.toNat :=
    Text.number?_paddedHex w.toNat_lt
  rw [word?, hnumber, Option.map_some, UInt32.ofNat_toNat]

/-- A line with the text of a word is read as that word. -/
theorem readLines_cons_text (number : Nat) (w : Word) (rest : List Text) :
    readLines number (w.text :: rest) = (readLines (number + 1) rest).map (w :: ·) := by
  have hempty : (Text.trim w.text).isEmpty = false := by
    rw [Word.trim_text]
    simpa using w.text_ne_nil
  rw [readLines, hempty, if_neg Bool.false_ne_true, Word.trim_text, word?_text]

theorem readLines_lines (number : Nat) (p : Program) : readLines number (lines p) = .ok p := by
  induction p generalizing number with
  | nil => rfl
  | cons w p ih =>
    rw [lines, List.map_cons, readLines_cons_text]
    rw [lines] at ih
    rw [ih (number + 1)]
    rfl

section Lines
variable {p : Program} {t : Text}

theorem oneLine_of_mem_lines (h : t ∈ lines p) : Text.OneLine t := by
  obtain ⟨w, -, rfl⟩ := List.mem_map.mp h
  exact Text.oneLine_paddedHex w.toNat

theorem ne_nil_of_mem_lines (h : t ∈ lines p) : t ≠ [] := by
  obtain ⟨w, -, rfl⟩ := List.mem_map.mp h
  exact w.text_ne_nil

end Lines

/-- The lines of a printed program are the texts of its words. -/
theorem lines_print (p : Program) : Text.lines (print p) = lines p :=
  Text.lines_flatMap fun _ => oneLine_of_mem_lines

/-- **A program that was printed is read back.** -/
theorem read_print (p : Program) : read (print p) = .ok p := by
  rw [read, lines_print, readLines_lines]

/-- The last line may lack its end. -/
theorem read_intercalate (p : Program) : read (['\n'].intercalate (lines p)) = .ok p := by
  rw [read, Text.lines_intercalate (fun _ => oneLine_of_mem_lines) fun _ => ne_nil_of_mem_lines,
    readLines_lines]

theorem read_intercalate_newline (p : Program) :
    read (['\n'].intercalate (lines p) ++ ['\n']) = .ok p := by
  cases p with
  | nil => rfl
  | cons w p =>
    have hne : lines (w :: p) ≠ [] := by simp [lines]
    rw [Text.intercalate_append hne]
    exact read_print (w :: p)

/-! ## What can be read -/

/-- **A line of an encoded program**: it is blank, or it is the hexadecimal numeral of a word with
blanks around it. -/
def Admits (l : Text) : Prop :=
  Text.trim l = [] ∨ ∃ n < 2 ^ 32, Text.IsHexNumeral (Text.trim l) n

theorem word?_eq_some_iff {t : Text} {w : Word} :
    word? t = some w ↔ Text.IsHexNumeral t w.toNat := by
  constructor
  · intro h
    obtain ⟨n, hn, rfl⟩ := Option.map_eq_some_iff.mp h
    obtain ⟨hnumeral, hlt⟩ := Text.hexNumber?_eq_some_iff.mp hn
    rwa [UInt32.toNat_ofNat_of_lt' hlt]
  · intro h
    have hnumber := Text.hexNumber?_eq_some_iff.mpr ⟨h, w.toNat_lt⟩
    rw [word?, show UInt32.size = 2 ^ 32 from rfl, hnumber, Option.map_some, UInt32.ofNat_toNat]

section Reading
variable {l : Text} {rest : List Text} {w : Word}

theorem readLines_cons_of_blank (h : Text.trim l = []) (number : Nat) :
    readLines number (l :: rest) = readLines (number + 1) rest := by
  simp [readLines, h]

theorem readLines_cons_of_word (h : Text.IsHexNumeral (Text.trim l) w.toNat) (number : Nat) :
    readLines number (l :: rest) = (readLines (number + 1) rest).map (w :: ·) := by
  have hempty : (Text.trim l).isEmpty = false := by simpa using h.ne_nil
  simp [readLines, hempty, word?_eq_some_iff.mpr h]

theorem readLines_cons_of_not_admits (h : ¬ Admits l) (number : Nat) :
    readLines number (l :: rest) = .error (.malformedWord number (Text.trim l)) := by
  obtain ⟨hblank, hnumeral⟩ := not_or.mp h
  have hempty : (Text.trim l).isEmpty = false := by simpa using hblank
  have hnone : word? (Text.trim l) = none :=
    Option.eq_none_iff_forall_ne_some.mpr fun w hw =>
      hnumeral ⟨w.toNat, w.toNat_lt, word?_eq_some_iff.mp hw⟩
  simp [readLines, hempty, hnone]

/-- **A line is skipped, a word, or at fault.** -/
theorem line_cases (l : Text) :
    Text.trim l = [] ∨ (∃ w : Word, Text.IsHexNumeral (Text.trim l) w.toNat) ∨ ¬ Admits l := by
  by_cases h : Admits l
  · rcases h with hblank | ⟨n, hlt, hn⟩
    · exact .inl hblank
    · refine .inr (.inl ⟨UInt32.ofNat n, ?_⟩)
      rwa [UInt32.toNat_ofNat_of_lt' hlt]
  · exact .inr (.inr h)

/-- The trimmed lines that are not skipped. -/
def wordTexts (ls : List Text) : List Text :=
  (ls.map Text.trim).filter fun t => !t.isEmpty

theorem wordTexts_cons_of_blank (h : Text.trim l = []) :
    wordTexts (l :: rest) = wordTexts rest := by
  simp [wordTexts, h]

theorem wordTexts_cons_of_ne (h : Text.trim l ≠ []) :
    wordTexts (l :: rest) = Text.trim l :: wordTexts rest := by
  simp [wordTexts, h]

/-- **Lines are read as the words they stand for**, and only lines that stand for words are read. -/
theorem readLines_eq_ok_iff {number : Nat} {ls : List Text} {p : Program} :
    readLines number ls = .ok p ↔
      List.Forall₂ (fun t w => Text.IsHexNumeral t w.toNat) (wordTexts ls) p := by
  induction ls generalizing number p with
  | nil => simp [readLines, wordTexts, eq_comm]
  | cons l rest ih =>
    rcases line_cases l with hblank | ⟨w, hw⟩ | hfault
    · rw [readLines_cons_of_blank hblank, wordTexts_cons_of_blank hblank, ih]
    · rw [readLines_cons_of_word hw, wordTexts_cons_of_ne hw.ne_nil]
      constructor
      · intro h
        cases hrest : readLines (number + 1) rest with
        | error e =>
          rw [hrest] at h
          cases h
        | ok q =>
          rw [hrest] at h
          cases h
          exact .cons hw (ih.mp hrest)
      · intro h
        cases h with
        | @cons _ w' _ q hw' hrest =>
          -- a numeral stands for one word only
          obtain rfl : w = w' :=
            Option.some.inj ((word?_eq_some_iff.mpr hw).symm.trans (word?_eq_some_iff.mpr hw'))
          rw [ih.mpr hrest, Except.map]
    · obtain ⟨hblank, hnumeral⟩ := not_or.mp hfault
      rw [readLines_cons_of_not_admits hfault, wordTexts_cons_of_ne hblank]
      simp only [reduceCtorEq, false_iff]
      intro h
      cases h with
      | @cons _ w _ _ hw _ => exact hnumeral ⟨w.toNat, w.toNat_lt, hw⟩

theorem exists_readLines_of_admits {ls : List Text} (h : ∀ l ∈ ls, Admits l) (number : Nat) :
    ∃ p, readLines number ls = .ok p := by
  induction ls generalizing number with
  | nil => exact ⟨[], rfl⟩
  | cons l rest ih =>
    obtain ⟨hl, hrest⟩ := List.forall_mem_cons.mp h
    obtain ⟨p, hp⟩ := ih hrest (number + 1)
    rcases line_cases l with hblank | ⟨w, hw⟩ | hfault
    · exact ⟨p, by rw [readLines_cons_of_blank hblank, hp]⟩
    · exact ⟨w :: p, by rw [readLines_cons_of_word hw, hp, Except.map]⟩
    · exact absurd hl hfault

/-- **The first line at fault is named**, by its number among all lines. -/
theorem readLines_of_not_admits {before : List Text} (hbefore : ∀ b ∈ before, Admits b)
    (hl : ¬ Admits l) (after : List Text) (number : Nat) :
    readLines number (before ++ l :: after) =
      .error (.malformedWord (number + before.length) (Text.trim l)) := by
  induction before generalizing number with
  | nil => exact readLines_cons_of_not_admits hl number
  | cons b before ih =>
    obtain ⟨hb, hbefore⟩ := List.forall_mem_cons.mp hbefore
    have hrest := ih hbefore (number + 1)
    rw [List.length_cons, Nat.add_comm before.length 1, ← Nat.add_assoc, List.cons_append]
    rcases line_cases b with hblank | ⟨w, hw⟩ | hfault
    · rw [readLines_cons_of_blank hblank, hrest]
    · rw [readLines_cons_of_word hw, hrest, Except.map]
    · exact absurd hb hfault

/-- **All lines can be read, or one is the first that cannot.** -/
theorem admits_cases (ls : List Text) :
    (∀ l ∈ ls, Admits l) ∨ ∃ before l after, ls = before ++ l :: after ∧
      (∀ b ∈ before, Admits b) ∧ ¬ Admits l := by
  classical
  simpa using Text.separated_cases (fun l => decide (¬ Admits l)) ls

theorem exists_readLines_iff {number : Nat} {ls : List Text} :
    (∃ p, readLines number ls = .ok p) ↔ ∀ l ∈ ls, Admits l := by
  constructor
  · rintro ⟨p, hp⟩
    rcases admits_cases ls with hall | ⟨before, l, after, rfl, hbefore, hl⟩
    · exact hall
    · rw [readLines_of_not_admits hbefore hl] at hp
      cases hp
  · exact fun h => exists_readLines_of_admits h number

theorem readLines_eq_error_iff {number : Nat} {ls : List Text} {e : Error} :
    readLines number ls = .error e ↔ ∃ before l after, ls = before ++ l :: after ∧
      (∀ b ∈ before, Admits b) ∧ ¬ Admits l ∧
      e = .malformedWord (number + before.length) (Text.trim l) := by
  constructor
  · intro h
    rcases admits_cases ls with hall | ⟨before, l, after, rfl, hbefore, hl⟩
    · obtain ⟨p, hp⟩ := exists_readLines_of_admits hall number
      rw [hp] at h
      cases h
    · rw [readLines_of_not_admits hbefore hl] at h
      exact ⟨before, l, after, rfl, hbefore, hl, (Except.error.inj h).symm⟩
  · rintro ⟨before, l, after, rfl, hbefore, hl, rfl⟩
    exact readLines_of_not_admits hbefore hl after number

end Reading

/-- **An encoded program is read line by line.**  The texts of its words, divided by line feeds, are
read back as the words, with or without a line feed after the last.  Any text can be read just when
every line is blank or the numeral of a word, and it is read as the words of the lines that are not
blank; otherwise the first other line is named, by its number and its trimmed text. -/
theorem read_line_by_line (p : Program) (t : Text) :
    read (['\n'].intercalate (lines p)) = .ok p ∧
      read (['\n'].intercalate (lines p) ++ ['\n']) = .ok p ∧
      ((∃ q, read t = .ok q) ↔ ∀ l ∈ Text.lines t, Admits l) ∧
      (∀ q, read t = .ok q ↔
        List.Forall₂ (fun u w => Text.IsHexNumeral u w.toNat) (wordTexts (Text.lines t)) q) ∧
      ∀ e, read t = .error e ↔ ∃ before l after, Text.lines t = before ++ l :: after ∧
        (∀ b ∈ before, Admits b) ∧ ¬ Admits l ∧
        e = .malformedWord (before.length + 1) (Text.trim l) := by
  refine ⟨read_intercalate p, read_intercalate_newline p, exists_readLines_iff,
    fun q => readLines_eq_ok_iff, fun e => ?_⟩
  simp only [Nat.add_comm _ 1]
  exact readLines_eq_error_iff

example : read "  +0fF\r\n\n80000000".toList = .ok [0xFF, 0x80000000] := by decide

-- the blank line is skipped, and counted
example : read "1\n \n xyz\n2".toList = .error (.malformedWord 3 "xyz".toList) := by decide

end Program
end RegisterMachine
