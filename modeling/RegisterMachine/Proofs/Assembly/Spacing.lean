import RegisterMachine.Proofs.Assembly.Outcome

/-! # Blank lines, comments and blanks around lines

Lines that say nothing can be put in and taken out, and blanks can be put around every line: a
source is assembled as the lines that remain of it (`ofSource_eq_renumber`), except that an error
names its line by the number which the line has in the source.

No pass looks at the number of a line, so renumbering the lines before a pass is the same as
renumbering the error after it: this is shown for every pass, and then for all of them together
(`ofSections_renumber`).  The number that a line gets belongs to a line at the same place
(`StandsAt`). -/

namespace RegisterMachine
namespace Assembly

/-! ## Renumbering -/

section Renumber
variable (f : Nat → Nat)

/-- A line with another number. -/
def Line.renumber (l : Line) : Line :=
  { l with number := f l.number }

/-- An error at a line with another number. -/
def Error.renumber (e : Error) : Error :=
  { e with line := e.line.renumber f }

/-- Sections whose lines have other numbers. -/
def Sections.renumber (s : Sections) : Sections where
  code := s.code.map (Line.renumber f)
  data := s.data.map (Line.renumber f)

end Renumber

end Assembly

/-- What assembling gives when lines have other numbers. -/
def Assembly.renumber (f : Nat → Nat) (a : Assembly) : Assembly where
  labels := a.labels
  program := a.program.mapError (Assembly.Error.renumber f)

namespace Assembly

section Passes
variable (f : Nat → Nat) (table : LabelTable) (ls : List Line)

theorem addCode_renumber (next : Nat) :
    table.addCode next (ls.map (Line.renumber f)) =
      (table.addCode next ls).map id (Option.map (Error.renumber f)) := by
  induction ls generalizing table next with
  | nil => rfl
  | cons l rest ih =>
    have hlabel : (l.renumber f).label? = l.label? := rfl
    simp only [List.map_cons, LabelTable.addCode, hlabel]
    cases l.label? with
    | none => exact ih table (next + 1)
    | some name =>
      by_cases hdefined : table.defines name = true
      · simp only [if_pos hdefined]
        rfl
      · simp only [if_neg hdefined]
        exact ih _ next

theorem addData_renumber (base : Nat) :
    table.addData base (ls.map (Line.renumber f)) =
      (table.addData base ls).map id (Option.map (Error.renumber f)) := by
  induction ls generalizing table base with
  | nil => rfl
  | cons l rest ih =>
    have hallocation : (l.renumber f).allocation? = l.allocation? := rfl
    simp only [List.map_cons, LabelTable.addData, hallocation]
    cases l.allocation? with
    | none => rfl
    | some a =>
      by_cases hdefined : table.defines a.name = true
      · simp only [if_pos hdefined]
        rfl
      · simp only [if_neg hdefined]
        by_cases hfull : base + a.count > memorySize
        · simp only [if_pos hfull]
          rfl
        · simp only [if_neg hfull]
          exact ih _ _

theorem compile_renumber :
    compile table (ls.map (Line.renumber f)) =
      (compile table ls).mapError (Error.renumber f) := by
  induction ls with
  | nil => rfl
  | cons l rest ih =>
    have hcompile : (l.renumber f).compile table = l.compile table := rfl
    simp only [List.map_cons, compile, hcompile, ih]
    cases l.compile table with
    | error v => rfl
    | ok w => cases compile table rest <;> rfl

theorem ofLines_renumber :
    Sections.ofLines (ls.map (Line.renumber f)) = (Sections.ofLines ls).renumber f := by
  have hdivider : ((fun l : Line => !l.isDivider) ∘ Line.renumber f) = fun l => !l.isDivider := rfl
  simp only [Sections.ofLines, Sections.renumber, List.takeWhile_map, List.dropWhile_map, hdivider,
    List.map_tail]

end Passes

section Numbers
variable (f : Nat → Nat) (s : Sections)

theorem instructions_renumber :
    (s.renumber f).instructions = s.instructions.map (Line.renumber f) := by
  have hinstruction : Line.isInstruction ∘ Line.renumber f = Line.isInstruction := rfl
  rw [Sections.instructions, Sections.renumber, List.filter_map, hinstruction,
    Sections.instructions]

/-- **The number of a line counts only in an error.** -/
theorem ofSections_renumber : ofSections (s.renumber f) = (ofSections s).renumber f := by
  have hlength : (s.renumber f).instructions.length = s.instructions.length := by
    rw [instructions_renumber, List.length_map]
  have hcode : LabelTable.addCode [] 0 (s.renumber f).code =
      (LabelTable.addCode [] 0 s.code).map id (Option.map (Error.renumber f)) :=
    addCode_renumber f [] s.code 0
  have hdata : ∀ table : LabelTable,
      table.addData s.instructions.length (s.renumber f).data =
        (table.addData s.instructions.length s.data).map id (Option.map (Error.renumber f)) :=
    fun table => addData_renumber f table s.data _
  rw [ofSections, ofSections, hcode]
  rcases LabelTable.addCode [] 0 s.code with ⟨table, _ | e⟩
  · simp only [Prod.map, id, Option.map_none, hlength, hdata]
    rcases table.addData s.instructions.length s.data with ⟨found, _ | e⟩
    · simp only [Option.map_none, instructions_renumber, compile_renumber]
      rfl
    · rfl
  · rfl

end Numbers

/-! ## The lines that remain -/

/-- **What remains of a source**: its lines are trimmed, and those that say nothing are dropped. -/
def remaining (source : List Text) : List Text :=
  (source.map Text.trim).filter Line.counts

/-- **A line stands at a place** among those that remain of a source: its number finds it in the
source, and as many lines remain of what is before it. -/
structure StandsAt (source : List Text) (place : Nat) (l : Line) : Prop where
  numbered : 1 ≤ l.number
  found : (source[l.number - 1]?).map Text.trim = some l.text
  counts : Line.counts l.text = true
  before : (remaining (source.take (l.number - 1))).length = place

section Remaining
variable {source : List Text} {place : Nat} {l : Line}

theorem length_ofSource (source : List Text) :
    (Line.ofSource source).length = (remaining source).length := by
  rw [remaining, ← map_text_ofSource, List.length_map]

/-- Only the trimmed lines count. -/
theorem ofSource_map_trim (source : List Text) :
    Line.ofSource source =
      (((source.map Text.trim).zipIdx 1).map fun x => (⟨x.2, x.1⟩ : Line)).filter
        fun l => Line.counts l.text := by
  rw [List.zipIdx_map, List.map_map]
  rfl

theorem ofSource_concat (source : List Text) (t : Text) :
    Line.ofSource (source ++ [t]) =
      Line.ofSource source ++
        [(⟨source.length + 1, Text.trim t⟩ : Line)].filter fun l => Line.counts l.text := by
  simp [Line.ofSource, List.zipIdx_append, Nat.add_comm]

theorem StandsAt.concat (h : StandsAt source place l) (t : Text) :
    StandsAt (source ++ [t]) place l := by
  have hlt : l.number - 1 < source.length := by
    obtain ⟨given, hgiven, -⟩ := Option.map_eq_some_iff.mp h.found
    exact (List.getElem?_eq_some_iff.mp hgiven).1
  refine ⟨h.numbered, ?_, h.counts, ?_⟩
  · rw [List.getElem?_append_left hlt]
    exact h.found
  · rw [List.take_append_of_le_length (Nat.le_of_lt hlt)]
    exact h.before

/-- **The lines of a source stand at their places**, in order. -/
theorem standsAt_of_getElem? (h : (Line.ofSource source)[place]? = some l) :
    StandsAt source place l := by
  induction source using List.reverseRecOn with
  | nil => cases h
  | append_singleton source t ih =>
    rw [ofSource_concat] at h
    by_cases hplace : place < (Line.ofSource source).length
    · rw [List.getElem?_append_left hplace] at h
      exact (ih h).concat t
    · -- the only line that is left is the last one
      rw [List.getElem?_append_right (Nat.le_of_not_lt hplace)] at h
      obtain ⟨hmem, hcounts⟩ := List.mem_filter.mp (List.mem_of_getElem? h)
      obtain rfl := List.mem_singleton.mp hmem
      have hsingle := (List.getElem?_eq_some_iff.mp h).1
      have hone := List.length_filter_le (fun l : Line => Line.counts l.text)
        [⟨source.length + 1, Text.trim t⟩]
      rw [List.length_singleton] at hone
      refine ⟨Nat.le_add_left _ _, by simp, hcounts, ?_⟩
      rw [Nat.add_sub_cancel, List.take_left, ← length_ofSource]
      omega

theorem trim_of_mem_remaining {t : Text} (h : t ∈ remaining source) :
    Text.trim t = t ∧ Line.counts t = true := by
  obtain ⟨hmem, hcounts⟩ := List.mem_filter.mp h
  obtain ⟨given, -, rfl⟩ := List.mem_map.mp hmem
  exact ⟨Text.trim_trim given, hcounts⟩

/-- All that remains of a source would remain again, numbered without gaps. -/
theorem ofSource_remaining (source : List Text) :
    Line.ofSource (remaining source) =
      ((remaining source).zipIdx 1).map fun x => (⟨x.2, x.1⟩ : Line) := by
  have htrim : (remaining source).map Text.trim = remaining source := by
    rw [List.map_congr_left fun t ht => (trim_of_mem_remaining ht).1, List.map_id']
  rw [ofSource_map_trim, htrim, List.filter_eq_self]
  intro l hl
  obtain ⟨x, hx, rfl⟩ := List.mem_map.mp hl
  exact (trim_of_mem_remaining (List.fst_mem_of_mem_zipIdx hx)).2

/-- The number in a source of the line that is the `n`-th of those that remain, counted from one. -/
def numberIn (source : List Text) (n : Nat) : Nat :=
  (Line.ofSource source)[n - 1]?.elim 0 Line.number

/-- **The lines of a source are those that remain of it**, with the numbers they have there. -/
theorem map_renumber_ofSource (source : List Text) :
    (Line.ofSource (remaining source)).map (Line.renumber (numberIn source)) =
      Line.ofSource source := by
  refine List.ext_getElem? fun k => ?_
  have htexts : (remaining source)[k]? = (Line.ofSource source)[k]?.map Line.text := by
    rw [remaining, ← map_text_ofSource, List.getElem?_map]
  rw [ofSource_remaining, List.getElem?_map, List.getElem?_map, List.getElem?_zipIdx, htexts]
  cases hl : (Line.ofSource source)[k]? with
  | none => rfl
  | some l => simp [Line.renumber, numberIn, hl]

/-- **A source is assembled as the lines that remain of it**, up to the number in an error. -/
theorem ofSource_eq_renumber (source : List Text) :
    ofSource source = (ofSource (remaining source)).renumber (numberIn source) := by
  have hsections : Sections.ofSource source =
      (Sections.ofSource (remaining source)).renumber (numberIn source) := by
    rw [Sections.ofSource, ← map_renumber_ofSource, ofLines_renumber]
    rfl
  rw [ofSource, hsections, ofSections_renumber]
  rfl

/-- The line at fault is one of the source. -/
theorem mem_ofSource_of_error {e : Error} (h : (ofSource source).program = .error e) :
    e.line ∈ Line.ofSource source := by
  have hw : ∀ l ∈ (Sections.ofSource source).instructions, Text.words l.text ≠ [] :=
    fun l hl => words_ne_nil_of_mem (mem_ofSource_of_code (Sections.mem_instructions_iff.mp hl).1)
  exact ((ofSections_eq_error_iff hw).mp (ofSections_of_program h)).mem

theorem ofSource_congr {source' : List Text}
    (h : source.map Text.trim = source'.map Text.trim) : ofSource source = ofSource source' := by
  rw [ofSource, ofSource, Sections.ofSource, Sections.ofSource, ofSource_map_trim source,
    ofSource_map_trim source', h]

end Remaining

/-- **The same result of two sources**: the same program, or the same violation of a line with the
same text, which stands at the same place among the lines that remain of each. -/
inductive SameResult (source source' : List Text) :
    Except Error Program → Except Error Program → Prop
  | ok (p : Program) : SameResult source source' (.ok p) (.ok p)
  | error {place : Nat} {l l' : Line} (v : Violation) (h : StandsAt source place l)
      (h' : StandsAt source' place l') (htext : l.text = l'.text) :
      SameResult source source' (.error ⟨l, v⟩) (.error ⟨l', v⟩)

/-- **Sources of which the same lines remain** are assembled alike. -/
theorem sameResult_of_remaining {source source' : List Text}
    (h : remaining source = remaining source') :
    (ofSource source).labels = (ofSource source').labels ∧
      SameResult source source' (ofSource source).program (ofSource source').program := by
  have hsource := ofSource_eq_renumber source
  have hsource' := ofSource_eq_renumber source'
  rw [← h] at hsource'
  rw [hsource, hsource']
  refine ⟨rfl, ?_⟩
  simp only [Assembly.renumber]
  cases hresult : (ofSource (remaining source)).program with
  | ok p => exact .ok p
  | error e =>
    obtain ⟨place, hplace⟩ := List.getElem?_of_mem (mem_ofSource_of_error hresult)
    -- the line at that place, with the number that it has in a source of which these lines remain
    have hstands : ∀ given, remaining given = remaining source →
        StandsAt given place (e.line.renumber (numberIn given)) := by
      intro given hgiven
      refine standsAt_of_getElem? ?_
      rw [← map_renumber_ofSource, hgiven, List.getElem?_map, hplace, Option.map_some]
    exact .error e.violation (hstands source rfl) (hstands source' h.symm) rfl

end Assembly

namespace Assembler
open Assembly

/-- **The layout of a source does not matter**, nor what has been assembled before.  Two sources of
which the same texts remain, when lines are trimmed and blank lines and comments dropped, have the
same labels in the same order, and the same program or the same error, at lines with the same text
that stand at the same place among those that remain.  A carriage return before every line feed
makes no difference at all. -/
theorem assemble_ignores_spacing (a a' : Assembler) :
    (∀ source source', remaining source = remaining source' →
      (a.assemble source).2.labels = (a'.assemble source').2.labels ∧
        SameResult source source' (a.assemble source).1 (a'.assemble source').1) ∧
      ∀ t, a.assemble (Text.lines (Text.withReturns t)) = a'.assemble (Text.lines t) := by
  refine ⟨fun source source' h => sameResult_of_remaining h, fun t => ?_⟩
  rw [assemble, assemble, ofSource_congr (Text.map_trim_lines_withReturns t)]

/-- A comment and blanks are put into a source whose second label is a duplicate: the error moves
from the third line to the sixth, which are both the third that remain. -/
theorem assemble_ignores_spacing_of_duplicate :
    let a : Assembler := {}
    let source := ["x:", "hlt", "x:", ".data", "y: 1"].map String.toList
    let source' := ["", "  x:\r", "# stop", "\thlt", "   ", "x: ", ".data", "#", "y: 1"].map
      String.toList
    let e : Error := ⟨⟨3, "x:".toList⟩, .duplicateLabel "x".toList⟩
    let e' : Error := ⟨⟨6, "x:".toList⟩, .duplicateLabel "x".toList⟩
    remaining source = remaining source' ∧
      (a.assemble source).1 = .error e ∧ (a.assemble source').1 = .error e' ∧
      SameResult source source' (.error e) (.error e') ∧
      a.assemble (Text.lines "hlt\r\n\r\nhlt 1".toList) =
        a.assemble (Text.lines "hlt\n\nhlt 1".toList) := by
  intro a source source' e e'
  have hremaining : remaining source = remaining source' := by decide
  have he : (a.assemble source).1 = .error e := by decide
  have he' : (a.assemble source').1 = .error e' := by decide
  obtain ⟨hsame, hreturns⟩ := assemble_ignores_spacing a a
  have hresult := (hsame source source' hremaining).2
  rw [he, he'] at hresult
  have hlines : "hlt\r\n\r\nhlt 1".toList = Text.withReturns "hlt\n\nhlt 1".toList := by decide
  exact ⟨hremaining, he, he', hresult, hlines ▸ hreturns "hlt\n\nhlt 1".toList⟩

end Assembler
end RegisterMachine
