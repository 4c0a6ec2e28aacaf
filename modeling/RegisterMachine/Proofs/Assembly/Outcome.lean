import RegisterMachine.Proofs.Assembly.Layout

/-! # What assembling a source gives

A source is either accepted, and then its words are those of its instruction lines, or refused, and
then for the first violation in the order of the passes: labels of the code, lines of the data,
instructions.  What this means is said on the lines of the source alone (`Sections.Acceptable`,
`FirstViolation`), in the words of the grammar and the layout.

That the assembler does the same is a matter of putting the passes together (`ofSections_cases`). -/

namespace RegisterMachine
namespace Assembly

/-! ## Lines and sections -/

/-- **The two sections of a source**: what comes before the first divider, and what comes after
it. -/
inductive Divides (cleaned : List Text) : List Text → List Text → Prop
  /-- Without a divider, everything is code. -/
  | whole (h : divider ∉ cleaned) : Divides cleaned cleaned []
  | divided {code data : List Text} (h : cleaned = code ++ divider :: data)
      (hcode : divider ∉ code) : Divides cleaned code data

theorem Divides.cons {cleaned code data : List Text} {t : Text} (h : Divides cleaned code data)
    (ht : t ≠ divider) : Divides (t :: cleaned) (t :: code) data := by
  cases h with
  | whole h =>
    refine .whole fun hmem => ?_
    rcases List.mem_cons.mp hmem with he | hmem
    · exact ht he.symm
    · exact h hmem
  | divided h hcode =>
    refine .divided (by rw [h, List.cons_append]) fun hmem => ?_
    rcases List.mem_cons.mp hmem with he | hmem
    · exact ht he.symm
    · exact hcode hmem

theorem divides_ofLines (ls : List Line) :
    Divides (ls.map Line.text) ((Sections.ofLines ls).code.map Line.text)
      ((Sections.ofLines ls).data.map Line.text) := by
  induction ls with
  | nil => exact .whole (by simp)
  | cons l rest ih =>
    by_cases hl : l.text = divider
    · have hdivider : l.isDivider = true := by simp [Line.isDivider, hl]
      simp only [Sections.ofLines, List.takeWhile_cons, List.dropWhile_cons, hdivider,
        List.map_cons]
      exact .divided (by simp [hl]) (by simp)
    · have hdivider : l.isDivider = false := by simp [Line.isDivider, hl]
      simpa [Sections.ofLines, hdivider] using ih.cons hl

/-- The lines that count are the trimmed lines that are neither empty nor comments. -/
theorem map_text_ofSource (source : List Text) :
    (Line.ofSource source).map Line.text = (source.map Text.trim).filter Line.counts := by
  have htexts : ((source.zipIdx 1).map fun given => (⟨given.2, Text.trim given.1⟩ : Line)).map
      Line.text = source.map Text.trim := by
    have hcomp : (Line.text ∘ fun given : Text × Nat => (⟨given.2, Text.trim given.1⟩ : Line)) =
        Text.trim ∘ Prod.fst := rfl
    rw [List.map_map, hcomp, ← List.map_map, List.zipIdx_map_fst]
  rw [← htexts, List.filter_map]
  rfl

/-- **A line keeps its number**, by which it is found in the source. -/
theorem mem_ofSource {source : List Text} {l : Line} (h : l ∈ Line.ofSource source) :
    1 ≤ l.number ∧ l.number ≤ source.length ∧
      (source[l.number - 1]?).map Text.trim = some l.text ∧ Line.counts l.text = true := by
  obtain ⟨hmap, hcounts⟩ := List.mem_filter.mp h
  obtain ⟨⟨given, number⟩, hgiven, rfl⟩ := List.mem_map.mp hmap
  obtain ⟨hle, hlt, hget⟩ := List.mem_zipIdx hgiven
  refine ⟨hle, ?_, ?_, hcounts⟩
  · show number ≤ source.length
    omega
  · show (source[number - 1]?).map Text.trim = some (Text.trim given)
    rw [List.getElem?_eq_getElem (by omega), hget, Option.map_some]

/-- A line that counts has a first word. -/
theorem words_ne_nil_of_mem {source : List Text} {l : Line} (h : l ∈ Line.ofSource source) :
    Text.words l.text ≠ [] := by
  obtain ⟨-, -, htext, hcounts⟩ := mem_ofSource h
  obtain ⟨given, -, hgiven⟩ := Option.map_eq_some_iff.mp htext
  have hne : Text.trim given ≠ [] := by
    rw [hgiven]
    exact (Line.counts_iff.mp hcounts).1
  obtain ⟨c, hc, hblank⟩ := Text.exists_not_blank_of_trim hne
  rw [hgiven] at hc
  intro hnil
  rw [Text.words_eq_nil_iff.mp hnil c hc] at hblank
  cases hblank

theorem mem_ofSource_of_code {source : List Text} {l : Line}
    (h : l ∈ (Sections.ofSource source).code) : l ∈ Line.ofSource source :=
  (List.takeWhile_sublist _).subset h

theorem mem_ofSource_of_data {source : List Text} {l : Line}
    (h : l ∈ (Sections.ofSource source).data) : l ∈ Line.ofSource source :=
  (List.dropWhile_sublist _).subset (List.mem_of_mem_tail h)

/-! ## Acceptance and the first violation -/

namespace Sections
variable (s : Sections)

/-- **The labels of a source** whose data lines ask for the given allocations. -/
def labels (as : List Allocation) : LabelTable :=
  codeLabels s.code ++ dataLabels s.instructions.length as

/-- Data lines are in order after the code. -/
def Lays (ls : List Line) (as : List Allocation) : Prop :=
  Laid (labelNames s.code) s.instructions.length ls as

/-- **A source that can be assembled**: its data lines are in order, with the allocations they ask
for, and every instruction is spelt in its labels. -/
structure Acceptable (as : List Allocation) : Prop where
  lays : s.Lays s.data as
  spells : ∀ l ∈ s.instructions, ∃ o tokens values, Spells (s.labels as) l.text o tokens values

end Sections

/-- **The first violation of a source**, in the order of the passes, and the labels that are defined
before it. -/
inductive FirstViolation (s : Sections) : Error → LabelTable → Prop
  /-- A label of the code has a name that an earlier one has. -/
  | label {before after : List Line} {l : Line} {name : Text}
      (hsplit : s.code = before ++ l :: after) (hbefore : (labelNames before).Nodup)
      (hl : l.text = name ++ [labelEnd])
      (hname : name ∈ labelNames before) :
      FirstViolation s ⟨l, .duplicateLabel name⟩ (codeLabels before)
  /-- A line of the data is wrong, and those before it are in order. -/
  | data {before after : List Line} {l : Line} {as : List Allocation} {v : Violation}
      (hsplit : s.data = before ++ l :: after) (hbefore : s.Lays before as)
      (hl : Misallocates (labelNames s.code) s.instructions.length as l.text v) :
      FirstViolation s ⟨l, v⟩ (s.labels as)
  /-- An instruction is misspelt, and those before it are not. -/
  | instruction {before after : List Line} {l : Line} {as : List Allocation} {v : Violation}
      (hdata : s.Lays s.data as) (hsplit : s.instructions = before ++ l :: after)
      (hbefore : ∀ b ∈ before, ∃ o tokens values, Spells (s.labels as) b.text o tokens values)
      (hl : Misspells (s.labels as) l.text v) : FirstViolation s ⟨l, v⟩ (s.labels as)

/-- The line at fault is one of the source. -/
theorem FirstViolation.mem {source : List Text} {e : Error} {labels : LabelTable}
    (h : FirstViolation (Sections.ofSource source) e labels) : e.line ∈ Line.ofSource source := by
  cases h with
  | label hsplit => exact mem_ofSource_of_code (by simp [hsplit])
  | data hsplit => exact mem_ofSource_of_data (by simp [hsplit])
  | instruction _ hsplit =>
    exact mem_ofSource_of_code (Sections.mem_instructions_iff.mp (by simp [hsplit])).1

/-! ## Putting the passes together -/

section Compile
variable {table : LabelTable} {ls : List Line} {t : Text}

theorem compile_eq_mapM (table : LabelTable) (ls : List Line) :
    compile table ls = ls.mapM fun l => (l.compile table).mapError fun v => (⟨l, v⟩ : Error) := by
  induction ls with
  | nil => rfl
  | cons l rest ih =>
    rw [compile, List.mapM_cons, ih]
    cases l.compile table with
    | error v => rfl
    | ok w => cases rest.mapM fun l => (l.compile table).mapError fun v => (⟨l, v⟩ : Error) <;> rfl

/-- A line that is spelt in a table has a word. -/
theorem exists_translates_iff :
    (∃ w, Translates table t w) ↔ ∃ o tokens values, Spells table t o tokens values := by
  constructor
  · rintro ⟨w, o, tokens, values, hspells, -⟩
    exact ⟨o, tokens, values, hspells⟩
  · rintro ⟨o, tokens, values, hspells⟩
    exact ⟨_, o, tokens, values, hspells,
      Instruction.toNat_encode ⟨o.code, values.getD 0 0, values.getD 1 0⟩⟩

theorem compile_eq_ok_iff (hd : table.names.Nodup) {p : Program} :
    compile table ls = .ok p ↔ List.Forall₂ (fun l w => Translates table l.text w) ls p := by
  have hok : ∀ {l : Line} {w : Word},
      (l.compile table).mapError (fun v => (⟨l, v⟩ : Error)) = .ok w ↔
        Translates table l.text w := by
    intro l w
    rw [← Line.compile_eq_ok_iff hd]
    cases l.compile table <;> simp [Except.mapError]
  rw [compile_eq_mapM, mapM_eq_ok_iff]
  simp only [hok]

theorem compile_eq_error_iff (hd : table.names.Nodup)
    (hw : ∀ l ∈ ls, Text.words l.text ≠ []) {e : Error} :
    compile table ls = .error e ↔ ∃ before after, ls = before ++ e.line :: after ∧
      (∀ b ∈ before, ∃ o tokens values, Spells table b.text o tokens values) ∧
      Misspells table e.line.text e.violation := by
  have hok : ∀ l : Line, (∃ w, (l.compile table).mapError (fun v => (⟨l, v⟩ : Error)) = .ok w) ↔
      ∃ o tokens values, Spells table l.text o tokens values := by
    intro l
    simp only [← exists_translates_iff, ← Line.compile_eq_ok_iff hd]
    cases l.compile table <;> simp [Except.mapError]
  have herror : ∀ l : Line, (l.compile table).mapError (fun v => (⟨l, v⟩ : Error)) = .error e ↔
      l = e.line ∧ l.compile table = .error e.violation := by
    intro l
    obtain ⟨line, violation⟩ := e
    cases l.compile table <;> simp [Except.mapError]
  rw [compile_eq_mapM, mapM_eq_error_iff]
  simp only [hok, herror]
  constructor
  · rintro ⟨before, l, after, rfl, hbefore, rfl, hl⟩
    exact ⟨before, after, rfl, hbefore,
      (Line.compile_eq_error_iff hd (hw _ (by simp))).mp hl⟩
  · rintro ⟨before, after, rfl, hbefore, hl⟩
    exact ⟨before, e.line, after, rfl, hbefore, rfl,
      (Line.compile_eq_error_iff hd (hw _ (by simp))).mpr hl⟩

end Compile

section Passes
variable {s : Sections} {as : List Allocation} {labels : LabelTable}

theorem names_labels (s : Sections) (as : List Allocation) :
    (s.labels as).names = labelNames s.code ++ as.map Allocation.name := by
  rw [← names_codeLabels, ← names_dataLabels s.instructions.length]
  simp [Sections.labels, LabelTable.names]

theorem Sections.Lays.nodup_names {ls : List Line} (h : s.Lays ls as) :
    (s.labels as).names.Nodup := by
  rw [names_labels]
  exact h.distinct

theorem Sections.Lays.nodup_labelNames {ls : List Line} (h : s.Lays ls as) :
    (labelNames s.code).Nodup :=
  (List.nodup_append.mp h.distinct).1

theorem nodup_codeLabels (h : (labelNames s.code).Nodup) : (codeLabels s.code).names.Nodup := by
  rw [names_codeLabels]
  exact h

/-- The labels of the code are in order, and a line of the data is not. -/
theorem ofSections_of_data_error {e : Error} (h : (labelNames s.code).Nodup)
    (hdata : (codeLabels s.code).addData s.instructions.length s.data = (labels, some e)) :
    ofSections s = ⟨labels, .error e⟩ := by
  simp only [ofSections, addCode_eq_none_iff.mpr ⟨h, rfl⟩, hdata]

/-- The labels of the code are in order, and so is the data. -/
theorem ofSections_of_lays (h : s.Lays s.data as) :
    ofSections s = ⟨s.labels as, compile (s.labels as) s.instructions⟩ := by
  have hdata : (codeLabels s.code).addData s.instructions.length s.data = (s.labels as, none) := by
    refine (addData_eq_none_iff (nodup_codeLabels h.nodup_labelNames)).mpr ⟨as, ?_, rfl⟩
    rw [names_codeLabels]
    exact h
  simp only [ofSections, addCode_eq_none_iff.mpr ⟨h.nodup_labelNames, rfl⟩, hdata]

/-- **What the three passes can come to**: the first two find a violation, or all is left to the
third. -/
theorem ofSections_cases (s : Sections) :
    (∃ e labels, FirstViolation s e labels ∧ ofSections s = ⟨labels, .error e⟩) ∨
      ∃ as, s.Lays s.data as ∧
        ofSections s = ⟨s.labels as, compile (s.labels as) s.instructions⟩ := by
  rcases hcode : LabelTable.addCode [] 0 s.code with ⟨table, _ | e⟩
  · obtain ⟨hnodup, rfl⟩ := addCode_eq_none_iff.mp hcode
    rcases hdata : (codeLabels s.code).addData s.instructions.length s.data with ⟨found, _ | e⟩
    · obtain ⟨as, has, rfl⟩ := (addData_eq_none_iff (nodup_codeLabels hnodup)).mp hdata
      rw [names_codeLabels] at has
      exact .inr ⟨as, has, ofSections_of_lays has⟩
    · obtain ⟨before, after, as, hsplit, has, hv, rfl⟩ :=
        (addData_eq_some_iff (nodup_codeLabels hnodup)).mp hdata
      rw [names_codeLabels] at has hv
      exact .inl ⟨e, _, .data hsplit has hv, ofSections_of_data_error hnodup hdata⟩
  · obtain ⟨before, after, name, hsplit, hname, hnodup, hmem, rfl, hv⟩ :=
      addCode_eq_some_iff.mp hcode
    obtain ⟨l, v⟩ := e
    obtain rfl : v = .duplicateLabel name := hv
    exact .inl ⟨_, _, .label hsplit hnodup (Line.label?_eq_some_iff.mp hname) hmem,
      by rw [ofSections, hcode]⟩

/-- **A source is accepted** if all passes go through, and its words are those of its instructions.
-/
theorem ofSections_eq_ok_iff {p : Program} :
    ofSections s = ⟨labels, .ok p⟩ ↔ ∃ as, s.Lays s.data as ∧ labels = s.labels as ∧
      List.Forall₂ (fun l w => Translates (s.labels as) l.text w) s.instructions p := by
  constructor
  · intro h
    rcases ofSections_cases s with ⟨e, found, -, herror⟩ | ⟨as, has, hcompile⟩
    · rw [herror] at h
      cases h
    · rw [hcompile] at h
      obtain ⟨rfl, hok⟩ := Assembly.mk.inj h
      exact ⟨as, has, rfl, (compile_eq_ok_iff has.nodup_names).mp hok⟩
  · rintro ⟨as, has, rfl, hwords⟩
    rw [ofSections_of_lays has, (compile_eq_ok_iff has.nodup_names).mpr hwords]

theorem exists_translates_of_mem {ls : List Line} {p : Program} {w : Word}
    (h : List.Forall₂ (fun l w => Translates labels l.text w) ls p) (hw : w ∈ p) :
    ∃ t, Translates labels t w := by
  induction h with
  | nil => cases hw
  | cons hl _ ih =>
    rcases List.mem_cons.mp hw with rfl | hw
    · exact ⟨_, hl⟩
    · exact ih hw

theorem ofSections_of_program {source : List Text} {result : Except Error Program}
    (h : (ofSource source).program = result) :
    ofSections (Sections.ofSource source) = ⟨(ofSource source).labels, result⟩ := by
  rw [← h]
  rfl

/-- Every word of an assembled program is that of a line. -/
theorem exists_translates_of_ofSource {source : List Text} {p : Program} {w : Word}
    (h : (ofSource source).program = .ok p) (hw : w ∈ p) : ∃ table t, Translates table t w := by
  obtain ⟨as, -, -, hwords⟩ := ofSections_eq_ok_iff.mp (ofSections_of_program h)
  exact ⟨_, exists_translates_of_mem hwords hw⟩

/-- The words of an assembled program have a byte to spare. -/
theorem toNat_lt_of_ofSource {source : List Text} {p : Program}
    (h : (ofSource source).program = .ok p) : ∀ w ∈ p, w.toNat < 0x1000000 := by
  intro w hw
  obtain ⟨table, t, hline⟩ := exists_translates_of_ofSource h hw
  exact hline.toNat_lt

/-- **A source is refused** for its first violation. -/
theorem ofSections_eq_error_iff (hw : ∀ l ∈ s.instructions, Text.words l.text ≠ []) {e : Error} :
    ofSections s = ⟨labels, .error e⟩ ↔ FirstViolation s e labels := by
  constructor
  · intro h
    rcases ofSections_cases s with ⟨e', found, hfirst, herror⟩ | ⟨as, has, hcompile⟩
    · rw [herror] at h
      cases h
      exact hfirst
    · rw [hcompile] at h
      obtain ⟨rfl, herror⟩ := Assembly.mk.inj h
      obtain ⟨before, after, hsplit, hbefore, hl⟩ :=
        (compile_eq_error_iff has.nodup_names hw).mp herror
      exact .instruction has hsplit hbefore hl
  · intro h
    cases h with
    | @label before after l name hsplit hbefore hl hname =>
      have hcode : LabelTable.addCode [] 0 s.code =
          (codeLabels before, some ⟨l, .duplicateLabel name⟩) :=
        addCode_eq_some_iff.mpr ⟨before, after, name, hsplit, Line.label?_eq_some_iff.mpr hl,
          hbefore, hname, rfl, rfl⟩
      rw [ofSections, hcode]
    | @data before after l as v hsplit hbefore hl =>
      have hnodup := hbefore.nodup_labelNames
      have hdata : (codeLabels s.code).addData s.instructions.length s.data =
          (s.labels as, some ⟨l, v⟩) := by
        refine (addData_eq_some_iff (nodup_codeLabels hnodup)).mpr ⟨before, after, as, hsplit, ?_⟩
        rw [names_codeLabels]
        exact ⟨hbefore, hl, rfl⟩
      exact ofSections_of_data_error hnodup hdata
    | @instruction before after l as v hdata hsplit hbefore hl =>
      have hcompile : compile (s.labels as) s.instructions = .error ⟨l, v⟩ :=
        (compile_eq_error_iff hdata.nodup_names hw).mpr ⟨before, after, hsplit, hbefore, hl⟩
      rw [ofSections_of_lays hdata, hcompile]

end Passes

end Assembly

/-! ## Sources -/

namespace Assembler
open Assembly

theorem assemble_eq_iff {a : Assembler} {source : List Text} {labels : LabelTable}
    {result : Except Error Program} :
    ofSections (Sections.ofSource source) = ⟨labels, result⟩ ↔
      (a.assemble source).1 = result ∧ (a.assemble source).2.labels = labels := by
  rw [assemble, ofSource]
  rcases ofSections (Sections.ofSource source) with ⟨found, program⟩
  simp [and_comm]

/-- The instructions of an acceptable source have words, one each. -/
theorem exists_words_iff {table : LabelTable} {ls : List Line} :
    (∃ p, List.Forall₂ (fun l w => Translates table l.text w) ls p) ↔
      ∀ l ∈ ls, ∃ o tokens values, Spells table l.text o tokens values := by
  rw [exists_forall₂_iff]
  simp only [exists_translates_iff]

/-- **A source is translated as it says**, whatever has been assembled before.  Its sections are
those of its trimmed lines without blank lines and comments (`Line.counts_iff`), and its
instructions are the lines of the code that do not end with the mark of a label
(`Sections.instructions_eq`).  It is accepted if and only if its data lines are in order and all its
instructions are spelt right; then its labels stand where the layout puts them, and there is one
word for each instruction, in order, with the operation and the operands that the line spells in its
words (`Text.words_eq_nil_iff`, `Text.words_eq_cons_iff`). -/
theorem assemble_translates (a : Assembler) (source : List Text) :
    let s := Sections.ofSource source
    Divides ((source.map Text.trim).filter Line.counts) (s.code.map Line.text)
        (s.data.map Line.text) ∧
      ((∃ p, (a.assemble source).1 = .ok p) ↔ ∃ as, s.Acceptable as) ∧
      ∀ p, (a.assemble source).1 = .ok p → ∃ as, s.Acceptable as ∧
        (a.assemble source).2.labels = s.labels as ∧
        List.Forall₂ (fun l w => Translates (s.labels as) l.text w) s.instructions p := by
  intro s
  have haccepted : ∀ p, (a.assemble source).1 = .ok p → ∃ as, s.Acceptable as ∧
      (a.assemble source).2.labels = s.labels as ∧
      List.Forall₂ (fun l w => Translates (s.labels as) l.text w) s.instructions p := by
    intro p hp
    obtain ⟨as, has, hlabels, hwords⟩ := ofSections_eq_ok_iff.mp (assemble_eq_iff.mpr ⟨hp, rfl⟩)
    exact ⟨as, ⟨has, exists_words_iff.mp ⟨p, hwords⟩⟩, hlabels, hwords⟩
  refine ⟨?_, ⟨?_, ?_⟩, haccepted⟩
  · rw [← map_text_ofSource]
    exact divides_ofLines _
  · rintro ⟨p, hp⟩
    obtain ⟨as, has, -⟩ := haccepted p hp
    exact ⟨as, has⟩
  · rintro ⟨as, has⟩
    obtain ⟨p, hp⟩ := exists_words_iff.mpr has.spells
    exact ⟨p, (assemble_eq_iff.mp (ofSections_eq_ok_iff.mpr ⟨as, has.lays, rfl, hp⟩)).1⟩

/-- **A source is refused for its first violation**, whatever has been assembled before: there is
only one, and the labels that are known afterwards are those defined before it.  The line at fault
is a line of the source, found by its number. -/
theorem assemble_error_first {a : Assembler} {source : List Text} {e : Error}
    (h : (a.assemble source).1 = .error e) :
    FirstViolation (Sections.ofSource source) e (a.assemble source).2.labels ∧
      (∀ e' labels, FirstViolation (Sections.ofSource source) e' labels →
        e' = e ∧ labels = (a.assemble source).2.labels) ∧
      1 ≤ e.line.number ∧ e.line.number ≤ source.length ∧
      (source[e.line.number - 1]?).map Text.trim = some e.line.text := by
  have hw : ∀ l ∈ (Sections.ofSource source).instructions, Text.words l.text ≠ [] :=
    fun l hl => words_ne_nil_of_mem (mem_ofSource_of_code (Sections.mem_instructions_iff.mp hl).1)
  have hfirst := (ofSections_eq_error_iff hw).mp (assemble_eq_iff.mpr ⟨h, rfl⟩)
  obtain ⟨hone, hlength, htext, -⟩ := mem_ofSource hfirst.mem
  refine ⟨hfirst, ?_, hone, hlength, htext⟩
  intro e' labels hother
  obtain ⟨hresult, hlabels⟩ := assemble_eq_iff.mp ((ofSections_eq_error_iff hw).mpr hother)
  exact ⟨Except.error.inj (hresult.symm.trans h), hlabels.symm⟩

/-- A label that is defined twice is reported before an unknown operation on an earlier line and a
malformed allocation on a later one, and only the labels before it are known. -/
theorem assemble_error_first_of_three :
    let a : Assembler := ⟨[("old".toList, 7)]⟩
    let source := ["bogus", "a:", "# twice", "hlt", "b:", "  a:", ".data", "x"].map String.toList
    let e : Error := ⟨⟨6, "a:".toList⟩, .duplicateLabel "a".toList⟩
    (a.assemble source).1 = .error e ∧
      FirstViolation (Sections.ofSource source) e [("a".toList, 1), ("b".toList, 2)] ∧
      (source[5]?).map Text.trim = some "a:".toList := by
  intro a source e
  have h : (a.assemble source).1 = .error e := by decide
  have hlabels : (a.assemble source).2.labels = [("a".toList, 1), ("b".toList, 2)] := by decide
  obtain ⟨hfirst, -, -, -, htext⟩ := assemble_error_first h
  rw [hlabels] at hfirst
  exact ⟨h, hfirst, htext⟩

end Assembler
end RegisterMachine
