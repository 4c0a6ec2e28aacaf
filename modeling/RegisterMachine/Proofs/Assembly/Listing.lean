import RegisterMachine.Proofs.Assembly.Outcome
import RegisterMachine.Proofs.Assembly.WellFormed

/-! # Programs written as source

An instruction can be written as a line of a source: its mnemonic, and each operand after a blank, a
register by its number and a value in decimal (`Instruction.sourceLine`).  What is written has no
room for the top byte of a word, nor for a field that the operation has no use for, so only
*canonical* words can come back from it.  They do (`ofSource_sourceLines`), and no source
whatever gives another word (`canonical_of_ofSource`).

A line that is written so means the same in every table of labels (`translates_sourceLine`), and it
cannot be taken for a comment, a label or the divider (`PlainLine`). -/

namespace RegisterMachine

/-! ## Writing -/

/-- An operand as it is written. -/
def OperandKind.text : OperandKind → UInt8 → Text
  | register, v => Assembly.registerMark :: Text.decimal v.toNat
  | value, v => Text.decimal v.toNat

namespace Instruction

/-- The operands that an instruction has a use for, with what each of them is. -/
def operandList (i : Instruction) : List (OperandKind × UInt8) :=
  (i.opcode?.elim [] fun o => o.format.operandKinds).zip [i.first, i.second]

/-- The operands as they are written. -/
def operandTexts (i : Instruction) : List Text :=
  i.operandList.map fun x => x.1.text x.2

/-- The fields that an instruction has no use for. -/
def unusedFields (i : Instruction) : List UInt8 :=
  [i.first, i.second].drop (i.opcode?.elim 0 fun o => o.format.operandCount)

/-- The line of a source that an instruction is written as. -/
def sourceLine (i : Instruction) : Text :=
  i.opcode?.elim [] Opcode.mnemonic ++ i.operandTexts.flatMap fun t => ' ' :: t

end Instruction

/-- The line of a source that a word is written as. -/
def Word.sourceLine (w : Word) : Text :=
  (Instruction.decode w).sourceLine

/-- **A word that a line of a source can stand for**: it is below 2^24, its operation is known and
not reserved, its operands name registers where they have to, and the fields that are left are zero.
-/
structure Word.Canonical (w : Word) : Prop where
  fits : w.toNat < 2 ^ 24
  wellFormed : (Instruction.decode w).WellFormed
  unused : ∀ v ∈ (Instruction.decode w).unusedFields, v = 0

theorem Word.canonical_iff {w : Word} :
    w.Canonical ↔ w.toNat < 2 ^ 24 ∧
      (Instruction.decode w).opcode?.any (fun o => !o.isReserved) = true ∧
      (Instruction.decode w).registerOperands.all (fun r => r.toNat < registerCount) = true ∧
      (Instruction.decode w).unusedFields.all (· == 0) = true := by
  simp only [Option.any_eq_true, Bool.not_eq_true', List.all_eq_true, decide_eq_true_eq, beq_iff_eq]
  constructor
  · rintro ⟨hfits, ⟨hknown, hregisters⟩, hunused⟩
    exact ⟨hfits, hknown, hregisters, hunused⟩
  · rintro ⟨hfits, hknown, hregisters, hunused⟩
    exact ⟨hfits, ⟨hknown, hregisters⟩, hunused⟩

instance (w : Word) : Decidable w.Canonical :=
  decidable_of_iff _ Word.canonical_iff.symm

/-! ## What is written stands for the word -/

namespace Instruction
variable {i : Instruction} {o : Opcode}

theorem operandList_of_opcode (h : i.opcode? = some o) :
    i.operandList = o.format.operandKinds.zip [i.first, i.second] := by
  rw [operandList, h, Option.elim_some]

theorem map_fst_operandList (h : i.opcode? = some o) :
    i.operandList.map Prod.fst = o.format.operandKinds := by
  rw [operandList_of_opcode h]
  cases o.format <;> rfl

/-- An operand that has to name a register is one of the register operands. -/
theorem mem_registerOperands (h : i.opcode? = some o) {v : UInt8}
    (hv : (.register, v) ∈ i.operandList) : v ∈ i.registerOperands := by
  rw [operandList_of_opcode h] at hv
  rw [registerOperands, h, Option.map_some]
  cases hf : o.format <;> simp_all [Format.operandKinds]

/-- Where the fields without use are zero, the operands are all there is. -/
theorem getD_operandList (h : i.opcode? = some o) (hunused : ∀ v ∈ i.unusedFields, v = 0) :
    (i.operandList.map Prod.snd).getD 0 0 = i.first ∧
      (i.operandList.map Prod.snd).getD 1 0 = i.second := by
  rw [unusedFields, h, Option.elim_some] at hunused
  rw [operandList_of_opcode h]
  cases hf : o.format <;> simp_all [Format.operandKinds, Format.operandCount]

theorem sourceLine_of_opcode (h : i.opcode? = some o) :
    i.sourceLine = o.mnemonic ++ i.operandTexts.flatMap fun t => ' ' :: t := by
  rw [sourceLine, h, Option.elim_some]

end Instruction

/-- The characters that a line is written with, blanks apart. -/
def IsPlain (c : Char) : Prop :=
  Text.isBlank c = false ∧ c ≠ Assembly.labelEnd

theorem isPlain_of_mem_mnemonic {o : Opcode} {c : Char} (h : c ∈ o.mnemonic) : IsPlain c := by
  have hall : (o.mnemonic.all fun c => !Text.isBlank c && c != Assembly.labelEnd) = true := by
    cases o <;> decide
  simpa [IsPlain] using List.all_eq_true.mp hall c h

theorem isPlain_of_mem_decimal {n : Nat} {c : Char} (h : c ∈ Text.decimal n) : IsPlain c := by
  have hmem := Text.mem_hexDigits_of_isDigit ((Text.isNatural_decimal n).digits c h)
  have hmark : Assembly.labelEnd ∉ Text.hexDigits := by decide
  exact ⟨(Text.hexDigits_not_blank c hmem).1, fun he => hmark (he ▸ hmem)⟩

theorem OperandKind.isPlain_of_mem_text {kind : OperandKind} {v : UInt8} {c : Char}
    (h : c ∈ kind.text v) : IsPlain c := by
  cases kind with
  | register =>
    rcases List.mem_cons.mp h with rfl | h
    · exact ⟨by decide, by decide⟩
    · exact isPlain_of_mem_decimal h
  | value => exact isPlain_of_mem_decimal h

theorem OperandKind.text_ne_nil (kind : OperandKind) (v : UInt8) : kind.text v ≠ [] := by
  cases kind with
  | register => exact List.cons_ne_nil _ _
  | value => exact (Text.isNatural_decimal v.toNat).nonempty

theorem OperandKind.isWord_text (kind : OperandKind) (v : UInt8) : Text.IsWord (kind.text v) :=
  ⟨kind.text_ne_nil v, fun _ hc => (isPlain_of_mem_text hc).1⟩

theorem Opcode.isWord_mnemonic (o : Opcode) : Text.IsWord o.mnemonic where
  nonempty := by cases o <;> decide
  unbroken _ hc := (isPlain_of_mem_mnemonic hc).1

namespace Assembly
variable {table : LabelTable} {w : Word}

/-- **An operand stands for what it is written for**, whatever labels there are. -/
theorem denotes_text {kind : OperandKind} {v : UInt8}
    (h : kind = .register → v.toNat < registerCount) : Denotes table kind (kind.text v) v := by
  cases kind with
  | register => exact .register (Text.isNatural_decimal v.toNat) (h rfl)
  | value => exact .number (.unsigned (Text.isNatural_decimal v.toNat))

theorem words_sourceLine {i : Instruction} {o : Opcode} (h : i.opcode? = some o) :
    Text.words i.sourceLine = o.mnemonic :: i.operandTexts := by
  have hwords : ∀ u ∈ i.operandTexts, Text.IsWord u := by
    intro u hu
    obtain ⟨x, -, rfl⟩ := List.mem_map.mp hu
    exact x.1.isWord_text x.2
  have hline := Text.words_append_flatMap (c := ' ') o.mnemonic (by decide) (List.forall_mem_nil _)
    hwords
  rw [o.isWord_mnemonic.words_eq] at hline
  rw [Instruction.sourceLine_of_opcode h]
  exact hline

/-- **A canonical word is spelt by the line it is written as.** -/
theorem spells_sourceLine {i : Instruction} {o : Opcode} (h : i.opcode? = some o)
    (hallowed : o.isReserved = false)
    (hregisters : ∀ r ∈ i.registerOperands, r.toNat < registerCount) :
    Spells table i.sourceLine o i.operandTexts (i.operandList.map Prod.snd) where
  words := words_sourceLine h
  allowed := hallowed
  count := by
    have hlength := congrArg List.length (Instruction.map_fst_operandList h)
    rw [List.length_map] at hlength
    rw [Instruction.operandTexts, List.length_map, hlength]
    cases o.format <;> rfl
  denotes := by
    rw [← Instruction.map_fst_operandList h, Instruction.operandTexts, List.zip_map',
      List.forall₂_map_left_iff, List.forall₂_map_right_iff, List.forall₂_same]
    rintro ⟨kind, v⟩ hx
    refine denotes_text fun hkind => hregisters v ?_
    subst hkind
    exact Instruction.mem_registerOperands h hx

/-- **A canonical word is what its line stands for**, whatever labels there are. -/
theorem translates_sourceLine (h : w.Canonical) : Translates table w.sourceLine w := by
  obtain ⟨o, ho, hallowed⟩ := h.wellFormed.known
  obtain ⟨hfirst, hsecond⟩ := Instruction.getD_operandList ho h.unused
  refine ⟨o, _, _, spells_sourceLine ho hallowed h.wellFormed.registers, ?_⟩
  rw [hfirst, hsecond, ← Instruction.opcode?_eq_some_iff.mp ho, ← Instruction.toNat_encode,
    Instruction.toNat_encode_decode]
  exact (Nat.mod_eq_of_lt h.fits).symm

/-! ## Every word of a source is canonical -/

theorem Spells.length_values {t : Text} {o : Opcode} {tokens : List Text} {values : List UInt8}
    (h : Spells table t o tokens values) : values.length = o.format.operandCount := by
  have hkinds : o.format.operandKinds.length = o.format.operandCount := by
    cases o.format <;> rfl
  rw [← h.denotes.length_eq, List.length_zip, hkinds, h.count, Nat.min_self]

/-- Where there are no values any more, the default stands. -/
theorem eq_zero_of_mem_drop (values : List UInt8) :
    ∀ v ∈ [values.getD 0 0, values.getD 1 0].drop values.length, v = 0 := by
  match values with
  | [] => simp
  | [first] => simp
  | first :: second :: others => simp

/-- A field without an operand is zero. -/
theorem Translates.unused {t : Text} (h : Translates table t w) :
    ∀ v ∈ (Instruction.decode w).unusedFields, v = 0 := by
  obtain ⟨o, tokens, values, hspells, hword⟩ := h
  have hencode : w = Instruction.encode ⟨o.code, values.getD 0 0, values.getD 1 0⟩ := by
    rw [← UInt32.toNat_inj, hword, Instruction.toNat_encode]
  have ho : (⟨o.code, values.getD 0 0, values.getD 1 0⟩ : Instruction).opcode? = some o :=
    Instruction.opcode?_eq_some_iff.mpr rfl
  rw [hencode, Instruction.decode_encode, Instruction.unusedFields, ho, Option.elim_some,
    ← hspells.length_values]
  exact eq_zero_of_mem_drop values

/-- **Every word of an assembled program is canonical.** -/
theorem canonical_of_ofSource {source : List Text} {p : Program}
    (h : (ofSource source).program = .ok p) : ∀ w ∈ p, w.Canonical := by
  intro w hw
  obtain ⟨table, t, hline⟩ := exists_translates_of_ofSource h hw
  exact ⟨hline.toNat_lt, wellFormed_of_ofSource h w hw, hline.unused⟩

/-! ## Sources without labels -/

/-- **A line that can only be an instruction**: there is nothing to trim, and it is not blank, no
comment, no divider and no label. -/
structure PlainLine (t : Text) : Prop where
  trimmed : Text.trim t = t
  counts : Line.counts t = true
  notDivider : t ≠ divider
  notLabel : t.getLast? ≠ some labelEnd

/-- No mnemonic starts as a comment or the divider does. -/
theorem head?_mnemonic (o : Opcode) :
    ∃ c, o.mnemonic.head? = some c ∧ Text.isBlank c = false ∧ c ≠ commentMark ∧
      divider.head? ≠ some c := by
  cases o <;> exact ⟨_, rfl, by decide, by decide, by decide⟩

theorem plainLine_sourceLine {i : Instruction} {o : Opcode} (h : i.opcode? = some o) :
    PlainLine i.sourceLine := by
  have hlast : ∀ c ∈ i.sourceLine.getLast?, IsPlain c := by
    intro c hc
    rw [Instruction.sourceLine_of_opcode h] at hc
    have hne : ∀ u ∈ i.operandTexts, u ≠ [] := by
      intro u hu
      obtain ⟨x, -, rfl⟩ := List.mem_map.mp hu
      exact x.1.text_ne_nil x.2
    obtain ⟨u, hu, hcu⟩ := Text.exists_mem_of_getLast? hne hc
    rcases List.mem_cons.mp hu with rfl | hu
    · exact isPlain_of_mem_mnemonic hcu
    · obtain ⟨x, -, rfl⟩ := List.mem_map.mp hu
      exact OperandKind.isPlain_of_mem_text hcu
  obtain ⟨c, hmnemonic, hblank, hcomment, hdivider⟩ := head?_mnemonic o
  have hfirst : i.sourceLine.head? = some c := by
    rw [Instruction.sourceLine_of_opcode h, List.head?_append, hmnemonic, Option.some_or]
  have hne : i.sourceLine ≠ [] := by
    intro hnil
    rw [hnil] at hfirst
    cases hfirst
  refine ⟨Text.trim_eq_self ?_ fun d hd => (hlast d hd).1, ?_, ?_, ?_⟩
  · intro d hd
    rw [hfirst] at hd
    exact Option.some.inj hd ▸ hblank
  · exact Line.counts_iff.mpr ⟨hne, by simpa [hfirst] using hcomment⟩
  · intro he
    exact hdivider (he ▸ hfirst)
  · intro he
    exact (hlast labelEnd he).2 rfl

section Plain
variable {ts : List Text}

theorem map_text_of_plain (h : ∀ t ∈ ts, PlainLine t) : (Line.ofSource ts).map Line.text = ts := by
  have htrim : ts.map Text.trim = ts := by
    rw [List.map_congr_left fun t ht => (h t ht).trimmed, List.map_id']
  rw [map_text_ofSource, htrim, List.filter_eq_self]
  exact fun t ht => (h t ht).counts

theorem plain_of_mem (h : ∀ t ∈ ts, PlainLine t) {l : Line} (hl : l ∈ Line.ofSource ts) :
    PlainLine l.text := by
  refine h l.text ?_
  rw [← map_text_of_plain h]
  exact List.mem_map_of_mem hl

/-- Without a divider all is code. -/
theorem sections_of_plain (h : ∀ t ∈ ts, PlainLine t) :
    Sections.ofSource ts = ⟨Line.ofSource ts, []⟩ := by
  have hcode : ∀ l ∈ Line.ofSource ts, (!l.isDivider) = true := by
    intro l hl
    simpa [Line.isDivider] using (plain_of_mem h hl).notDivider
  simp [Sections.ofSource, Sections.ofLines, List.takeWhile_eq_self_iff.mpr hcode,
    List.dropWhile_eq_nil_iff.mpr hcode]

theorem label?_of_plain (h : ∀ t ∈ ts, PlainLine t) {l : Line} (hl : l ∈ Line.ofSource ts) :
    l.label? = none :=
  if_neg (plain_of_mem h hl).notLabel

/-- **Lines that can only be instructions** are translated one by one, and define nothing. -/
theorem ofSource_of_plain {p : Program} (h : ∀ t ∈ ts, PlainLine t)
    (hwords : List.Forall₂ (Translates []) ts p) : ofSource ts = ⟨[], .ok p⟩ := by
  have hinstructions : (⟨Line.ofSource ts, []⟩ : Sections).instructions = Line.ofSource ts := by
    rw [Sections.instructions_eq, List.filter_eq_self]
    exact fun l hl => decide_eq_true (plain_of_mem h hl).notLabel
  have hnames : labelNames (Line.ofSource ts) = [] :=
    List.filterMap_eq_nil_iff.mpr fun l hl => label?_of_plain h hl
  have hlabels : (⟨Line.ofSource ts, []⟩ : Sections).labels [] = [] := by
    have hnone := names_labels ⟨Line.ofSource ts, []⟩ []
    rw [hnames] at hnone
    exact List.map_eq_nil_iff.mp hnone
  rw [ofSource, sections_of_plain h, ofSections_eq_ok_iff]
  refine ⟨[], laid_nil_iff.mpr ⟨?_, rfl⟩, hlabels.symm, ?_⟩
  · rw [hnames]
    exact List.nodup_nil
  · rw [hlabels, hinstructions]
    rw [← map_text_of_plain h, List.forall₂_map_left_iff] at hwords
    exact hwords

end Plain

/-- **A program that is written as source is read back.** -/
theorem ofSource_sourceLines {p : Program} (h : ∀ w ∈ p, w.Canonical) :
    ofSource (p.map Word.sourceLine) = ⟨[], .ok p⟩ := by
  refine ofSource_of_plain ?_ ?_
  · intro t ht
    obtain ⟨w, hw, rfl⟩ := List.mem_map.mp ht
    obtain ⟨o, ho, -⟩ := (h w hw).wellFormed.known
    exact plainLine_sourceLine ho
  · rw [List.forall₂_map_left_iff, List.forall₂_same]
    exact fun w hw => translates_sourceLine (h w hw)

end Assembly

namespace Assembler

/-- **The canonical words are those that assembling gives**, whatever has been assembled before.  A
program of canonical words, written one line for each, is assembled to itself and defines no label;
and whatever a source says, all words that it is assembled to are canonical. -/
theorem assemble_listing (a : Assembler) :
    (∀ p : Program, (∀ w ∈ p, w.Canonical) →
      (a.assemble (p.map Word.sourceLine)).1 = .ok p ∧
        (a.assemble (p.map Word.sourceLine)).2.labels = []) ∧
      ∀ source p, (a.assemble source).1 = .ok p → ∀ w ∈ p, w.Canonical := by
  refine ⟨fun p h => ?_, fun source p h => Assembly.canonical_of_ofSource h⟩
  rw [assemble, Assembly.ofSource_sourceLines h]
  exact ⟨rfl, rfl⟩

/-- A program with an operation of each format is written and read back; a source with a label is
assembled to a canonical word, though the word is written differently. -/
theorem assemble_listing_of_formats :
    let a : Assembler := ⟨[("old".toList, 7)]⟩
    let p : Program := [0x00030A, 0x020104, 0xFF0202, 0x000001]
    let source := ["# for ever", "loop:", "hlt", "next:", "bne R01 @next"].map String.toList
    let q : Program := [0x000001, 0x010109]
    p.map Word.sourceLine = ["prr R3", "cpy R1 R2", "ldc R2 255", "hlt"].map String.toList ∧
      (a.assemble (p.map Word.sourceLine)).1 = .ok p ∧
      (a.assemble (p.map Word.sourceLine)).2.labels = [] ∧
      (a.assemble source).1 = .ok q ∧ ∀ w ∈ q, w.Canonical := by
  intro a p source q
  have hp : ∀ w ∈ p, w.Canonical := by
    have hall : (p.all fun w => decide w.Canonical) = true := by decide
    simpa using hall
  have hq : (a.assemble source).1 = .ok q := by decide
  obtain ⟨hround, himage⟩ := assemble_listing a
  exact ⟨by decide, (hround p hp).1, (hround p hp).2, hq, himage source q hq⟩

end Assembler

end RegisterMachine
