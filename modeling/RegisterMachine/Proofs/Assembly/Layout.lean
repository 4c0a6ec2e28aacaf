import Mathlib.Data.List.Induction
import Mathlib.Data.List.Nodup
import RegisterMachine.Proofs.Assembly.Grammar

/-! # Where labels stand

A label in the code stands at the number of instructions before it (`codeLabels`), one in the data
after the code and all that is allocated before it (`dataLabels`).  Both are read off the lines at
once; the assembler finds them line by line.

The two passes over labels are of one kind: they change a state at each line, and stop at the first
line at fault (`scan`).  So a pass that stops has gone through the lines before that one without
fault (`scan_eq_some_iff`), and what such lines have left in the table is their layout
(`addCode_eq_none_iff`, `addData_eq_none_iff`). -/

namespace RegisterMachine
namespace Assembly

/-! ## Passes -/

section Scan
variable {σ : Type} {step : σ → Line → Except Violation σ} {s t : σ} {ls before : List Line}
  {l : Line} {e : Error}

/-- Goes through lines, changing a state at each, up to the first that is at fault. -/
def scan (step : σ → Line → Except Violation σ) : σ → List Line → σ × Option Error
  | s, [] => (s, none)
  | s, l :: rest =>
    match step s l with
    | .error v => (s, some ⟨l, v⟩)
    | .ok next => scan step next rest

theorem scan_append_of_none (h : scan step s before = (t, none)) (rest : List Line) :
    scan step s (before ++ rest) = scan step t rest := by
  induction before generalizing s with
  | nil =>
    cases h
    rfl
  | cons b before ih =>
    simp only [scan] at h
    simp only [List.cons_append, scan]
    split at h
    · cases h
    · exact ih h

/-- **A pass stops at the first line at fault**, after lines without fault. -/
theorem scan_eq_some_iff :
    scan step s ls = (t, some e) ↔ ∃ before after, ls = before ++ e.line :: after ∧
      scan step s before = (t, none) ∧ step t e.line = .error e.violation := by
  constructor
  · intro h
    induction ls generalizing s with
    | nil => cases h
    | cons l rest ih =>
      simp only [scan] at h
      split at h
      · rename_i v hv
        cases h
        exact ⟨[], rest, rfl, rfl, hv⟩
      · rename_i next hnext
        obtain ⟨before, after, rfl, hbefore, hstep⟩ := ih h
        exact ⟨l :: before, after, rfl, by simp only [scan, hnext, hbefore], hstep⟩
  · rintro ⟨before, after, rfl, hbefore, hstep⟩
    rw [scan_append_of_none hbefore]
    simp only [scan, hstep]

/-- A pass over one more line. -/
theorem scan_concat_eq_none_iff :
    scan step s (ls ++ [l]) = (t, none) ↔ ∃ u, scan step s ls = (u, none) ∧ step u l = .ok t := by
  rcases hscan : scan step s ls with ⟨u, e⟩
  cases e with
  | none =>
    rw [scan_append_of_none hscan]
    simp only [scan, Prod.mk.injEq, and_true, exists_eq_left']
    split
    · rename_i v hv
      simp [hv]
    · rename_i next hnext
      simp [hnext]
  | some e =>
    obtain ⟨before, after, rfl, hbefore, hstep⟩ := scan_eq_some_iff.mp hscan
    have hsome : scan step s (before ++ e.line :: after ++ [l]) = (u, some e) :=
      scan_eq_some_iff.mpr ⟨before, after ++ [l], by simp, hbefore, hstep⟩
    rw [hsome]
    simp

end Scan

/-! ## Labels in the code -/

/-- The names that label definitions define, in order. -/
def labelNames (code : List Line) : List Text :=
  code.filterMap Line.label?

/-- **The labels of the code**: each names the number of instructions before it. -/
def codeLabels (code : List Line) : LabelTable :=
  code.zipIdx.filterMap fun x =>
    x.1.label?.map fun name => (name, (code.take x.2).countP Line.isInstruction)

theorem labelNames_concat (code : List Line) (l : Line) :
    labelNames (code ++ [l]) = labelNames code ++ l.label?.toList := by
  cases h : l.label? <;> simp [labelNames, h]

theorem codeLabels_concat (code : List Line) (l : Line) :
    codeLabels (code ++ [l]) =
      codeLabels code ++
        (l.label?.map fun name => (name, code.countP Line.isInstruction)).toList := by
  have hfront : ∀ x ∈ code.zipIdx, (code ++ [l]).take x.2 = code.take x.2 := by
    intro x hx
    exact List.take_append_of_le_length (Nat.le_of_lt (List.snd_lt_of_mem_zipIdx hx))
  unfold codeLabels
  rw [List.zipIdx_append, List.filterMap_append]
  congr 1
  · refine List.filterMap_congr fun x hx => ?_
    rw [hfront x hx]
  · cases h : l.label? <;> simp [h]

theorem names_codeLabels (code : List Line) : (codeLabels code).names = labelNames code := by
  induction code using List.reverseRecOn with
  | nil => rfl
  | append_singleton code l ih =>
    rw [codeLabels_concat, labelNames_concat, ← ih]
    cases l.label? <;> simp [LabelTable.names]

/-- One line of the code: a label is defined, an instruction takes up an address. -/
def codeStep (st : LabelTable × Nat) (l : Line) : Except Violation (LabelTable × Nat) :=
  match l.label? with
  | none => .ok (st.1, st.2 + 1)
  | some name =>
    if st.1.defines name then .error (.duplicateLabel name) else .ok (st.1.define name st.2, st.2)

theorem addCode_of_scan {table : LabelTable} {next : Nat} {ls : List Line}
    {st : LabelTable × Nat} {e : Option Error} (h : scan codeStep (table, next) ls = (st, e)) :
    LabelTable.addCode table next ls = (st.1, e) := by
  induction ls generalizing table next with
  | nil =>
    cases h
    rfl
  | cons l rest ih =>
    simp only [scan, codeStep] at h
    cases hl : l.label? with
    | none =>
      simp only [hl] at h
      simp only [LabelTable.addCode, hl]
      exact ih h
    | some name =>
      simp only [hl] at h
      simp only [LabelTable.addCode, hl]
      cases hd : table.defines name with
      | true =>
        simp only [hd, if_true] at h ⊢
        cases h
        rfl
      | false =>
        simp only [hd, Bool.false_eq_true, if_false] at h ⊢
        exact ih h

/-- What is known after lines of the code: their labels, and how many instructions there are. -/
def codeState (code : List Line) : LabelTable × Nat :=
  (codeLabels code, code.countP Line.isInstruction)

theorem codeStep_eq_ok_iff {code : List Line} {l : Line} {t : LabelTable × Nat} :
    codeStep (codeState code) l = .ok t ↔
      (∀ name ∈ l.label?, name ∉ labelNames code) ∧ t = codeState (code ++ [l]) := by
  unfold codeStep codeState
  rw [codeLabels_concat]
  cases hl : l.label? with
  | none => simp [List.countP_append, Line.isInstruction, hl, eq_comm]
  | some name =>
    have hdefines : (codeLabels code).defines name = true ↔ name ∈ labelNames code := by
      rw [LabelTable.defines_iff, names_codeLabels]
    by_cases hmem : name ∈ labelNames code
    · simp [hdefines.mpr hmem, hmem]
    · have hnew : (codeLabels code).defines name = false :=
        Bool.eq_false_iff.mpr (mt hdefines.mp hmem)
      simp [hnew, hmem, List.countP_append, Line.isInstruction, hl, LabelTable.define, eq_comm]

theorem codeStep_eq_error_iff {code : List Line} {l : Line} {v : Violation} :
    codeStep (codeState code) l = .error v ↔
      ∃ name, l.label? = some name ∧ name ∈ labelNames code ∧ v = .duplicateLabel name := by
  unfold codeStep codeState
  cases hl : l.label? with
  | none => simp
  | some name =>
    simp only [← names_codeLabels, ← LabelTable.defines_iff, Option.some.injEq, exists_eq_left']
    cases hd : (codeLabels code).defines name with
    | true => simp only [if_true, Except.error.injEq, true_and, eq_comm]
    | false => simp

/-- **A pass over the code without fault** has found no name twice, and the labels where they
stand. -/
theorem scan_codeStep_eq_none_iff {code : List Line} {t : LabelTable × Nat} :
    scan codeStep ([], 0) code = (t, none) ↔ (labelNames code).Nodup ∧ t = codeState code := by
  induction code using List.reverseRecOn generalizing t with
  | nil => simp [scan, labelNames, codeState, codeLabels, eq_comm]
  | append_singleton code l ih =>
    have hnodup : (labelNames (code ++ [l])).Nodup ↔
        (labelNames code).Nodup ∧ ∀ name ∈ l.label?, name ∉ labelNames code := by
      rw [labelNames_concat]
      cases l.label? with
      | none => simp
      | some name =>
        rw [Option.toList_some, ← List.concat_eq_append, List.nodup_concat, and_comm]
        simp
    simp only [scan_concat_eq_none_iff, ih, hnodup]
    constructor
    · rintro ⟨u, ⟨hcode, rfl⟩, hstep⟩
      obtain ⟨hnew, rfl⟩ := codeStep_eq_ok_iff.mp hstep
      exact ⟨⟨hcode, hnew⟩, rfl⟩
    · rintro ⟨⟨hcode, hnew⟩, rfl⟩
      exact ⟨_, ⟨hcode, rfl⟩, codeStep_eq_ok_iff.mpr ⟨hnew, rfl⟩⟩

theorem addCode_eq_none_iff {code : List Line} {table : LabelTable} :
    LabelTable.addCode [] 0 code = (table, none) ↔
      (labelNames code).Nodup ∧ table = codeLabels code := by
  constructor
  · intro h
    rcases hscan : scan codeStep ([], 0) code with ⟨st, e⟩
    rw [addCode_of_scan hscan] at h
    cases h
    obtain ⟨hcode, rfl⟩ := scan_codeStep_eq_none_iff.mp hscan
    exact ⟨hcode, rfl⟩
  · rintro ⟨hcode, rfl⟩
    exact addCode_of_scan (scan_codeStep_eq_none_iff.mpr ⟨hcode, rfl⟩)

/-- **The first label that is defined twice** stops the pass over the code. -/
theorem addCode_eq_some_iff {code : List Line} {table : LabelTable} {e : Error} :
    LabelTable.addCode [] 0 code = (table, some e) ↔
      ∃ before after name, code = before ++ e.line :: after ∧ e.line.label? = some name ∧
        (labelNames before).Nodup ∧ name ∈ labelNames before ∧ table = codeLabels before ∧
        e.violation = .duplicateLabel name := by
  constructor
  · intro h
    rcases hscan : scan codeStep ([], 0) code with ⟨st, stopped⟩
    rw [addCode_of_scan hscan] at h
    cases h
    obtain ⟨before, after, hsplit, hbefore, hstep⟩ := scan_eq_some_iff.mp hscan
    obtain ⟨hnodup, rfl⟩ := scan_codeStep_eq_none_iff.mp hbefore
    obtain ⟨name, hname, hmem, hv⟩ := codeStep_eq_error_iff.mp hstep
    exact ⟨before, after, name, hsplit, hname, hnodup, hmem, rfl, hv⟩
  · rintro ⟨before, after, name, hsplit, hname, hnodup, hmem, rfl, hv⟩
    exact addCode_of_scan (scan_eq_some_iff.mpr ⟨before, after, hsplit,
      scan_codeStep_eq_none_iff.mpr ⟨hnodup, rfl⟩,
      codeStep_eq_error_iff.mpr ⟨name, hname, hmem, hv⟩⟩)

/-! ## Labels in the data -/

/-- How many words are set aside in all. -/
def totalCount (as : List Allocation) : Nat :=
  as.foldl (fun total a => total + a.count) 0

/-- **The labels of the data**: each names the first word after all that is set aside before it. -/
def dataLabels (base : Nat) (as : List Allocation) : LabelTable :=
  as.zipIdx.map fun x => (x.1.name, base + totalCount (as.take x.2))

theorem totalCount_concat (as : List Allocation) (a : Allocation) :
    totalCount (as ++ [a]) = totalCount as + a.count := by
  simp [totalCount]

theorem dataLabels_concat (base : Nat) (as : List Allocation) (a : Allocation) :
    dataLabels base (as ++ [a]) = (dataLabels base as).define a.name (base + totalCount as) := by
  have hfront : ∀ x ∈ as.zipIdx, (as ++ [a]).take x.2 = as.take x.2 := by
    intro x hx
    exact List.take_append_of_le_length (Nat.le_of_lt (List.snd_lt_of_mem_zipIdx hx))
  unfold dataLabels LabelTable.define
  rw [List.zipIdx_append, List.map_append]
  congr 1
  · refine List.map_congr_left fun x hx => ?_
    rw [hfront x hx]
  · simp

theorem names_dataLabels (base : Nat) (as : List Allocation) :
    (dataLabels base as).names = as.map Allocation.name := by
  induction as using List.reverseRecOn with
  | nil => rfl
  | append_singleton as a ih => rw [dataLabels_concat, LabelTable.names_define, ih, List.map_append,
      List.map_singleton]

theorem forall₂_concat_left_iff {α β : Type} {R : α → β → Prop} {xs : List α} {x : α}
    {ys : List β} :
    List.Forall₂ R (xs ++ [x]) ys ↔ ∃ zs y, List.Forall₂ R xs zs ∧ R x y ∧ ys = zs ++ [y] := by
  constructor
  · intro h
    have hreverse := List.forall₂_reverse_iff.mpr h
    rw [List.reverse_append, List.reverse_singleton, List.singleton_append,
      List.forall₂_cons_left_iff] at hreverse
    obtain ⟨y, zs, hy, hzs, hys⟩ := hreverse
    refine ⟨zs.reverse, y, ?_, hy, ?_⟩
    · simpa using List.forall₂_reverse_iff.mpr hzs
    · rw [← List.reverse_reverse ys, hys, List.reverse_cons]
  · rintro ⟨zs, y, hzs, hy, rfl⟩
    exact List.rel_append hzs (.cons hy .nil)

/-- **Data lines that are in order**: each asks for an allocation, no name is given twice or known
already, and all allocations up to each line fit in memory. -/
structure Laid (known : List Text) (base : Nat) (ls : List Line) (as : List Allocation) : Prop where
  allocates : List.Forall₂ (fun l a => Allocates l.text a) ls as
  distinct : (known ++ as.map Allocation.name).Nodup
  fits : ∀ k < as.length, base + totalCount (as.take (k + 1)) ≤ memorySize

/-- **What can be wrong with a data line** after others that are in order. -/
inductive Misallocates (known : List Text) (base : Nat) (as : List Allocation) (t : Text) :
    Violation → Prop
  /-- It asks for no allocation. -/
  | malformed (h : ∀ a, ¬ Allocates t a) : Misallocates known base as t .malformedAllocation
  /-- Its name is defined already. -/
  | duplicate {a : Allocation} (h : Allocates t a)
      (hname : a.name ∈ known ++ as.map Allocation.name) :
      Misallocates known base as t (.duplicateLabel a.name)
  /-- It asks for more than is left. -/
  | outOfMemory {a : Allocation} (h : Allocates t a)
      (hname : a.name ∉ known ++ as.map Allocation.name)
      (hfull : memorySize < base + totalCount as + a.count) :
      Misallocates known base as t (.outOfMemory a.name (base + totalCount as) a.count)

section Data
variable {known : List Text} {table : LabelTable} {base : Nat} {ls : List Line} {l : Line}
  {as : List Allocation} {a : Allocation} {v : Violation} {t : LabelTable × Nat}

theorem laid_nil_iff : Laid known base [] as ↔ known.Nodup ∧ as = [] := by
  constructor
  · rintro ⟨hallocates, hdistinct, -⟩
    obtain rfl := List.forall₂_nil_left_iff.mp hallocates
    exact ⟨by simpa using hdistinct, rfl⟩
  · rintro ⟨hknown, rfl⟩
    exact ⟨.nil, by simpa using hknown, by simp⟩

/-- One more line is in order if it asks for an allocation with a new name that fits. -/
theorem laid_concat_iff {bs : List Allocation} :
    Laid known base (ls ++ [l]) bs ↔ ∃ as a, bs = as ++ [a] ∧ Laid known base ls as ∧
      Allocates l.text a ∧ a.name ∉ known ++ as.map Allocation.name ∧
      base + totalCount as + a.count ≤ memorySize := by
  constructor
  · rintro ⟨hallocates, hdistinct, hfits⟩
    obtain ⟨as, a, has, ha, rfl⟩ := forall₂_concat_left_iff.mp hallocates
    rw [List.map_append, ← List.append_assoc, List.map_singleton, ← List.concat_eq_append,
      List.nodup_concat] at hdistinct
    refine ⟨as, a, rfl, ⟨has, hdistinct.2, ?_⟩, ha, hdistinct.1, ?_⟩
    · intro k hk
      have hfit := hfits k (by rw [List.length_append]; omega)
      rwa [List.take_append_of_le_length hk] at hfit
    · have hfit := hfits as.length (by simp)
      rwa [List.take_of_length_le (by simp), totalCount_concat, ← Nat.add_assoc] at hfit
  · rintro ⟨as, a, rfl, ⟨hallocates, hdistinct, hfits⟩, ha, hname, hfit⟩
    refine ⟨List.rel_append hallocates (.cons ha .nil), ?_, ?_⟩
    · rw [List.map_append, ← List.append_assoc, List.map_singleton, ← List.concat_eq_append,
        List.nodup_concat]
      exact ⟨hname, hdistinct⟩
    · intro k hk
      rcases Nat.lt_or_ge k as.length with hlt | hge
      · rw [List.take_append_of_le_length hlt]
        exact hfits k hlt
      · rw [List.take_of_length_le (by simp; omega), totalCount_concat, ← Nat.add_assoc]
        exact hfit

/-- One line of the data: its label is defined, and its words are set aside. -/
def dataStep (st : LabelTable × Nat) (l : Line) : Except Violation (LabelTable × Nat) :=
  match l.allocation? with
  | none => .error .malformedAllocation
  | some a =>
    if st.1.defines a.name then .error (.duplicateLabel a.name)
    else if st.2 + a.count > memorySize then .error (.outOfMemory a.name st.2 a.count)
    else .ok (st.1.define a.name st.2, st.2 + a.count)

theorem addData_of_scan {e : Option Error} (h : scan dataStep (table, base) ls = (t, e)) :
    table.addData base ls = (t.1, e) := by
  induction ls generalizing table base with
  | nil =>
    cases h
    rfl
  | cons l rest ih =>
    simp only [scan, dataStep] at h
    simp only [LabelTable.addData]
    cases hl : l.allocation? with
    | none =>
      simp only [hl] at h ⊢
      cases h
      rfl
    | some a =>
      simp only [hl] at h ⊢
      split
      · rename_i hd
        simp only [hd, if_true] at h
        cases h
        rfl
      · rename_i hd
        split
        · rename_i hfull
          simp only [hd, Bool.false_eq_true, if_false, hfull, if_true] at h
          cases h
          rfl
        · rename_i hfits
          simp only [hd, Bool.false_eq_true, if_false, hfits] at h
          exact ih h

/-- What is known after data lines that are in order. -/
def dataState (table : LabelTable) (base : Nat) (as : List Allocation) : LabelTable × Nat :=
  (table ++ dataLabels base as, base + totalCount as)

theorem defines_dataState {name : Text} :
    (dataState table base as).1.defines name = true ↔
      name ∈ table.names ++ as.map Allocation.name := by
  rw [LabelTable.defines_iff, ← names_dataLabels base as]
  simp [dataState, LabelTable.names]

theorem dataState_concat :
    dataState table base (as ++ [a]) =
      ((dataState table base as).1.define a.name (base + totalCount as),
        base + totalCount as + a.count) := by
  simp [dataState, dataLabels_concat, totalCount_concat, LabelTable.define, Nat.add_assoc]

theorem dataStep_eq_ok_iff :
    dataStep (dataState table base as) l = .ok t ↔ ∃ a, Allocates l.text a ∧
      a.name ∉ table.names ++ as.map Allocation.name ∧
      base + totalCount as + a.count ≤ memorySize ∧ t = dataState table base (as ++ [a]) := by
  constructor
  · intro h
    unfold dataStep at h
    split at h
    · cases h
    · rename_i a ha
      split at h
      · cases h
      · rename_i hname
        split at h
        · cases h
        · rename_i hfits
          cases h
          exact ⟨a, Line.allocation?_eq_some_iff.mp ha, mt defines_dataState.mpr hname,
            Nat.le_of_not_lt hfits, dataState_concat.symm⟩
  · rintro ⟨a, ha, hname, hfits, rfl⟩
    have hnew : ¬ (dataState table base as).1.defines a.name = true :=
      mt defines_dataState.mp hname
    have hnotfull : ¬ (dataState table base as).2 + a.count > memorySize := Nat.not_lt.mpr hfits
    simp only [dataStep, Line.allocation?_eq_some_iff.mpr ha, hnew, Bool.false_eq_true, if_false,
      hnotfull, dataState_concat]
    rfl

theorem dataStep_eq_error_iff :
    dataStep (dataState table base as) l = .error v ↔
      Misallocates table.names base as l.text v := by
  constructor
  · intro h
    unfold dataStep at h
    split at h
    · rename_i hnone
      cases h
      refine .malformed fun a ha => ?_
      rw [Line.allocation?_eq_some_iff.mpr ha] at hnone
      cases hnone
    · rename_i a ha
      have hallocates := Line.allocation?_eq_some_iff.mp ha
      split at h
      · rename_i hname
        cases h
        exact .duplicate hallocates (defines_dataState.mp hname)
      · rename_i hname
        split at h
        · rename_i hfull
          cases h
          exact .outOfMemory hallocates (mt defines_dataState.mpr hname) hfull
        · cases h
  · intro h
    cases h with
    | malformed h =>
      have hnone : l.allocation? = none :=
        Option.eq_none_iff_forall_ne_some.mpr fun a ha => h a (Line.allocation?_eq_some_iff.mp ha)
      simp only [dataStep, hnone]
    | duplicate ha hname =>
      simp only [dataStep, Line.allocation?_eq_some_iff.mpr ha, defines_dataState.mpr hname,
        if_true]
    | @outOfMemory a ha hname hfull =>
      have hnew : ¬ (dataState table base as).1.defines a.name = true :=
        mt defines_dataState.mp hname
      have hover : (dataState table base as).2 + a.count > memorySize := hfull
      simp only [dataStep, Line.allocation?_eq_some_iff.mpr ha, hnew, Bool.false_eq_true, if_false,
        hover, if_true]
      rfl

/-- **A pass over the data without fault** has found lines that are in order, and the labels where
they stand. -/
theorem scan_dataStep_eq_none_iff (hd : table.names.Nodup) :
    scan dataStep (table, base) ls = (t, none) ↔
      ∃ as, Laid table.names base ls as ∧ t = dataState table base as := by
  induction ls using List.reverseRecOn generalizing t with
  | nil => simp [scan, laid_nil_iff, hd, dataState, dataLabels, totalCount, eq_comm]
  | append_singleton ls l ih =>
    simp only [scan_concat_eq_none_iff, ih, laid_concat_iff]
    constructor
    · rintro ⟨u, ⟨as, has, rfl⟩, hstep⟩
      obtain ⟨a, ha, hname, hfits, rfl⟩ := dataStep_eq_ok_iff.mp hstep
      exact ⟨as ++ [a], ⟨as, a, rfl, has, ha, hname, hfits⟩, rfl⟩
    · rintro ⟨bs, ⟨as, a, rfl, has, ha, hname, hfits⟩, rfl⟩
      exact ⟨_, ⟨as, has, rfl⟩, dataStep_eq_ok_iff.mpr ⟨a, ha, hname, hfits, rfl⟩⟩

theorem addData_eq_none_iff (hd : table.names.Nodup) {found : LabelTable} :
    table.addData base ls = (found, none) ↔
      ∃ as, Laid table.names base ls as ∧ found = table ++ dataLabels base as := by
  constructor
  · intro h
    rcases hscan : scan dataStep (table, base) ls with ⟨st, e⟩
    rw [addData_of_scan hscan] at h
    cases h
    obtain ⟨as, has, rfl⟩ := (scan_dataStep_eq_none_iff hd).mp hscan
    exact ⟨as, has, rfl⟩
  · rintro ⟨as, has, rfl⟩
    exact addData_of_scan ((scan_dataStep_eq_none_iff hd).mpr ⟨as, has, rfl⟩)

/-- **The first data line that is at fault** stops the pass over the data. -/
theorem addData_eq_some_iff (hd : table.names.Nodup) {found : LabelTable} {e : Error} :
    table.addData base ls = (found, some e) ↔
      ∃ before after as, ls = before ++ e.line :: after ∧ Laid table.names base before as ∧
        Misallocates table.names base as e.line.text e.violation ∧
        found = table ++ dataLabels base as := by
  constructor
  · intro h
    rcases hscan : scan dataStep (table, base) ls with ⟨st, stopped⟩
    rw [addData_of_scan hscan] at h
    cases h
    obtain ⟨before, after, hsplit, hbefore, hstep⟩ := scan_eq_some_iff.mp hscan
    obtain ⟨as, has, rfl⟩ := (scan_dataStep_eq_none_iff hd).mp hbefore
    exact ⟨before, after, as, hsplit, has, dataStep_eq_error_iff.mp hstep, rfl⟩
  · rintro ⟨before, after, as, hsplit, has, hv, rfl⟩
    exact addData_of_scan (scan_eq_some_iff.mpr ⟨before, after, hsplit,
      (scan_dataStep_eq_none_iff hd).mpr ⟨as, has, rfl⟩, dataStep_eq_error_iff.mpr hv⟩)

end Data

end Assembly
end RegisterMachine
