import RegisterMachine.Proofs.Assembly.Outcome

/-! # Names that differ by blanks

A data line gives its label the name it writes, without the blanks around it.  A label of the code
gets all that stands before the end mark, so a blank before the mark is part of the name.  Such a
label is *spaced*: it may be defined beside another of the same name without the blank, and no
reference means it, since an operand is a word (`Text.isWord_of_mem_words`).

These are the only labels that go wrong.  All others have different names once they are trimmed, and
a reference to such a name means the label (`assemble_names`). -/

namespace RegisterMachine

namespace Text

/-- A text with nothing to trim does not start with a blank. -/
theorem trimStart_of_trim {t : Text} (h : trim t = t) : trimStart t = t := by
  have hsuffix : trimStart t <:+ t := List.dropWhile_suffix isBlank
  have hfront : trim t <+: trimStart t := List.rdropWhile_prefix isBlank (trimStart t)
  refine hsuffix.eq_of_length_le ?_
  rw [h] at hfront
  exact hfront.length_le

theorem trimStart_of_append {t u : Text} (h : trimStart (t ++ u) = t ++ u) : trimStart t = t := by
  rw [trimStart, List.dropWhile_append] at h
  split at h
  · -- all of `t` is dropped, so there is nothing of it
    have hlength := congrArg List.length h
    have hle := (List.dropWhile_suffix isBlank (l := u)).length_le
    rw [List.length_append] at hlength
    obtain rfl : t = [] := List.eq_nil_of_length_eq_zero (by omega)
    rfl
  · exact List.append_cancel_right h

/-- **A text that starts with no blank** has something to trim just when it ends with one. -/
theorem trim_eq_self_iff {t : Text} (h : trimStart t = t) :
    trim t = t ↔ ∀ front c, t = front ++ [c] → isBlank c = false := by
  constructor
  · rintro htrim front c rfl
    by_contra hblank
    have hc : isBlank c = true := by simpa using hblank
    have hend : trimEnd (front ++ [c]) = trimEnd front := by simp [trimEnd, hc]
    have hle : (trimEnd front).length ≤ front.length :=
      (List.rdropWhile_prefix isBlank front).length_le
    have hlength := congrArg List.length htrim
    rw [trim, h, hend, List.length_append, List.length_singleton] at hlength
    omega
  · intro hlast
    rw [trim, h]
    rcases List.eq_nil_or_concat t with rfl | ⟨front, c, rfl⟩
    · rfl
    · have hc := hlast front c List.concat_eq_append
      simp [trimEnd, hc]

end Text

namespace Assembly

/-- A line with a blank before its end mark. -/
def Line.Spaced (l : Line) : Prop :=
  ∃ front c, l.text = front ++ [c, labelEnd] ∧ Text.isBlank c = true

/-- **A reference to a label by its trimmed name** means the label: the table has its address for
that name, and an operand of that name stands for it if it fits. -/
structure LabelTable.Resolves (table : LabelTable) (x : Text × Nat) : Prop where
  address : table.address? (Text.trim x.1) = some x.2
  operand : x.2 < UInt8.size →
    value table (labelMark :: Text.trim x.1) = .ok (UInt8.ofNat x.2)

section Names
variable {table : LabelTable} {x : Text × Nat}

theorem LabelTable.resolves_of_mem (hd : table.names.Nodup) (hx : x ∈ table)
    (htrim : Text.trim x.1 = x.1) : table.Resolves x := by
  have haddress : table.address? x.1 = some x.2 := (address?_eq_some_iff hd).mpr hx
  refine ⟨htrim.symm ▸ haddress, fun hlt => ?_⟩
  rw [htrim, value_labelMark]
  simp only [labelValue, haddress, hlt, if_true]

/-- Different names that are the same once they are trimmed have not both been trimmed. -/
theorem LabelTable.pairwise_trim (hd : table.names.Nodup) :
    table.Pairwise fun x y => Text.trim x.1 = Text.trim y.1 →
      Text.trim x.1 ≠ x.1 ∨ Text.trim y.1 ≠ y.1 := by
  refine (List.pairwise_map.mp hd).imp fun {x y} hne hxy => ?_
  by_contra hboth
  obtain ⟨hx, hy⟩ := not_or.mp hboth
  exact hne ((not_not.mp hx).symm.trans (hxy.trans (not_not.mp hy)))

/-- A line of a source has nothing to trim. -/
theorem trim_text {source : List Text} {l : Line} (h : l ∈ Line.ofSource source) :
    Text.trim l.text = l.text := by
  obtain ⟨-, -, htext, -⟩ := mem_ofSource h
  obtain ⟨given, -, hgiven⟩ := Option.map_eq_some_iff.mp htext
  rw [← hgiven, Text.trim_trim]

/-- **The name of a label in the code** is trimmed unless its line is spaced. -/
theorem trim_name_iff {source : List Text} {l : Line} {name : Text}
    (h : l ∈ Line.ofSource source) (hname : l.label? = some name) :
    Text.trim name = name ↔ ¬ l.Spaced := by
  have htext : l.text = name ++ [labelEnd] := Line.label?_eq_some_iff.mp hname
  have hstart : Text.trimStart name = name := by
    refine Text.trimStart_of_append (u := [labelEnd]) ?_
    rw [← htext]
    exact Text.trimStart_of_trim (trim_text h)
  have hspaced : l.Spaced ↔ ∃ front c, name = front ++ [c] ∧ Text.isBlank c = true := by
    simp only [Line.Spaced, htext]
    constructor
    · rintro ⟨front, c, heq, hc⟩
      exact ⟨front, c, List.append_cancel_right (heq.trans (List.append_cons _ _ _)), hc⟩
    · rintro ⟨front, c, rfl, hc⟩
      exact ⟨front, c, by simp, hc⟩
  rw [Text.trim_eq_self_iff hstart, hspaced]
  simp

theorem Allocates.trim_name {t : Text} {a : Allocation} (h : Allocates t a) :
    Text.trim a.name = a.name := by
  obtain ⟨left, right, -, -, -, hname, -⟩ := h.divided
  rw [← hname, Text.trim_trim]

/-- The name of a label in the data is trimmed. -/
theorem trim_name_of_mem_dataLabels {ls : List Line} {as : List Allocation} {base : Nat}
    (h : List.Forall₂ (fun l a => Allocates l.text a) ls as) (hx : x ∈ dataLabels base as) :
    Text.trim x.1 = x.1 := by
  have htrim : ∀ a ∈ as, Text.trim a.name = a.name := by
    clear hx
    induction h with
    | nil => simp
    | cons hl _ ih => exact List.forall_mem_cons.mpr ⟨hl.trim_name, ih⟩
  have hname : x.1 ∈ as.map Allocation.name := by
    rw [← names_dataLabels base]
    exact List.mem_map_of_mem hx
  obtain ⟨a, ha, hax⟩ := List.mem_map.mp hname
  rw [← hax]
  exact htrim a ha

/-- **A name that is not trimmed** is that of a spaced line of the code. -/
theorem spaced_of_mem_labels {source : List Text} {as : List Allocation}
    (has : (Sections.ofSource source).Lays (Sections.ofSource source).data as)
    (hx : x ∈ (Sections.ofSource source).labels as) (hblank : Text.trim x.1 ≠ x.1) :
    ∃ l ∈ (Sections.ofSource source).code, l.label? = some x.1 ∧ l.Spaced := by
  rcases List.mem_append.mp hx with hcode | hdata
  · have hname : x.1 ∈ labelNames (Sections.ofSource source).code := by
      rw [← names_codeLabels]
      exact List.mem_map_of_mem hcode
    obtain ⟨l, hl, hlabel⟩ := List.mem_filterMap.mp hname
    refine ⟨l, hl, hlabel, ?_⟩
    by_contra htight
    exact hblank ((trim_name_iff (mem_ofSource_of_code hl) hlabel).mpr htight)
  · exact absurd (trim_name_of_mem_dataLabels has.allocates hdata) hblank

/-- **No reference means a spaced label**: an operand would have to hold its blank. -/
theorem labelMark_notMem_words {name : Text} (h : Text.trim name ≠ name) (t : Text) :
    labelMark :: name ∉ Text.words t := by
  intro hmem
  refine h (Text.trim_of_forall_not_blank fun c hc => ?_)
  exact (Text.isWord_of_mem_words hmem).unbroken c (List.mem_cons_of_mem _ hc)

end Names

end Assembly

namespace Assembler
open Assembly

/-- **How the labels of an accepted source are named**, whatever has been assembled before.  Labels
whose names are the same but for the blanks around them include one in the code with a blank before
its end mark, which no reference means; a reference to any other label by its name means that label.
So where no such blank is written, all names are different once they are trimmed, and every label
can be referred to. -/
theorem assemble_names {a : Assembler} {source : List Text} {p : Program}
    (h : (a.assemble source).1 = .ok p) :
    let s := Sections.ofSource source
    let labels := (a.assemble source).2.labels
    ∃ as, List.Forall₂ (fun l b => Allocates l.text b) s.data as ∧
      labels = codeLabels s.code ++ dataLabels p.length as ∧
      (labels.Pairwise fun x y => Text.trim x.1 = Text.trim y.1 →
        Text.trim x.1 ≠ x.1 ∨ Text.trim y.1 ≠ y.1) ∧
      (∀ x ∈ labels, Text.trim x.1 = x.1 → labels.Resolves x) ∧
      (∀ x ∈ labels, Text.trim x.1 ≠ x.1 →
        (∃ l ∈ s.code, l.label? = some x.1 ∧ l.Spaced) ∧ ∀ t, labelMark :: x.1 ∉ Text.words t) ∧
      ((∀ l ∈ s.code, ¬ l.Spaced) →
        (labels.names.map Text.trim).Nodup ∧ ∀ x ∈ labels, labels.Resolves x) := by
  intro s labels
  obtain ⟨as, has, hfound, hwords⟩ := ofSections_eq_ok_iff.mp (assemble_eq_iff.mpr ⟨h, rfl⟩)
  have hlabels : labels = s.labels as := hfound
  have hnodup : labels.names.Nodup := by
    rw [hlabels]
    exact has.nodup_names
  have hspaced : ∀ x ∈ labels, Text.trim x.1 ≠ x.1 →
      ∃ l ∈ s.code, l.label? = some x.1 ∧ l.Spaced := by
    intro x hx
    exact spaced_of_mem_labels has (hlabels ▸ hx)
  refine ⟨as, has.allocates, ?_, LabelTable.pairwise_trim hnodup,
    fun x hx => LabelTable.resolves_of_mem hnodup hx,
    fun x hx hblank => ⟨hspaced x hx hblank, labelMark_notMem_words hblank⟩, fun htight => ?_⟩
  · rw [← hwords.length_eq]
    exact hlabels
  · have htrim : ∀ x ∈ labels, Text.trim x.1 = x.1 := by
      intro x hx
      by_contra hblank
      obtain ⟨l, hl, -, hspace⟩ := hspaced x hx hblank
      exact htight l hl hspace
    have hmap : labels.names.map Text.trim = labels.names := by
      rw [LabelTable.names, List.map_map]
      exact List.map_congr_left htrim
    rw [hmap]
    exact ⟨hnodup, fun x hx => LabelTable.resolves_of_mem hnodup hx (htrim x hx)⟩

/-- A name is given in the code, with a blank before the end mark, and again in the data: a
reference to it finds the label in the data. -/
theorem assemble_names_of_two_spellings :
    let a : Assembler := {}
    let source := ["a :", "ldc R0 @a", "b:", "hlt", ".data", "a : 1"].map String.toList
    let labels := (a.assemble source).2.labels
    (a.assemble source).1 = .ok [0x020002, 0x000001] ∧
      labels.Resolves ("b".toList, 1) ∧ labels.Resolves ("a".toList, 2) ∧
      ∃ l ∈ (Sections.ofSource source).code, l.label? = some "a ".toList ∧ l.Spaced := by
  intro a source labels
  have h : (a.assemble source).1 = .ok [0x020002, 0x000001] := by decide
  obtain ⟨as, -, -, -, hresolves, hspaced, -⟩ := assemble_names h
  exact ⟨h, hresolves _ (by decide) (by decide), hresolves _ (by decide) (by decide),
    (hspaced ("a ".toList, 0) (by decide) (by decide)).1⟩

/-- **A blank before the end mark hides a label**: a source that defines the same name twice, once
with that blank, is accepted, and a source that defines it so knows no label of that name. -/
theorem blank_hides_label :
    let twice := ["a :", "hlt", ".data", "a: 1"].map String.toList
    let once := ["a :", "hlt"].map String.toList
    let a : Assembler := {}
    (a.assemble twice).1 = .ok [0x000001] ∧
      ¬ ((a.assemble twice).2.labels.names.map Text.trim).Nodup ∧
      (a.assemble once).1 = .ok [0x000001] ∧
      (a.assemble once).2.labels.address? "a".toList = none := by
  decide

end Assembler
end RegisterMachine
