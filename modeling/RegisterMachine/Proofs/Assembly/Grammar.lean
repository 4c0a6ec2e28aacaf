import RegisterMachine.Assembly.Assemble
import RegisterMachine.Proofs.Machine.Effect
import RegisterMachine.Proofs.Text.Numeral

/-! # What the lines of a source say

The grammar of the source language, said without the functions that read it: what a data directive
allocates (`Allocates`), what an operand denotes (`Denotes`) and what can be wrong with it
(`Misfits`), what an instruction line spells (`Spells`) and how it can be misspelt (`Misspells`).
Reading agrees with it in both directions, so that a line is refused for the reason that the grammar
gives and for no other.

Wherever several things are read in turn, the first failure is the result
(`mapM_eq_error_iff`). -/

namespace RegisterMachine

/-! ## Computations in turn -/

section InTurn
variable {ε α β : Type} {f : α → Except ε β} {xs : List α}

theorem map_eq_ok_iff {x : Except ε α} {g : α → β} {b : β} :
    x.map g = .ok b ↔ ∃ a, x = .ok a ∧ g a = b := by
  cases x <;> simp [Except.map]

theorem map_eq_error_iff {x : Except ε α} {g : α → β} {e : ε} :
    x.map g = .error e ↔ x = .error e := by
  cases x <;> simp [Except.map]

theorem mapM_eq_ok_iff {ys : List β} :
    xs.mapM f = .ok ys ↔ List.Forall₂ (fun x y => f x = .ok y) xs ys := by
  induction xs generalizing ys with
  | nil => simp [pure, Except.pure, eq_comm]
  | cons x xs ih =>
    simp only [List.mapM_cons, bind_eq_ok_iff, ih, List.forall₂_cons_left_iff]
    constructor
    · rintro ⟨y, hy, rest, hrest, hcons⟩
      exact ⟨y, rest, hy, hrest, (Except.ok.inj hcons).symm⟩
    · rintro ⟨y, rest, hy, hrest, rfl⟩
      exact ⟨y, hy, rest, hrest, rfl⟩

/-- **The first failure counts**: everything before it has succeeded, and what comes after it does
not matter. -/
theorem mapM_eq_error_iff {e : ε} :
    xs.mapM f = .error e ↔ ∃ before x after, xs = before ++ x :: after ∧
      (∀ b ∈ before, ∃ y, f b = .ok y) ∧ f x = .error e := by
  induction xs with
  | nil => simp [pure, Except.pure]
  | cons x xs ih =>
    simp only [List.mapM_cons, bind_eq_error_iff, ih]
    constructor
    · rintro (hx | ⟨y, hy, hrest | ⟨_, -, hpure⟩⟩)
      · exact ⟨[], x, xs, rfl, by simp, hx⟩
      · obtain ⟨before, z, after, rfl, hbefore, hz⟩ := hrest
        exact ⟨x :: before, z, after, rfl, List.forall_mem_cons.mpr ⟨⟨y, hy⟩, hbefore⟩, hz⟩
      · cases hpure
    · rintro ⟨before, z, after, hxs, hbefore, hz⟩
      cases before with
      | nil =>
        obtain ⟨rfl, -⟩ := List.cons.inj hxs
        exact .inl hz
      | cons b before =>
        obtain ⟨rfl, rfl⟩ := List.cons.inj hxs
        obtain ⟨⟨y, hy⟩, hrest⟩ := List.forall_mem_cons.mp hbefore
        exact .inr ⟨y, hy, .inl ⟨before, z, after, rfl, hrest, hz⟩⟩

/-- Everything in a list has a counterpart if the list has one. -/
theorem exists_forall₂_iff {R : α → β → Prop} :
    (∃ ys, List.Forall₂ R xs ys) ↔ ∀ x ∈ xs, ∃ y, R x y := by
  induction xs with
  | nil => simp
  | cons x xs ih =>
    rw [List.forall_mem_cons, ← ih]
    constructor
    · rintro ⟨ys, h⟩
      cases h with
      | cons hy hys => exact ⟨⟨_, hy⟩, _, hys⟩
    · rintro ⟨⟨y, hy⟩, ys, hys⟩
      exact ⟨y :: ys, .cons hy hys⟩

end InTurn

/-- What an operand has to be. -/
inductive OperandKind where
  /-- The name of a register. -/
  | register
  /-- A number, or a reference to a label. -/
  | value
deriving DecidableEq, Repr

/-- The operands that a format asks for, in order. -/
def Format.operandKinds : Format → List OperandKind
  | bare => []
  | register => [.register]
  | registerPair => [.register, .register]
  | registerValue => [.register, .value]

namespace Assembly

/-! ## Labels -/

namespace LabelTable
variable {table : LabelTable} {name : Text} {address : Nat}

/-- The names that a table defines, in order. -/
def names (table : LabelTable) : List Text :=
  table.map Prod.fst

theorem mem_names_iff : name ∈ table.names ↔ ∃ address, (name, address) ∈ table := by
  simp [names]

theorem address?_eq_none_iff : table.address? name = none ↔ ∀ address, (name, address) ∉ table := by
  rw [address?, List.lookup_eq_none_iff]
  constructor
  · intro h address hmem
    simpa using h _ hmem
  · rintro h ⟨other, address⟩ hmem
    have hne : name ≠ other := fun he => h address (he ▸ hmem)
    simpa using hne

/-- In a table that defines no name twice, a name stands for the address beside it. -/
theorem address?_eq_some_iff (hd : table.names.Nodup) :
    table.address? name = some address ↔ (name, address) ∈ table := by
  rw [address?, List.lookup_eq_some_iff]
  constructor
  · rintro ⟨before, after, rfl, -⟩
    simp
  · intro hmem
    obtain ⟨before, after, rfl⟩ := List.append_of_mem hmem
    refine ⟨before, after, rfl, ?_⟩
    intro entry hentry
    simp only [names, List.map_append, List.map_cons, List.nodup_append] at hd
    have hne := hd.2.2 entry.1 (List.mem_map_of_mem hentry) name List.mem_cons_self
    simpa using Ne.symm hne

theorem defines_iff : table.defines name = true ↔ name ∈ table.names := by
  rw [mem_names_iff, defines, Option.isSome_iff_ne_none, ne_eq, address?_eq_none_iff]
  simp

theorem names_define : (table.define name address).names = table.names ++ [name] := by
  simp [names, define]

end LabelTable

/-- A label definition is a name and its end mark. -/
theorem Line.label?_eq_some_iff {l : Line} {name : Text} :
    l.label? = some name ↔ l.text = name ++ [labelEnd] := by
  unfold label?
  split
  · rename_i h
    obtain ⟨front, hfront⟩ := List.getLast?_eq_some_iff.mp h
    rw [hfront, List.dropLast_concat]
    simp
  · rename_i h
    simp only [reduceCtorEq, false_iff]
    intro htext
    exact h (by rw [htext, List.getLast?_concat])

/-! ## Data directives -/

/-- **A data directive**: a name and a count, with one end mark between them and blanks around the
two. -/
structure Allocates (t : Text) (a : Allocation) : Prop where
  divided : ∃ left right, t = left ++ labelEnd :: right ∧ labelEnd ∉ left ∧ labelEnd ∉ right ∧
    Text.trim left = a.name ∧ Text.IsNumeral (Text.trim right) a.count
  named : a.name ≠ []
  bounded : a.count < Text.countLimit

/-- The two fields of a line, before they are trimmed. -/
theorem pieces_labelEnd_iff {t left right : Text} :
    Text.pieces (· == labelEnd) t = [left, right] ↔
      t = left ++ labelEnd :: right ∧ labelEnd ∉ left ∧ labelEnd ∉ right := by
  rw [Text.pieces_eq_pair_iff, Text.forall_beq_iff, Text.forall_beq_iff]
  simp

theorem Line.allocation?_eq_some_iff {l : Line} {a : Allocation} :
    l.allocation? = some a ↔ Allocates l.text a := by
  unfold allocation?
  constructor
  · intro h
    split at h
    · rename_i name count hfields
      obtain ⟨left, rest, hpieces, hname, hrest⟩ := List.map_eq_cons_iff.mp hfields
      obtain ⟨right, others, rfl, hcount, hothers⟩ := List.map_eq_cons_iff.mp hrest
      obtain rfl := List.map_eq_nil_iff.mp hothers
      obtain ⟨htext, hleft, hright⟩ := pieces_labelEnd_iff.mp hpieces
      split at h
      · cases h
      · rename_i hempty
        obtain ⟨n, hn, rfl⟩ := Option.map_eq_some_iff.mp h
        obtain ⟨hnumeral, hlt⟩ := Text.number?_eq_some_iff.mp hn
        subst hname hcount
        exact ⟨⟨left, right, htext, hleft, hright, rfl, hnumeral⟩, by simpa using hempty, hlt⟩
    · cases h
  · rintro ⟨⟨left, right, htext, hleft, hright, hname, hnumeral⟩, hnamed, hlt⟩
    have hempty : a.name.isEmpty = false := by simpa using hnamed
    have hnumber := Text.number?_eq_some_iff.mpr ⟨hnumeral, hlt⟩
    rw [pieces_labelEnd_iff.mpr ⟨htext, hleft, hright⟩]
    simp only [List.map_cons, List.map_nil, hname, hempty, Bool.false_eq_true, if_false, hnumber,
      Option.map_some]

/-! ## Operands -/

/-- **What an operand denotes**: a register by its number, a number that fits in a byte, or the
address of a label that does. -/
inductive Denotes (table : LabelTable) : OperandKind → Text → UInt8 → Prop
  | register {digits : Text} {v : UInt8} (h : Text.IsNatural digits v.toNat)
      (hv : v.toNat < registerCount) : Denotes table .register (registerMark :: digits) v
  | number {t : Text} {v : UInt8} (h : Text.IsNumeral t v.toNat) : Denotes table .value t v
  | label {name : Text} {v : UInt8} (h : (name, v.toNat) ∈ table) :
      Denotes table .value (labelMark :: name) v

/-- **What can be wrong with an operand.** -/
inductive Misfits (table : LabelTable) : OperandKind → Text → Violation → Prop
  /-- It is not the mark of a register and a number after it. -/
  | malformedRegister {t : Text}
      (h : ∀ digits n, t = registerMark :: digits → Text.IsNatural digits n → Text.countLimit ≤ n) :
      Misfits table .register t (.malformedRegister t)
  /-- The machine has fewer registers. -/
  | invalidRegister {digits : Text} {n : Nat} (h : Text.IsNatural digits n)
      (hlimit : n < Text.countLimit) (hn : registerCount ≤ n) :
      Misfits table .register (registerMark :: digits) (.invalidRegister (registerMark :: digits))
  /-- The label is not defined. -/
  | unknownLabel {name : Text} (h : ∀ address, (name, address) ∉ table) :
      Misfits table .value (labelMark :: name) (.unknownLabel name)
  /-- The address of the label does not fit in a byte. -/
  | farLabel {name : Text} {address : Nat} (h : (name, address) ∈ table)
      (hfar : UInt8.size ≤ address) :
      Misfits table .value (labelMark :: name) (.invalidValue (labelMark :: name))
  /-- It is no reference to a label, and no number that fits in a byte. -/
  | invalidValue {t : Text} (hmark : t.head? ≠ some labelMark)
      (h : ∀ n, Text.IsNumeral t n → UInt8.size ≤ n) :
      Misfits table .value t (.invalidValue t)

/-- Reads an operand of a kind. -/
def operand (table : LabelTable) : OperandKind → Text → Except Violation UInt8
  | .register => register
  | .value => value table

section Operand
variable {table : LabelTable} {t digits name : Text} {v : UInt8} {n : Nat}

theorem registerNumber?_eq_some_iff :
    registerNumber? t = some n ↔
      ∃ digits, t = registerMark :: digits ∧ Text.IsNatural digits n ∧ n < Text.countLimit := by
  cases t with
  | nil => simp [registerNumber?]
  | cons mark digits =>
    by_cases hmark : mark = registerMark
    · rw [registerNumber?, if_pos hmark, Option.filter_eq_some_iff, Text.natural?_eq_some_iff,
        decide_eq_true_iff, hmark]
      simp
    · simp [registerNumber?, hmark]

theorem toNat_eq_iff_of_lt (h : n < UInt8.size) : UInt8.ofNat n = v ↔ n = v.toNat := by
  rw [← UInt8.toNat_inj, UInt8.toNat_ofNat_of_lt' h]

theorem register_eq_ok_iff : register t = .ok v ↔ Denotes table .register t v := by
  constructor
  · intro h
    unfold register at h
    split at h
    · cases h
    · rename_i n hn
      obtain ⟨digits, rfl, hnatural, -⟩ := registerNumber?_eq_some_iff.mp hn
      split at h
      · rename_i hlt
        have hsize : n < UInt8.size := Nat.lt_of_lt_of_le hlt (by decide)
        obtain rfl := (toNat_eq_iff_of_lt hsize).mp (Except.ok.inj h)
        exact .register hnatural hlt
      · cases h
  · intro h
    cases h with
    | register hnatural hlt =>
      have hlimit : v.toNat < Text.countLimit := Nat.lt_of_lt_of_le hlt (by decide)
      have hnumber := registerNumber?_eq_some_iff.mpr ⟨_, rfl, hnatural, hlimit⟩
      simp only [register, hnumber, hlt, if_true, UInt8.ofNat_toNat]

theorem register_eq_error_iff {e : Violation} :
    register t = .error e ↔ Misfits table .register t e := by
  constructor
  · intro h
    unfold register at h
    split at h
    · rename_i hn
      cases h
      refine .malformedRegister fun digits n ht hnatural => Nat.le_of_not_lt fun hlt => ?_
      rw [registerNumber?_eq_some_iff.mpr ⟨digits, ht, hnatural, hlt⟩] at hn
      cases hn
    · rename_i n hn
      obtain ⟨digits, rfl, hnatural, hlimit⟩ := registerNumber?_eq_some_iff.mp hn
      split at h
      · cases h
      · rename_i hlt
        cases h
        exact .invalidRegister hnatural hlimit (Nat.le_of_not_lt hlt)
  · intro h
    cases h with
    | malformedRegister h =>
      have hnone : registerNumber? t = none := by
        refine Option.eq_none_iff_forall_ne_some.mpr fun n hn => ?_
        obtain ⟨digits, ht, hnatural, hlt⟩ := registerNumber?_eq_some_iff.mp hn
        exact absurd (h digits n ht hnatural) (Nat.not_le.mpr hlt)
      simp only [register, hnone]
    | invalidRegister hnatural hlimit hn =>
      have hnumber := registerNumber?_eq_some_iff.mpr ⟨_, rfl, hnatural, hlimit⟩
      simp only [register, hnumber, Nat.not_lt.mpr hn, if_false]

/-- A reference to a label is no numeral. -/
theorem not_isNumeral_labelMark : ¬ Text.IsNumeral (labelMark :: name) n := by
  intro h
  cases h with
  | unsigned h => exact absurd (h.digits labelMark List.mem_cons_self) (by decide)

theorem numberValue_eq_ok_iff : numberValue t = .ok v ↔ Text.IsNumeral t v.toNat := by
  unfold numberValue
  constructor
  · intro h
    split at h
    · cases h
    · rename_i n hn
      obtain ⟨hnumeral, hlt⟩ := Text.number?_eq_some_iff.mp hn
      obtain rfl := (toNat_eq_iff_of_lt hlt).mp (Except.ok.inj h)
      exact hnumeral
  · intro h
    have hnumber := Text.number?_eq_some_iff.mpr ⟨h, v.toNat_lt⟩
    simp only [UInt8.size, hnumber, UInt8.ofNat_toNat]

theorem numberValue_eq_error_iff {e : Violation} :
    numberValue t = .error e ↔
      e = .invalidValue t ∧ ∀ n, Text.IsNumeral t n → UInt8.size ≤ n := by
  unfold numberValue
  cases hn : Text.number? 10 UInt8.size t with
  | none =>
    have hlarge : ∀ n, Text.IsNumeral t n → UInt8.size ≤ n := by
      refine fun n hnumeral => Nat.le_of_not_lt fun hlt => ?_
      rw [Text.number?_eq_some_iff.mpr ⟨hnumeral, hlt⟩] at hn
      cases hn
    simp only [Except.error.injEq, eq_comm, and_iff_left hlarge]
  | some n =>
    obtain ⟨hnumeral, hlt⟩ := Text.number?_eq_some_iff.mp hn
    simp only [reduceCtorEq, false_iff, not_and]
    exact fun _ hlarge => absurd (hlarge n hnumeral) (Nat.not_le.mpr hlt)

theorem labelValue_eq_ok_iff (hd : table.names.Nodup) :
    labelValue table t name = .ok v ↔ (name, v.toNat) ∈ table := by
  unfold labelValue
  constructor
  · intro h
    split at h
    · cases h
    · rename_i address haddress
      split at h
      · rename_i hlt
        obtain rfl := (toNat_eq_iff_of_lt hlt).mp (Except.ok.inj h)
        exact (LabelTable.address?_eq_some_iff hd).mp haddress
      · cases h
  · intro h
    simp only [(LabelTable.address?_eq_some_iff hd).mpr h, UInt8.size, v.toNat_lt, if_true,
      UInt8.ofNat_toNat]

theorem labelValue_eq_error_iff (hd : table.names.Nodup) {e : Violation} :
    labelValue table t name = .error e ↔
      (e = .unknownLabel name ∧ ∀ address, (name, address) ∉ table) ∨
        e = .invalidValue t ∧ ∃ address, (name, address) ∈ table ∧ UInt8.size ≤ address := by
  unfold labelValue
  cases haddress : table.address? name with
  | none =>
    have hnone := LabelTable.address?_eq_none_iff.mp haddress
    simp [eq_comm, hnone]
  | some address =>
    have hmem := (LabelTable.address?_eq_some_iff hd).mp haddress
    have honly : ∀ other, (name, other) ∈ table → other = address := by
      intro other hother
      exact Option.some.inj
        (((LabelTable.address?_eq_some_iff hd).mpr hother).symm.trans haddress)
    by_cases hlt : address < UInt8.size
    · simp only [hlt, if_true, reduceCtorEq, false_iff, not_or, not_and]
      refine ⟨fun _ h => h address hmem, ?_⟩
      rintro - ⟨other, hother, hle⟩
      rw [honly other hother] at hle
      omega
    · simp only [hlt, if_false, Except.error.injEq]
      constructor
      · rintro rfl
        exact .inr ⟨rfl, address, hmem, Nat.le_of_not_lt hlt⟩
      · rintro (⟨-, hnone⟩ | ⟨rfl, -⟩)
        · exact absurd hmem (hnone address)
        · rfl

theorem value_labelMark : value table (labelMark :: name) =
    labelValue table (labelMark :: name) name := by
  simp [value]

theorem value_of_ne (h : t.head? ≠ some labelMark) : value table t = numberValue t := by
  cases t with
  | nil => rfl
  | cons mark name =>
    have hmark : mark ≠ labelMark := by simpa using h
    simp [value, hmark]

/-- A value is a reference to a label, or has no mark. -/
theorem labelMark_cases (t : Text) :
    (∃ name, t = labelMark :: name) ∨ t.head? ≠ some labelMark := by
  by_cases h : t.head? = some labelMark
  · exact .inl (List.head?_eq_some_iff.mp h)
  · exact .inr h

theorem value_eq_ok_iff (hd : table.names.Nodup) :
    value table t = .ok v ↔ Denotes table .value t v := by
  rcases labelMark_cases t with ⟨name, rfl⟩ | hmark
  · rw [value_labelMark, labelValue_eq_ok_iff hd]
    constructor
    · exact .label
    · intro h
      cases h with
      | number h => exact absurd h not_isNumeral_labelMark
      | label h => exact h
  · rw [value_of_ne hmark, numberValue_eq_ok_iff]
    constructor
    · exact .number
    · intro h
      cases h with
      | number h => exact h
      | label h => simp at hmark

theorem value_eq_error_iff (hd : table.names.Nodup) {e : Violation} :
    value table t = .error e ↔ Misfits table .value t e := by
  rcases labelMark_cases t with ⟨name, rfl⟩ | hmark
  · rw [value_labelMark, labelValue_eq_error_iff hd]
    constructor
    · rintro (⟨rfl, h⟩ | ⟨rfl, address, h, hfar⟩)
      · exact .unknownLabel h
      · exact .farLabel h hfar
    · intro h
      cases h with
      | unknownLabel h => exact .inl ⟨rfl, h⟩
      | farLabel h hfar => exact .inr ⟨rfl, _, h, hfar⟩
      | invalidValue hmark h => simp at hmark
  · rw [value_of_ne hmark, numberValue_eq_error_iff]
    constructor
    · rintro ⟨rfl, h⟩
      exact .invalidValue hmark h
    · intro h
      cases h with
      | unknownLabel h | farLabel h hfar => simp at hmark
      | invalidValue hmark h => exact ⟨rfl, h⟩

/-- **An operand is read as what it denotes.** -/
theorem operand_eq_ok_iff (hd : table.names.Nodup) {kind : OperandKind} :
    operand table kind t = .ok v ↔ Denotes table kind t v := by
  cases kind with
  | register => exact register_eq_ok_iff
  | value => exact value_eq_ok_iff hd

/-- **An operand is refused for what is wrong with it.** -/
theorem operand_eq_error_iff (hd : table.names.Nodup) {kind : OperandKind} {e : Violation} :
    operand table kind t = .error e ↔ Misfits table kind t e := by
  cases kind with
  | register => exact register_eq_error_iff
  | value => exact value_eq_error_iff hd

end Operand

/-! ## Instructions -/

/-- The two fields that the operands of an instruction go into; one without an operand is zero. -/
def fields (values : List UInt8) : UInt8 × UInt8 :=
  (values.getD 0 0, values.getD 1 0)

/-- **Operands are read from left to right**, once their number is right. -/
theorem operands_eq (table : LabelTable) (o : Opcode) (tokens : List Text) :
    operands table o tokens =
      if tokens.length = o.format.operandCount then
        ((o.format.operandKinds.zip tokens).mapM fun x => operand table x.1 x.2).map fields
      else .error (.wrongOperandCount o.mnemonic o.format.operandCount tokens.length) := by
  unfold operands
  split
  · rename_i hformat
    simp [hformat, Format.operandCount, Format.operandKinds, fields, Except.map, pure, Except.pure]
  · rename_i a hformat
    cases ha : register a <;>
      simp [hformat, Format.operandCount, Format.operandKinds, operand, ha, fields, Except.map,
        bind, Except.bind, pure, Except.pure]
  · rename_i a b hformat
    cases ha : register a <;> cases hb : register b <;>
      simp [hformat, Format.operandCount, Format.operandKinds, operand, ha, hb, fields, Except.map,
        bind, Except.bind, pure, Except.pure]
  · rename_i a b hformat
    cases ha : register a <;> cases hb : value table b <;>
      simp [hformat, Format.operandCount, Format.operandKinds, operand, ha, hb, fields, Except.map,
        bind, Except.bind, pure, Except.pure]
  · rename_i tokens _ _ hbare hregister hpair hvalue
    have hlength : tokens.length ≠ o.format.operandCount := by
      intro hlength
      cases hf : o.format with
      | bare =>
        rw [hf] at hlength
        exact hbare hf (List.length_eq_zero_iff.mp hlength)
      | register =>
        rw [hf] at hlength
        obtain ⟨a, ha⟩ := List.length_eq_one_iff.mp hlength
        exact hregister a hf ha
      | registerPair =>
        rw [hf] at hlength
        obtain ⟨a, b, hab⟩ := List.length_eq_two.mp hlength
        exact hpair a b hf hab
      | registerValue =>
        rw [hf] at hlength
        obtain ⟨a, b, hab⟩ := List.length_eq_two.mp hlength
        exact hvalue a b hf hab
    rw [if_neg hlength]

theorem operands_eq_ok_iff {table : LabelTable} (hd : table.names.Nodup) {o : Opcode}
    {tokens : List Text} {pair : UInt8 × UInt8} :
    operands table o tokens = .ok pair ↔ tokens.length = o.format.operandCount ∧
      ∃ values, List.Forall₂ (fun x v => Denotes table x.1 x.2 v)
        (o.format.operandKinds.zip tokens) values ∧ fields values = pair := by
  rw [operands_eq]
  split
  · rename_i hcount
    simp only [map_eq_ok_iff, mapM_eq_ok_iff, operand_eq_ok_iff hd, hcount, true_and]
  · rename_i hcount
    simp [hcount]

theorem operands_eq_error_iff {table : LabelTable} (hd : table.names.Nodup) {o : Opcode}
    {tokens : List Text} {e : Violation} :
    operands table o tokens = .error e ↔
      (tokens.length ≠ o.format.operandCount ∧
        e = .wrongOperandCount o.mnemonic o.format.operandCount tokens.length) ∨
      tokens.length = o.format.operandCount ∧ ∃ before x after,
        o.format.operandKinds.zip tokens = before ++ x :: after ∧
        (∀ b ∈ before, ∃ v, Denotes table b.1 b.2 v) ∧ Misfits table x.1 x.2 e := by
  rw [operands_eq]
  split
  · rename_i hcount
    simp only [map_eq_error_iff, mapM_eq_error_iff, operand_eq_ok_iff hd, operand_eq_error_iff hd,
      hcount, ne_eq, not_true_eq_false, false_and, false_or, true_and]
  · rename_i hcount
    simp [hcount, eq_comm]

/-- **An instruction line**: the mnemonic of an operation that a source may name, and an operand for
each that its format asks for. -/
structure Spells (table : LabelTable) (t : Text) (o : Opcode) (tokens : List Text)
    (values : List UInt8) : Prop where
  words : Text.words t = o.mnemonic :: tokens
  allowed : o.isReserved = false
  count : tokens.length = o.format.operandCount
  denotes : List.Forall₂ (fun x v => Denotes table x.1 x.2 v)
    (o.format.operandKinds.zip tokens) values

/-- **The word of an instruction line**: its operation lowest, then its operands. -/
def Translates (table : LabelTable) (t : Text) (w : Word) : Prop :=
  ∃ o tokens values, Spells table t o tokens values ∧
    w.toNat = o.code.toNat + 256 * (values.getD 0 0).toNat + 65536 * (values.getD 1 0).toNat

/-- An instruction takes three of the four bytes of a word. -/
theorem Translates.toNat_lt {table : LabelTable} {t : Text} {w : Word} (h : Translates table t w) :
    w.toNat < 0x1000000 := by
  obtain ⟨o, tokens, values, -, hword⟩ := h
  have hcode := o.code.toNat_lt
  have hfirst := (values.getD 0 0).toNat_lt
  have hsecond := (values.getD 1 0).toNat_lt
  omega

/-- **What can be wrong with an instruction line**, in the order in which it is looked for. -/
inductive Misspells (table : LabelTable) (t : Text) : Violation → Prop
  /-- No operation has the mnemonic. -/
  | unknown {name : Text} {tokens : List Text} (hw : Text.words t = name :: tokens)
      (h : ∀ o : Opcode, o.mnemonic ≠ name) : Misspells table t (.unknownOpcode name)
  /-- The operation is kept for the debugger. -/
  | reserved {o : Opcode} {tokens : List Text} (hw : Text.words t = o.mnemonic :: tokens)
      (h : o.isReserved = true) : Misspells table t (.reservedOpcode o.mnemonic)
  /-- The operation takes another number of operands. -/
  | count {o : Opcode} {tokens : List Text} (hw : Text.words t = o.mnemonic :: tokens)
      (ho : o.isReserved = false) (h : tokens.length ≠ o.format.operandCount) :
      Misspells table t (.wrongOperandCount o.mnemonic o.format.operandCount tokens.length)
  /-- An operand is wrong, and those before it are not. -/
  | operand {o : Opcode} {tokens : List Text} {before after : List (OperandKind × Text)}
      {kind : OperandKind} {token : Text} {e : Violation}
      (hw : Text.words t = o.mnemonic :: tokens) (ho : o.isReserved = false)
      (hcount : tokens.length = o.format.operandCount)
      (hsplit : o.format.operandKinds.zip tokens = before ++ (kind, token) :: after)
      (hbefore : ∀ x ∈ before, ∃ v, Denotes table x.1 x.2 v) (h : Misfits table kind token e) :
      Misspells table t e

section Compile
variable {table : LabelTable} {l : Line} {o : Opcode} {name : Text} {tokens : List Text} {w : Word}
  {e : Violation}

theorem Line.compile_of_unknown (hw : Text.words l.text = name :: tokens)
    (h : ∀ o : Opcode, o.mnemonic ≠ name) : l.compile table = .error (.unknownOpcode name) := by
  have hnone : Opcode.ofMnemonic? name = none :=
    Option.eq_none_iff_forall_ne_some.mpr fun o ho => h o (Opcode.ofMnemonic?_eq_some_iff.mp ho)
  simp only [Line.compile, hw, hnone]

theorem Line.compile_of_reserved (hw : Text.words l.text = o.mnemonic :: tokens)
    (h : o.isReserved = true) : l.compile table = .error (.reservedOpcode o.mnemonic) := by
  simp only [Line.compile, hw, Opcode.ofMnemonic?_mnemonic, h, if_true]

/-- Once its operation is known, a line stands and falls with its operands. -/
theorem Line.compile_of_allowed (hw : Text.words l.text = o.mnemonic :: tokens)
    (h : o.isReserved = false) :
    l.compile table = (operands table o tokens).map
      fun values => Instruction.encode ⟨o.code, values.1, values.2⟩ := by
  simp only [Line.compile, hw, Opcode.ofMnemonic?_mnemonic, h, Bool.false_eq_true, if_false]
  cases operands table o tokens <;> rfl

/-- The first word of a line is the mnemonic of an operation, reserved or not, or of none. -/
theorem mnemonic_cases (name : Text) :
    (∀ o : Opcode, o.mnemonic ≠ name) ∨ ∃ o : Opcode, o.mnemonic = name := by
  by_cases h : ∃ o : Opcode, o.mnemonic = name
  · exact .inr h
  · exact .inl fun o ho => h ⟨o, ho⟩

/-- **An instruction line is translated as it is spelt.** -/
theorem Line.compile_eq_ok_iff (hd : table.names.Nodup) :
    l.compile table = .ok w ↔ Translates table l.text w := by
  constructor
  · intro h
    cases hw : Text.words l.text with
    | nil => simp [Line.compile, hw] at h
    | cons name tokens =>
      rcases mnemonic_cases name with hunknown | ⟨o, rfl⟩
      · rw [Line.compile_of_unknown hw hunknown] at h
        cases h
      · cases ho : o.isReserved with
        | true =>
          rw [Line.compile_of_reserved hw ho] at h
          cases h
        | false =>
          rw [Line.compile_of_allowed hw ho, map_eq_ok_iff] at h
          obtain ⟨pair, hpair, rfl⟩ := h
          obtain ⟨hcount, values, hdenotes, rfl⟩ := (operands_eq_ok_iff hd).mp hpair
          exact ⟨o, tokens, values, ⟨hw, ho, hcount, hdenotes⟩, Instruction.toNat_encode _⟩
  · rintro ⟨o, tokens, values, hspells, hword⟩
    have hpair := (operands_eq_ok_iff hd).mpr ⟨hspells.count, values, hspells.denotes, rfl⟩
    rw [Line.compile_of_allowed hspells.words hspells.allowed, hpair, Except.map, Except.ok.injEq,
      ← UInt32.toNat_inj, hword]
    exact Instruction.toNat_encode _

/-- **An instruction line is refused for how it is misspelt.** -/
theorem Line.compile_eq_error_iff (hd : table.names.Nodup) (hne : Text.words l.text ≠ []) :
    l.compile table = .error e ↔ Misspells table l.text e := by
  constructor
  · intro h
    obtain ⟨name, tokens, hw⟩ := List.exists_cons_of_ne_nil hne
    rcases mnemonic_cases name with hunknown | ⟨o, rfl⟩
    · rw [Line.compile_of_unknown hw hunknown] at h
      cases h
      exact .unknown hw hunknown
    · cases ho : o.isReserved with
      | true =>
        rw [Line.compile_of_reserved hw ho] at h
        cases h
        exact .reserved hw ho
      | false =>
        rw [Line.compile_of_allowed hw ho, map_eq_error_iff, operands_eq_error_iff hd] at h
        rcases h with ⟨hcount, rfl⟩ | ⟨hcount, before, x, after, hsplit, hbefore, hx⟩
        · exact .count hw ho hcount
        · exact .operand hw ho hcount hsplit hbefore hx
  · intro h
    cases h with
    | unknown hw h => exact Line.compile_of_unknown hw h
    | reserved hw h => exact Line.compile_of_reserved hw h
    | count hw ho h =>
      rw [Line.compile_of_allowed hw ho, map_eq_error_iff, operands_eq_error_iff hd]
      exact .inl ⟨h, rfl⟩
    | operand hw ho hcount hsplit hbefore h =>
      rw [Line.compile_of_allowed hw ho, map_eq_error_iff, operands_eq_error_iff hd]
      exact .inr ⟨hcount, _, _, _, hsplit, hbefore, h⟩

end Compile

end Assembly
end RegisterMachine
