import Mathlib.Data.List.Dedup
import Mathlib.Data.List.Induction
import RegisterMachine.Proofs.Session.Simulation

/-! # Setting and clearing breakpoints can be undone

Between its runs a session is edited: breakpoints are set and cleared, in any order and at any
addresses.  An edit is refused, or it finds nothing to do, or it adds or removes one entry of the
table; which of these it is depends on the table and the view alone (`edit_cases`).

The view is the same after every edit, so that memory can be told from the view and the table
(`word_eq_ite`), and clearing what is set gives the plain machine back (`editedAll_clear`).  What
the table has after a list of edits is up to the last edit at each address, and in which order it
has them is up to the edits that added them (`addresses_editedAll`). -/

namespace RegisterMachine

/-- A call that sets or clears a breakpoint. -/
inductive Edit where
  /-- Sets one. -/
  | set (address : Nat)
  /-- Clears one. -/
  | clear (address : Nat)
deriving DecidableEq, Repr

namespace Edit

/-- The address that an edit is about. -/
def address : Edit → Nat
  | set address | clear address => address

/-- The last of some edits that is about an address. -/
def last? (address : Nat) (edits : List Edit) : Option Edit :=
  edits.reverse.find? fun e => e.address == address

theorem last?_concat (address : Nat) (edits : List Edit) (e : Edit) :
    last? address (edits ++ [e]) = if e.address = address then some e else last? address edits := by
  rw [last?, List.reverse_append, List.reverse_singleton, List.singleton_append, List.find?_cons]
  by_cases h : e.address = address
  · simp [h]
  · have hne : (e.address == address) = false := by simp [h]
    rw [hne, if_neg h]
    rfl

theorem last?_eq_none_iff {address : Nat} {edits : List Edit} :
    last? address edits = none ↔ ∀ e ∈ edits, e.address ≠ address := by
  simp [last?]

/-- Whether an edit has added, or removed, the entry that it is about. -/
def Took (before after : List Nat) : Edit → Prop
  | set address => address ∉ before ∧ address ∈ after
  | clear address => address ∈ before ∧ address ∉ after

end Edit

namespace Patched

/-- Makes an edit, and says whether it has changed the table. -/
def edit (p : Patched) : Edit → Except Breakpoints.OutOfRange (Bool × Patched)
  | .set address => p.set address
  | .clear address => p.clear address

/-- What an edit leaves; one that is refused leaves everything. -/
def edited (p : Patched) (e : Edit) : Patched :=
  match p.edit e with
  | .ok (_, q) => q
  | .error _ => p

/-- What a list of edits leaves. -/
def editedAll (p : Patched) (edits : List Edit) : Patched :=
  edits.foldl edited p

/-- The address of the breakpoint that an edit has newly set, if it has. -/
def addition? (p : Patched) (e : Edit) : Option Nat :=
  match e, p.edit e with
  | .set address, .ok (true, _) => some address
  | _, _ => none

/-- The addresses at which a list of edits has newly set breakpoints, in the order in which it has.
-/
def additions (p : Patched) : List Edit → List Nat
  | [] => []
  | e :: rest => (p.addition? e).toList ++ (p.edited e).additions rest

variable {p q : Patched} {e : Edit} {address : Nat} {took : Bool} {edits : List Edit}

theorem edited_of_ok (h : p.edit e = .ok (took, q)) : p.edited e = q := by
  simp only [edited, h]

theorem edited_of_error {refusal : Breakpoints.OutOfRange} (h : p.edit e = .error refusal) :
    p.edited e = p := by
  simp only [edited, h]

theorem editedAll_concat (p : Patched) (edits : List Edit) (e : Edit) :
    p.editedAll (edits ++ [e]) = (p.editedAll edits).edited e :=
  List.foldl_append

theorem additions_concat (p : Patched) (edits : List Edit) (e : Edit) :
    p.additions (edits ++ [e]) = p.additions edits ++ ((p.editedAll edits).addition? e).toList := by
  induction edits generalizing p with
  | nil => simp [additions, editedAll]
  | cons first rest ih =>
    rw [List.cons_append, additions, ih, additions, List.append_assoc]
    rfl

/-! ## One edit -/

/-- **What an edit can do**: it is refused, it adds an entry to the table or finds nothing to add,
it removes an entry or finds nothing to remove. -/
inductive EditCase (p : Patched) : Edit → Prop
  | refused {e : Edit} (hge : memorySize ≤ e.address) (h : p.edit e = .error ⟨e.address⟩) :
      EditCase p e
  | added {address : Nat} {q : Patched} (hlt : address < memorySize)
      (hnew : address ∉ p.breakpoints.addresses)
      (hword : p.plain.word ⟨address, hlt⟩ ≠ breakpointWord)
      (h : p.edit (.set address) = .ok (true, q))
      (htable : q.breakpoints.addresses = p.breakpoints.addresses ++ [address]) :
      EditCase p (.set address)
  | notAdded {address : Nat} (hlt : address < memorySize)
      (hold : address ∈ p.breakpoints.addresses ∨
        p.plain.word ⟨address, hlt⟩ = breakpointWord)
      (h : p.edit (.set address) = .ok (false, p)) : EditCase p (.set address)
  | removed {address : Nat} {q : Patched} (hlt : address < memorySize)
      (hold : address ∈ p.breakpoints.addresses) (h : p.edit (.clear address) = .ok (true, q))
      (htable : q.breakpoints.addresses = p.breakpoints.addresses.filter (· != address)) :
      EditCase p (.clear address)
  | notRemoved {address : Nat} (hlt : address < memorySize)
      (hfree : address ∉ p.breakpoints.addresses)
      (h : p.edit (.clear address) = .ok (false, p)) : EditCase p (.clear address)

/-- Where no breakpoint is set, the view is memory. -/
theorem plain_word_of_not_mem {a : Fin memorySize} (h : a.val ∉ p.breakpoints.addresses) :
    p.plain.word a = p.machine.word a := by
  rw [Breakpoints.mem_addresses_iff, Bool.not_eq_true, Breakpoints.isSet_eq_false_iff] at h
  rw [plain_word, h, Option.getD_none]

theorem set_cases (hlt : address < memorySize) : p.EditCase (.set address) := by
  by_cases hold : address ∈ p.breakpoints.addresses
  · refine .notAdded hlt (.inl hold) ?_
    rw [Breakpoints.mem_addresses_iff] at hold
    simp [edit, set, hlt, hold]
  · have hview := plain_word_of_not_mem (a := ⟨address, hlt⟩) hold
    have hfree : p.breakpoints.isSet address = false :=
      Bool.eq_false_iff.mpr fun hset => hold ((Breakpoints.mem_addresses_iff _ _).mpr hset)
    by_cases hword : p.machine.word ⟨address, hlt⟩ = breakpointWord
    · exact .notAdded hlt (.inr (hview.trans hword)) (by simp [edit, set, hlt, hword])
    · have hset : p.edit (.set address) = _ := set_of_free hlt hfree hword
      have htable := Breakpoints.addresses_save_of_not_isSet p.breakpoints address
        (p.machine.word ⟨address, hlt⟩) hfree
      exact .added hlt hold (by rwa [hview]) hset htable

theorem clear_cases (hc : p.Consistent) (hlt : address < memorySize) :
    p.EditCase (.clear address) := by
  by_cases hold : address ∈ p.breakpoints.addresses
  · have hset := (Breakpoints.mem_addresses_iff _ _).mp hold
    rw [Breakpoints.isSet, Option.isSome_iff_exists] at hset
    obtain ⟨saved, hsaved⟩ := hset
    -- memory has the breakpoint word there, so that the saved word is put back
    have hword := hc.word_eq ⟨address, hlt⟩ hsaved
    have hclear : p.edit (.clear address) = .ok (true,
        { machine := p.machine.setWord ⟨address, hlt⟩ saved
          breakpoints := p.breakpoints.forget address }) := by
      simp [edit, clear, hlt, hword, hsaved]
    exact .removed hlt hold hclear (Breakpoints.addresses_forget _ _)
  · refine .notRemoved hlt hold ?_
    rw [Breakpoints.mem_addresses_iff, Bool.not_eq_true, Breakpoints.isSet_eq_false_iff] at hold
    by_cases hword : p.machine.word ⟨address, hlt⟩ = breakpointWord
    · simp [edit, clear, hlt, hword, hold]
    · simp [edit, clear, hlt, hword]

/-- **Every edit is one of these.** -/
theorem edit_cases (hc : p.Consistent) (e : Edit) : p.EditCase e := by
  by_cases hlt : e.address < memorySize
  · cases e with
    | set address => exact set_cases hlt
    | clear address => exact clear_cases hc hlt
  · refine .refused (Nat.le_of_not_lt hlt) ?_
    cases e with
    | set address => exact dif_neg hlt
    | clear address => exact dif_neg hlt

theorem consistent_edited (hc : p.Consistent) (e : Edit) : (p.edited e).Consistent := by
  cases h : p.edit e with
  | error refusal => rwa [edited_of_error h]
  | ok result =>
    rw [edited_of_ok h]
    cases e with
    | set address => exact hc.set h
    | clear address => exact hc.clear h

/-- No edit changes the view. -/
theorem plain_edited (p : Patched) (e : Edit) : (p.edited e).plain = p.plain := by
  cases h : p.edit e with
  | error refusal => rw [edited_of_error h]
  | ok result =>
    rw [edited_of_ok h]
    cases e with
    | set address => exact plain_of_set h
    | clear address => exact plain_of_clear h

theorem mem_edited_of_ne (hc : p.Consistent) (h : address ≠ e.address) :
    address ∈ (p.edited e).breakpoints.addresses ↔ address ∈ p.breakpoints.addresses := by
  cases edit_cases hc e with
  | refused _ he => rw [edited_of_error he]
  | @added other _ _ _ _ he htable =>
    have hne : address ≠ other := h
    rw [edited_of_ok he, htable]
    simp [hne]
  | @removed other _ _ _ he htable =>
    have hne : address ≠ other := h
    rw [edited_of_ok he, htable]
    simp [hne]
  | notAdded _ _ he | notRemoved _ _ he => rw [edited_of_ok he]

theorem mem_edited_set (hc : p.Consistent) (a : Fin memorySize) :
    a.val ∈ (p.edited (.set a)).breakpoints.addresses ↔
      a.val ∈ p.breakpoints.addresses ∨ p.plain.word a ≠ breakpointWord := by
  cases edit_cases hc (.set a) with
  | refused hge _ => exact absurd a.isLt (Nat.not_lt.mpr hge)
  | added _ _ hword he htable =>
    rw [edited_of_ok he, htable]
    simp [hword]
  | notAdded _ hold he =>
    rw [edited_of_ok he]
    rcases hold with hold | hword
    · simp [hold]
    · simp [hword]

theorem not_mem_edited_clear (hc : p.Consistent) (a : Fin memorySize) :
    a.val ∉ (p.edited (.clear a)).breakpoints.addresses := by
  cases edit_cases hc (.clear a) with
  | refused hge _ => exact absurd a.isLt (Nat.not_lt.mpr hge)
  | removed _ _ he htable =>
    rw [edited_of_ok he, htable]
    simp
  | notRemoved _ hfree he => rwa [edited_of_ok he]

theorem addition?_eq_some {new : Nat} (h : p.addition? e = some new) :
    e = .set new ∧ ∃ q, p.edit e = .ok (true, q) := by
  unfold addition? at h
  split at h
  · rename_i he
    cases h
    exact ⟨rfl, _, he⟩
  · cases h

theorem addition?_of_set (h : p.edit (.set address) = .ok (took, q)) :
    p.addition? (.set address) = if took then some address else none := by
  cases took <;> simp [addition?, h]

theorem addition?_clear (p : Patched) (address : Nat) : p.addition? (.clear address) = none := by
  simp [addition?]

/-- Only an edit that is answered adds a breakpoint. -/
theorem addition?_of_error {refusal : Breakpoints.OutOfRange} (h : p.edit e = .error refusal) :
    p.addition? e = none := by
  cases e with
  | set address => simp [addition?, h]
  | clear address => exact addition?_clear p address

/-- **How an edit is answered**: it is refused beyond the end of memory, and elsewhere the answer says
whether it has added or removed its entry. -/
theorem edit_answered (hc : p.Consistent) (e : Edit) :
    (memorySize ≤ e.address → p.edit e = .error ⟨e.address⟩ ∧ p.edited e = p) ∧
      (e.address < memorySize → ∃ took, p.edit e = .ok (took, p.edited e) ∧
        (took = true ↔ e.Took p.breakpoints.addresses (p.edited e).breakpoints.addresses) ∧
        (took = false → p.edited e = p)) := by
  cases edit_cases hc e with
  | refused hge he =>
    refine ⟨fun _ => ⟨he, edited_of_error he⟩, fun hlt => ?_⟩
    exact absurd hlt (Nat.not_lt.mpr hge)
  | added hlt hnew _ he htable =>
    refine ⟨fun hge => absurd hlt (Nat.not_lt.mpr hge), fun _ => ⟨true, ?_⟩⟩
    rw [edited_of_ok he]
    exact ⟨he, by simp [Edit.Took, hnew, htable], nofun⟩
  | removed hlt hold he htable =>
    refine ⟨fun hge => absurd hlt (Nat.not_lt.mpr hge), fun _ => ⟨true, ?_⟩⟩
    rw [edited_of_ok he]
    exact ⟨he, by simp [Edit.Took, hold, htable], nofun⟩
  | notAdded hlt _ he | notRemoved hlt _ he =>
    refine ⟨fun hge => absurd hlt (Nat.not_lt.mpr hge), fun _ => ⟨false, ?_⟩⟩
    rw [edited_of_ok he]
    exact ⟨he, by simp [Edit.Took], fun _ => rfl⟩

/-! ## A list of edits -/

theorem consistent_editedAll (hc : p.Consistent) (edits : List Edit) :
    (p.editedAll edits).Consistent := by
  induction edits using List.reverseRecOn with
  | nil => exact hc
  | append_singleton edits e ih =>
    rw [editedAll_concat]
    exact consistent_edited ih e

/-- **No list of edits changes the view.** -/
theorem plain_editedAll (p : Patched) (edits : List Edit) : (p.editedAll edits).plain = p.plain := by
  induction edits using List.reverseRecOn with
  | nil => rfl
  | append_singleton edits e ih => rw [editedAll_concat, plain_edited, ih]

/-- **Memory can be told from the view and the table.** -/
theorem word_eq_ite (hc : p.Consistent) (a : Fin memorySize) :
    p.machine.word a =
      if a.val ∈ p.breakpoints.addresses then breakpointWord else p.plain.word a := by
  by_cases h : a.val ∈ p.breakpoints.addresses
  · have hmarked := hc.marked a.val h
    rw [Machine.word?_eq] at hmarked
    rw [if_pos h, Option.some.inj hmarked]
  · rw [if_neg h, plain_word_of_not_mem h]

/-- Without breakpoints, the machine is the plain one. -/
theorem eq_ofMachine_plain (h : p.breakpoints = []) : p = ofMachine p.plain := by
  have hplain : p.plain = p.machine := by
    refine plain_eq ⟨rfl, rfl, rfl, rfl⟩ fun a => ?_
    rw [h, Breakpoints.saved?_nil, Option.getD_none]
  rw [hplain, ofMachine, ← h]

/-- **The last edit decides** whether a breakpoint is set, where the program has another word than
the breakpoint word. -/
theorem mem_editedAll_iff (hc : p.Consistent) (edits : List Edit) (a : Fin memorySize)
    (hword : p.plain.word a ≠ breakpointWord) :
    a.val ∈ (p.editedAll edits).breakpoints.addresses ↔
      Edit.last? a edits = some (.set a) ∨
        Edit.last? a edits = none ∧ a.val ∈ p.breakpoints.addresses := by
  induction edits using List.reverseRecOn with
  | nil => simp [editedAll, Edit.last?]
  | append_singleton edits e ih =>
    have hbefore := consistent_editedAll hc edits
    rw [editedAll_concat, Edit.last?_concat]
    by_cases h : a.val = e.address
    · rw [if_pos h.symm]
      cases e with
      | set address =>
        obtain rfl : a.val = address := h
        rw [mem_edited_set hbefore, plain_editedAll]
        simp [hword]
      | clear address =>
        obtain rfl : a.val = address := h
        simp [not_mem_edited_clear hbefore]
    · rw [if_neg (Ne.symm h), mem_edited_of_ne hbefore h, ih]

/-- **No breakpoint is added where the program has the breakpoint word**, and one that is there
stays until it is cleared. -/
theorem mem_editedAll_iff_of_marked (hc : p.Consistent) (edits : List Edit) (a : Fin memorySize)
    (hword : p.plain.word a = breakpointWord) :
    a.val ∈ (p.editedAll edits).breakpoints.addresses ↔
      a.val ∈ p.breakpoints.addresses ∧ Edit.clear a ∉ edits := by
  induction edits using List.reverseRecOn with
  | nil => simp [editedAll]
  | append_singleton edits e ih =>
    have hbefore := consistent_editedAll hc edits
    rw [editedAll_concat]
    by_cases h : a.val = e.address
    · cases e with
      | set address =>
        obtain rfl : a.val = address := h
        rw [mem_edited_set hbefore, plain_editedAll, ih]
        simp [hword]
      | clear address =>
        obtain rfl : a.val = address := h
        simp [not_mem_edited_clear hbefore]
    · have hne : Edit.clear a ≠ e := by
        rintro rfl
        exact h rfl
      rw [mem_edited_of_ne hbefore h, ih]
      simp [hne]

/-! ## The order of the table -/

/-- The addresses of the table that no edit clears, in the order of the table. -/
def kept (p : Patched) (edits : List Edit) : List Nat :=
  p.breakpoints.addresses.filter fun a => Edit.clear a ∉ edits

theorem kept_concat_of_ne (edits : List Edit)
    (h : ∀ a ∈ p.breakpoints.addresses, Edit.clear a ≠ e) :
    p.kept (edits ++ [e]) = p.kept edits := by
  refine List.filter_congr fun a ha => ?_
  simp [h a ha]

theorem kept_concat_clear (p : Patched) (edits : List Edit) (address : Nat) :
    p.kept (edits ++ [.clear address]) = (p.kept edits).filter (· != address) := by
  rw [kept, kept, List.filter_filter]
  refine List.filter_congr fun a _ => ?_
  by_cases h : a = address <;> simp [h]

/-- The last of several occurrences is the one that stays. -/
theorem dedup_concat (as : List Nat) (a : Nat) :
    (as ++ [a]).dedup = as.dedup.filter (· != a) ++ [a] := by
  induction as with
  | nil => rfl
  | cons b as ih =>
    rw [List.cons_append]
    by_cases hmem : b ∈ as
    · rw [List.dedup_cons_of_mem (List.mem_append_left _ hmem), List.dedup_cons_of_mem hmem, ih]
    · rw [List.dedup_cons_of_notMem hmem]
      by_cases hb : b = a
      · subst hb
        rw [List.dedup_cons_of_mem (by simp), ih]
        simp
      · rw [List.dedup_cons_of_notMem (by simp [hmem, hb]), ih]
        simp [hb]

/-- The table is what was kept, then what was added and is still there. -/
theorem addresses_eq_kept_append (hc : p.Consistent) (edits : List Edit) :
    (p.editedAll edits).breakpoints.addresses =
      p.kept edits ++ (p.additions edits).dedup.filter fun a =>
        a ∈ (p.editedAll edits).breakpoints.addresses := by
  induction edits using List.reverseRecOn with
  | nil => simp [kept, additions, editedAll]
  | append_singleton edits e ih =>
    have hbefore := consistent_editedAll hc edits
    rw [editedAll_concat, additions_concat]
    generalize p.editedAll edits = x at ih hbefore ⊢
    cases edit_cases hbefore e with
    | @refused e hge he =>
      have hne : ∀ a ∈ p.breakpoints.addresses, Edit.clear a ≠ e := by
        rintro a ha rfl
        exact absurd (hc.inRange a ha) (Nat.not_lt.mpr hge)
      rw [edited_of_error he, addition?_of_error he, kept_concat_of_ne _ hne]
      simpa using ih
    | @added address q _ hnew _ he htable =>
      rw [edited_of_ok he, addition?_of_set he, kept_concat_of_ne _ (by simp), htable]
      have hstill : ((p.additions edits ++ [address]).dedup.filter fun a =>
          a ∈ x.breakpoints.addresses ++ [address]) =
          ((p.additions edits).dedup.filter fun a => a ∈ x.breakpoints.addresses) ++ [address] := by
        rw [dedup_concat, List.filter_append, List.filter_filter]
        congr 1
        · refine List.filter_congr fun a _ => ?_
          by_cases ha : a = address
          · simp [ha, hnew]
          · simp [ha]
        · simp
      rw [if_pos rfl, Option.toList_some, hstill, ← List.append_assoc, ← ih]
    | notAdded _ _ he =>
      rw [edited_of_ok he, addition?_of_set he, kept_concat_of_ne _ (by simp)]
      simpa using ih
    | @removed address q _ _ he htable =>
      rw [edited_of_ok he, addition?_clear, kept_concat_clear, htable, Option.toList_none,
        List.append_nil]
      have hstill : ((p.additions edits).dedup.filter fun a =>
          a ∈ x.breakpoints.addresses.filter (· != address)) =
          ((p.additions edits).dedup.filter fun a => a ∈ x.breakpoints.addresses).filter
            (· != address) := by
        rw [List.filter_filter]
        refine List.filter_congr fun a _ => ?_
        by_cases ha : a = address <;> simp [ha]
      rw [hstill, ← List.filter_append, ← ih]
    | @notRemoved address _ hfree he =>
      rw [edited_of_ok he, addition?_clear, kept_concat_clear, Option.toList_none, List.append_nil]
      have hkept : (p.kept edits).filter (· != address) = p.kept edits := by
        refine List.filter_eq_self.mpr fun a ha => ?_
        have hmem : a ∈ x.breakpoints.addresses := by
          rw [ih]
          exact List.mem_append_left _ ha
        have hne : a ≠ address := fun hae => hfree (hae ▸ hmem)
        simpa using hne
      rw [hkept]
      exact ih

theorem of_mem_additions (hc : p.Consistent) (h : address ∈ p.additions edits) :
    Edit.set address ∈ edits ∧ ∃ hlt : address < memorySize,
      p.plain.word ⟨address, hlt⟩ ≠ breakpointWord := by
  induction edits using List.reverseRecOn with
  | nil => cases h
  | append_singleton edits e ih =>
    rw [additions_concat, List.mem_append, Option.mem_toList] at h
    rcases h with h | h
    · obtain ⟨hmem, hword⟩ := ih h
      exact ⟨List.mem_append_left _ hmem, hword⟩
    · obtain ⟨rfl, q, hq⟩ := addition?_eq_some h
      refine ⟨by simp, ?_⟩
      cases edit_cases (consistent_editedAll hc edits) (.set address) with
      | refused _ he =>
        rw [hq] at he
        cases he
      | notAdded _ _ he =>
        rw [hq] at he
        cases he
      | added hlt _ hword _ _ =>
        rw [plain_editedAll] at hword
        exact ⟨hlt, hword⟩

/-- **The table after a list of edits**: what was not cleared, in the order in which it was, and
then what was added and not cleared after that, in the order in which it was added last. -/
theorem addresses_editedAll (hc : p.Consistent) (edits : List Edit) :
    (p.editedAll edits).breakpoints.addresses =
      p.kept edits ++ (p.additions edits).dedup.filter fun a =>
        Edit.last? a edits = some (.set a) := by
  rw [addresses_eq_kept_append hc]
  congr 1
  refine List.filter_congr fun a ha => ?_
  obtain ⟨hset, hlt, hword⟩ := of_mem_additions hc (List.mem_dedup.mp ha)
  have hlast : Edit.last? a edits ≠ none := by
    intro hnone
    exact Edit.last?_eq_none_iff.mp hnone _ hset rfl
  rw [decide_eq_decide, mem_editedAll_iff hc edits ⟨a, hlt⟩ hword]
  simp [hlast]

theorem additions_map_clear (p : Patched) (as : List Nat) : p.additions (as.map .clear) = [] := by
  induction as generalizing p with
  | nil => rfl
  | cons a as ih =>
    rw [List.map_cons, additions, addition?_clear, ih]
    rfl

/-- **Clearing what is set gives the plain machine back.** -/
theorem editedAll_clear (hc : p.Consistent) :
    p.editedAll (p.breakpoints.addresses.map .clear) = ofMachine p.plain := by
  have htable := addresses_editedAll hc (p.breakpoints.addresses.map .clear)
  have hkept : p.kept (p.breakpoints.addresses.map .clear) = [] := by
    simp [kept]
  rw [hkept, additions_map_clear, List.dedup_nil, List.filter_nil, List.append_nil] at htable
  rw [← plain_editedAll p (p.breakpoints.addresses.map .clear)]
  exact eq_ofMachine_plain (List.map_eq_nil_iff.mp htable)

end Patched

/-! ## Sessions -/

namespace Session
variable {m : Machine} {history : List Event} {s : Session}

/-- **Edits can be undone.**  Let a list of edits be made, one after the other, between two runs of a
session.

* Registers, instruction pointer, mode and transcript stay as they are, and so does the view.
* An edit beyond the end of memory is refused and changes nothing.  Any other is answered by whether
  it has added, or removed, its entry of the table, and changes nothing if it has not.
* Where the program has another word than the breakpoint word, a breakpoint is set in the end if the
  last edit there has set it, or if there was no edit and it was set before.  Where the program has
  the breakpoint word, none is added, and one that was set is removed by clearing it.
* Memory has the breakpoint word where the table says so, and the view elsewhere.  With no breakpoint
  left the machine is the plain one, and clearing what is set leaves none.
* The table lists what was set before and never cleared, in the old order, and then what was added
  and not cleared again, by when it was added last. -/
theorem Reachable.edits_reversible (hs : Reachable m history s) (edits : List Edit) :
    (s.editedAll edits).machine.SameButMemory s.machine ∧
      (s.editedAll edits).plain = s.plain ∧
      (∀ before e after, edits = before ++ e :: after →
        (memorySize ≤ e.address → (s.editedAll before).edit e = .error ⟨e.address⟩ ∧
          s.editedAll (before ++ [e]) = s.editedAll before) ∧
        (e.address < memorySize → ∃ took,
          (s.editedAll before).edit e = .ok (took, s.editedAll (before ++ [e])) ∧
          (took = true ↔ e.Took (s.editedAll before).breakpoints.addresses
            (s.editedAll (before ++ [e])).breakpoints.addresses) ∧
          (took = false → s.editedAll (before ++ [e]) = s.editedAll before))) ∧
      (∀ a : Fin memorySize, s.plain.word a ≠ breakpointWord →
        (a.val ∈ (s.editedAll edits).breakpoints.addresses ↔
          Edit.last? a edits = some (.set a) ∨
            Edit.last? a edits = none ∧ a.val ∈ s.breakpoints.addresses)) ∧
      (∀ a : Fin memorySize, s.plain.word a = breakpointWord →
        (a.val ∈ (s.editedAll edits).breakpoints.addresses ↔
          a.val ∈ s.breakpoints.addresses ∧ Edit.clear a ∉ edits)) ∧
      (∀ a : Fin memorySize, (s.editedAll edits).machine.word a =
        if a.val ∈ (s.editedAll edits).breakpoints.addresses then breakpointWord
        else s.plain.word a) ∧
      ((s.editedAll edits).breakpoints = [] → (s.editedAll edits).machine = s.plain) ∧
      (s.editedAll edits).editedAll ((s.editedAll edits).breakpoints.addresses.map .clear) =
        .ofMachine s.plain ∧
      (s.editedAll edits).breakpoints.addresses =
        (s.breakpoints.addresses.filter fun a => Edit.clear a ∉ edits) ++
          (s.additions edits).dedup.filter fun a => Edit.last? a edits = some (.set a) := by
  have hc := hs.consistent
  have hedited := Patched.consistent_editedAll hc edits
  have hplain := s.toPatched.plain_editedAll edits
  refine ⟨?_, hplain, ?_, ?_, ?_, ?_, ?_, ?_, ?_⟩
  · have hsame := (s.editedAll edits).sameButMemory_plain
    rw [hplain] at hsame
    exact hsame.trans s.toPatched.sameButMemory_plain.symm
  · intro before e after _
    rw [Patched.editedAll_concat]
    exact Patched.edit_answered (Patched.consistent_editedAll hc before) e
  · exact Patched.mem_editedAll_iff hc edits
  · exact Patched.mem_editedAll_iff_of_marked hc edits
  · intro a
    rw [← hplain]
    exact Patched.word_eq_ite hedited a
  · intro hnone
    rw [Patched.eq_ofMachine_plain hnone, hplain]
    rfl
  · rw [Patched.editedAll_clear hedited, hplain]
  · exact Patched.addresses_editedAll hc edits

/-- A program has stored the breakpoint word where a breakpoint is set.  Once that is cleared it
cannot be set again; of the two that are added, the one that was cleared in between comes last. -/
theorem edits_reversible_over_stored_breakpoint :
    let m : Machine :=
      { Machine.blank with memory := Machine.memoryOf [0x0c0002, 0x050102, 0x010005, 0x000001] }
    let s := ((start m ["b 5".toList, "b 3".toList, "r".toList, "r".toList]).run 8).state
    let edits : List Edit :=
      [.set 2, .clear 5, .set 5, .set 256, .set 1, .set 3, .clear 2, .clear 2, .set 2]
    s.breakpoints = [(5, breakpointWord), (3, 1)] ∧
      (s.editedAll edits).breakpoints.addresses = [3, 1, 2] ∧
      (s.editedAll edits).editedAll [.clear 3, .clear 1, .clear 2] = .ofMachine s.plain := by
  intro m s edits
  have hs : Reachable m _ s := .run (.start _) (by decide +kernel)
  obtain ⟨-, -, -, -, -, -, -, hclear, htable⟩ := hs.edits_reversible edits
  have haddresses : (s.editedAll edits).breakpoints.addresses = [3, 1, 2] :=
    htable.trans (by decide +kernel)
  rw [haddresses] at hclear
  exact ⟨by decide +kernel, haddresses, hclear⟩

end Session
end RegisterMachine
