import RegisterMachine.Proofs.Text.Utf8
import RegisterMachine.Session.Cursor

/-! # What a cursor reads

A cursor moves by the bytes of the characters that it passes, and by one more for the character that
ends a command.  That character is one byte long, so the cursor stands between two characters
afterwards, or one byte past the end of its text if there was nothing to move past (`Placed`).  From
such a place a read gives what a read of the script gives, and leads to such a place again
(`Placed.read_next`), so the cursor never ends up inside of a character.

What all reads give is therefore the script of the text, followed by nothing however often one reads
on (`Placed.reads_eq`).  How a script lies in its text is said by `Cut`: there is one way to cut a
text, and it is the script (`cut_iff`). -/

namespace RegisterMachine
namespace Script

theorem endsCommand_iff {c : Char} : endsCommand c = true ↔ c = ';' ∨ c = '\n' := by
  simp [endsCommand]

theorem endsCommand_eq_false_iff {c : Char} : endsCommand c = false ↔ c ≠ ';' ∧ c ≠ '\n' := by
  simp [endsCommand]

/-- A character that ends a command is one byte long. -/
theorem utf8Size_of_endsCommand {c : Char} (h : endsCommand c = true) : c.utf8Size = 1 := by
  rcases endsCommand_iff.mp h with rfl | rfl <;> decide

theorem ofText_of_forall_not {t : Text} (h : ∀ c ∈ t, endsCommand c = false) :
    ofText t = if t.isEmpty then [] else [t] :=
  Text.entries_of_forall_not h

theorem ofText_cons {before after : Text} {c : Char} (h : ∀ a ∈ before, endsCommand a = false)
    (hc : endsCommand c = true) : ofText (before ++ c :: after) = before :: ofText after :=
  Text.entries_append_cons h hc after

theorem next_eq (script : Script) : script.next = (script.head?, script.tail) := by
  cases script <;> rfl

theorem filter_of_forall_not {t : Text} (h : ∀ c ∈ t, endsCommand c = false) :
    t.filter endsCommand = [] :=
  List.filter_eq_nil_iff.mpr fun c hc => by simp [h c hc]

theorem filter_cons {before after : Text} {c : Char} (h : ∀ a ∈ before, endsCommand a = false)
    (hc : endsCommand c = true) :
    (before ++ c :: after).filter endsCommand = c :: after.filter endsCommand := by
  rw [List.filter_append, filter_of_forall_not h, List.nil_append, List.filter_cons_of_pos hc]

/-! ## How a script lies in its text -/

/-- Pieces put together, each with the character that ends it as long as there are any. -/
def rejoined : List Text → Text → Text
  | [], _ => []
  | piece :: others, [] => piece ++ rejoined others []
  | piece :: others, c :: ends => piece ++ c :: rejoined others ends

/-- **How a text is cut**: into pieces and the semicolons and line ends between them, with one more
at the end of the last piece or without.  A last piece without one is not empty. -/
structure Cut (t : Text) (pieces : List Text) (ends : Text) : Prop where
  whole : rejoined pieces ends = t
  unbroken : ∀ piece ∈ pieces, ∀ c ∈ piece, c ≠ ';' ∧ c ≠ '\n'
  ended : ∀ c ∈ ends, c = ';' ∨ c = '\n'
  last : pieces.length = ends.length ∨
    pieces.length = ends.length + 1 ∧ pieces.getLast? ≠ some []

namespace Cut
variable {t piece : Text} {pieces : List Text} {ends : Text} {c : Char}

theorem free (h : Cut t (piece :: pieces) ends) : ∀ a ∈ piece, endsCommand a = false :=
  fun a ha => endsCommand_eq_false_iff.mpr (h.unbroken piece List.mem_cons_self a ha)

/-- What comes after the first piece and its end is cut as well. -/
theorem tail (h : Cut t (piece :: pieces) (c :: ends)) :
    endsCommand c = true ∧ t = piece ++ c :: rejoined pieces ends ∧
      Cut (rejoined pieces ends) pieces ends := by
  obtain ⟨hc, hends⟩ := List.forall_mem_cons.mp h.ended
  refine ⟨endsCommand_iff.mpr hc, h.whole.symm, rfl, (List.forall_mem_cons.mp h.unbroken).2, hends,
    ?_⟩
  rcases h.last with hlength | ⟨hlength, hlast⟩
  · exact .inl (Nat.succ.inj hlength)
  · have hlength' : pieces.length = ends.length + 1 := Nat.succ.inj hlength
    refine .inr ⟨hlength', ?_⟩
    -- the last of all pieces is one of those that are left
    cases pieces with
    | nil => simp at hlength'
    | cons next pieces => rwa [List.getLast?_cons_cons] at hlast

/-- **However a text is cut**, the pieces are its script, and between them are all the characters
that end a command. -/
theorem unique (h : Cut t pieces ends) : pieces = ofText t ∧ ends = t.filter endsCommand := by
  induction pieces generalizing t ends with
  | nil =>
    have hends : ends = [] := by
      rcases h.last with hlength | ⟨hlength, -⟩
      · exact List.length_eq_zero_iff.mp hlength.symm
      · cases hlength
    obtain rfl := hends
    obtain rfl := h.whole
    exact ⟨rfl, rfl⟩
  | cons piece pieces ih =>
    have hfree := h.free
    cases ends with
    | nil =>
      -- no end is left, so this piece is the last one and not empty
      have hsingle : pieces = [] ∧ piece ≠ [] := by
        rcases h.last with hlength | ⟨hlength, hlast⟩
        · cases hlength
        · obtain rfl := List.length_eq_zero_iff.mp (Nat.succ.inj hlength)
          exact ⟨rfl, fun he => hlast (by rw [he]; rfl)⟩
      obtain ⟨rfl, hne⟩ := hsingle
      have htext : t = piece := by
        rw [← h.whole]
        exact List.append_nil piece
      subst htext
      exact ⟨by simp [ofText_of_forall_not hfree, hne], (filter_of_forall_not hfree).symm⟩
    | cons c ends =>
      obtain ⟨hc, rfl, htail⟩ := h.tail
      obtain ⟨hpieces, hends⟩ := ih htail
      exact ⟨by rw [ofText_cons hfree hc, ← hpieces], by rw [filter_cons hfree hc, ← hends]⟩

/-- A text can be cut. -/
theorem ofText (t : Text) : Cut t (Script.ofText t) (t.filter endsCommand) := by
  induction t using Text.separated_induction endsCommand with
  | last t hnone =>
    rw [ofText_of_forall_not hnone, filter_of_forall_not hnone]
    by_cases hempty : t = []
    · subst hempty
      exact ⟨rfl, by simp, by simp, .inl rfl⟩
    · have hpiece : (if t.isEmpty then [] else [t]) = [t] := by simp [hempty]
      rw [hpiece]
      refine ⟨List.append_nil t, ?_, by simp, .inr ⟨rfl, by simpa using hempty⟩⟩
      intro piece hmem c hc
      rw [List.mem_singleton.mp hmem] at hc
      exact endsCommand_eq_false_iff.mp (hnone c hc)
  | next before c after hbefore hc ih =>
    rw [ofText_cons hbefore hc, filter_cons hbefore hc]
    refine ⟨?_, ?_, ?_, ?_⟩
    · rw [rejoined, ih.whole]
    · refine List.forall_mem_cons.mpr ⟨fun a ha => ?_, ih.unbroken⟩
      exact endsCommand_eq_false_iff.mp (hbefore a ha)
    · exact List.forall_mem_cons.mpr ⟨endsCommand_iff.mp hc, ih.ended⟩
    · rcases ih.last with hlength | ⟨hlength, hlast⟩
      · exact .inl (congrArg (· + 1) hlength)
      · refine .inr ⟨congrArg (· + 1) hlength, ?_⟩
        obtain ⟨piece, others, hpieces⟩ :=
          List.exists_cons_of_length_eq_add_one hlength
        rw [hpieces, List.getLast?_cons_cons, ← hpieces]
        exact hlast

end Cut

/-- **There is one way to cut a text**, and the pieces are its script. -/
theorem cut_iff {t : Text} {pieces : List Text} {ends : Text} :
    Cut t pieces ends ↔ pieces = ofText t ∧ ends = t.filter endsCommand := by
  constructor
  · exact Cut.unique
  · rintro ⟨rfl, rfl⟩
    exact .ofText t

/-! ## Where a cursor stands -/

namespace Cursor

theorem stop_of_forall_not {t : Text} (h : ∀ c ∈ t, endsCommand c = false) (position : Nat) :
    stop position t = position + Text.byteLength t := by
  induction t generalizing position with
  | nil => rfl
  | cons c t ih =>
    obtain ⟨hc, ht⟩ := List.forall_mem_cons.mp h
    simp only [stop, hc, Bool.false_eq_true, if_false, ih ht, Text.byteLength_cons, Nat.add_assoc]

theorem stop_append_cons {t : Text} {c : Char} (h : ∀ a ∈ t, endsCommand a = false)
    (hc : endsCommand c = true) (position : Nat) (rest : Text) :
    stop position (t ++ c :: rest) = position + Text.byteLength t := by
  induction t generalizing position with
  | nil => simp [stop, hc]
  | cons a t ih =>
    obtain ⟨ha, ht⟩ := List.forall_mem_cons.mp h
    simp only [List.cons_append, stop, ha, Bool.false_eq_true, if_false, ih ht,
      Text.byteLength_cons, Nat.add_assoc]

/-- **Where a cursor can stand**, and what is still to be read from there: between two characters,
or one byte past the end of the text. -/
inductive Placed (r : Cursor) : Text → Prop
  | within {front rest : Text} (htext : r.text = front ++ rest)
      (hposition : r.position = Text.byteLength front) : Placed r rest
  | past (hposition : r.position = Text.byteLength r.text + 1) : Placed r []

variable {r : Cursor} {front rest : Text}

theorem read_of_le (h : Text.byteLength r.text ≤ r.position) : r.read = .ok (none, r) := by
  simp [read, h]

/-- A read from between two characters gives what stands before the next end of a command. -/
theorem read_of_stop (part after : Text) (htext : r.text = front ++ (part ++ after))
    (hposition : r.position = Text.byteLength front) (hne : part ++ after ≠ [])
    (hstop : stop r.position (part ++ after) = r.position + Text.byteLength part) :
    r.read = .ok (some part, { r with position := r.position + Text.byteLength part + 1 }) := by
  have hlt : ¬ Text.byteLength r.text ≤ r.position := by
    have hpos : Text.byteLength (part ++ after) ≠ 0 := mt Text.byteLength_eq_zero_iff.mp hne
    rw [htext, Text.byteLength_append front, hposition]
    omega
  have hsplit : Text.splitAtByte? r.text r.position = some (front, part ++ after) :=
    Text.splitAtByte?_eq_some_iff.mpr ⟨htext, hposition.symm⟩
  have hslice : Text.slice? r.text r.position (r.position + Text.byteLength part) = some part := by
    rw [htext, hposition]
    exact Text.slice?_append front part after
  simp only [read, hlt, if_false, hsplit, hstop, hslice]

/-- **A read of the cursor is a read of the script**, and leaves the cursor where a cursor can stand,
with what is left of the script before it. -/
theorem Placed.read_next (h : r.Placed rest) :
    ∃ next left, r.read = .ok ((Script.ofText rest).next.1, next) ∧ next.Placed left ∧
      Script.ofText left = (Script.ofText rest).next.2 := by
  cases h with
  | past hposition => exact ⟨r, [], read_of_le (by omega), .past hposition, rfl⟩
  | @within front _ htext hposition =>
    rcases Text.separated_cases endsCommand rest with hnone | ⟨part, c, after, rfl, hpart, hc⟩
    · by_cases hempty : rest = []
      · subst hempty
        have hend : Text.byteLength r.text ≤ r.position := by
          rw [htext, List.append_nil, hposition]
        exact ⟨r, [], read_of_le hend, .within htext hposition, rfl⟩
      · -- nothing ends the last command, so the cursor moves past the end of the text
        have hscript : Script.ofText rest = [rest] := by
          simp [ofText_of_forall_not hnone, hempty]
        have hread := read_of_stop rest [] (by rw [List.append_nil]; exact htext) hposition
          (by rwa [List.append_nil]) (by rw [List.append_nil]; exact stop_of_forall_not hnone _)
        refine ⟨_, [], by rw [hscript]; exact hread, .past ?_, by rw [hscript]; rfl⟩
        show r.position + Text.byteLength rest + 1 = Text.byteLength r.text + 1
        rw [htext, Text.byteLength_append, hposition]
    · -- the cursor moves past the character that ends the command, which is one byte long
      rw [ofText_cons hpart hc]
      have hread := read_of_stop part (c :: after) htext hposition (by simp)
        (stop_append_cons hpart hc _ after)
      refine ⟨_, after, hread, @Placed.within _ (front ++ (part ++ [c])) after ?_ ?_, rfl⟩
      · simp [htext]
      · show r.position + Text.byteLength part + 1 = _
        simp only [Text.byteLength_append, Text.byteLength_cons, Text.byteLength_nil,
          utf8Size_of_endsCommand hc, hposition]
        omega

/-- **All reads together** give the commands that are left, one after the other, and nothing after
the last of them. -/
theorem Placed.reads_eq (h : r.Placed rest) (count : Nat) :
    ∃ last, r.reads count =
      .ok ((List.range count).map fun k => (Script.ofText rest)[k]?, last) := by
  induction count generalizing r rest with
  | zero => exact ⟨r, rfl⟩
  | succ count ih =>
    obtain ⟨next, left, hread, hplaced, hleft⟩ := h.read_next
    obtain ⟨last, hreads⟩ := ih hplaced
    refine ⟨last, ?_⟩
    rw [next_eq] at hread hleft
    rw [hleft] at hreads
    simp only [reads, hread, hreads]
    rw [List.range_succ_eq_map, List.map_cons, List.map_map, List.head?_eq_getElem?]
    simp only [List.getElem?_tail, Function.comp_def, Nat.succ_eq_add_one]

theorem placed_ofText (t : Text) : (ofText t).Placed t :=
  @Placed.within _ [] t rfl rfl

/-- **Reading a text of commands.**

* There is one way to cut the text into pieces without semicolons and line ends, so that the pieces
  with these characters put back between them are the text, the last piece ends with one of them or
  not, and is not empty if it does not.
* However often a cursor on the text is read, no read fails, and the reads give just these pieces in
  their order, and after the last of them the end of the script every time. -/
theorem reads_pieces (t : Text) :
    (∀ pieces ends, Cut t pieces ends ↔
      pieces = Script.ofText t ∧ ends = t.filter endsCommand) ∧
      ∀ count, ∃ last, (ofText t).reads count =
        .ok ((List.range count).map fun k => (Script.ofText t)[k]?, last) :=
  ⟨fun _ _ => cut_iff, (placed_ofText t).reads_eq⟩

/-- An umlaut is two bytes long, and the last command is read though nothing ends it. -/
example : (ofText "ä;\nb 1".toList).reads 4 =
    .ok ([some "ä".toList, some [], some "b 1".toList, none], ⟨"ä;\nb 1".toList, 8⟩) := by
  decide

end Cursor
end Script
end RegisterMachine
