import Mathlib.Data.List.DropRight
import Mathlib.Data.List.Forall2
import RegisterMachine.Text.Split

/-! # What cutting a text gives

Every list is free of separators, or has a first one (`separated_cases`); from what `pieces` does in
the two cases follows when it has two pieces, what the words of a text are (`words_eq_nil_iff`,
`words_eq_cons_iff`), and which words and lines a text has that was put together from them.  Lines
do not tell how they ended once they are trimmed (`map_trim_lines_withReturns`).

Cutting with and without the separators gives the same parts up to the separator at their ends
(`segments_entries`), which is why commands can be read either way. -/

namespace RegisterMachine
namespace Text

section Pieces
variable {α : Type} {separates : α → Bool} {t u x y : List α} {c : α}

/-! ## Pieces -/

theorem pieces_cons_of_separates (h : separates c = true) (t : List α) :
    pieces separates (c :: t) = [] :: pieces separates t := by
  simp [pieces, h]

/-- A character that does not separate belongs to the first piece. -/
theorem pieces_cons_of_not {piece : List α} {others : List (List α)} (h : separates c = false)
    (ht : pieces separates t = piece :: others) :
    pieces separates (c :: t) = (c :: piece) :: others := by
  simp [pieces, h, ht]

theorem pieces_of_forall_not (h : ∀ a ∈ t, separates a = false) : pieces separates t = [t] := by
  induction t with
  | nil => rfl
  | cons a t ih =>
    refine pieces_cons_of_not (h a List.mem_cons_self) (ih ?_)
    exact fun b hb => h b (List.mem_cons_of_mem _ hb)

theorem pieces_append_cons (h : ∀ a ∈ t, separates a = false) (hc : separates c = true)
    (u : List α) : pieces separates (t ++ c :: u) = t :: pieces separates u := by
  induction t with
  | nil => exact pieces_cons_of_separates hc u
  | cons a t ih =>
    refine pieces_cons_of_not (h a List.mem_cons_self) (ih ?_)
    exact fun b hb => h b (List.mem_cons_of_mem _ hb)

/-- Only what is a separator in the list counts. -/
theorem pieces_congr {separates' : α → Bool} (h : ∀ a ∈ t, separates a = separates' a) :
    pieces separates t = pieces separates' t := by
  induction t with
  | nil => rfl
  | cons a t ih =>
    rw [pieces, pieces, h a List.mem_cons_self, ih fun b hb => h b (List.mem_cons_of_mem _ hb)]

/-- A list has no separator, or has a first one. -/
theorem separated_cases (separates : α → Bool) (t : List α) :
    (∀ a ∈ t, separates a = false) ∨ ∃ before c after, t = before ++ c :: after ∧
      (∀ a ∈ before, separates a = false) ∧ separates c = true := by
  induction t with
  | nil => exact .inl (by simp)
  | cons a t ih =>
    cases ha : separates a with
    | true => exact .inr ⟨[], a, t, rfl, by simp, ha⟩
    | false =>
      rcases ih with hnone | ⟨before, c, after, rfl, hbefore, hc⟩
      · exact .inl (List.forall_mem_cons.mpr ⟨ha, hnone⟩)
      · exact .inr ⟨a :: before, c, after, rfl, List.forall_mem_cons.mpr ⟨ha, hbefore⟩, hc⟩

/-- A list without a separator that is a single character. -/
theorem forall_beq_iff {t : Text} {c : Char} : (∀ a ∈ t, (a == c) = false) ↔ c ∉ t := by
  simp only [beq_eq_false_iff_ne]
  exact ⟨fun h hmem => h c hmem rfl, fun h a ha he => h (he ▸ ha)⟩

/-- Goes through a list from one separator to the next. -/
@[elab_as_elim]
theorem separated_induction {motive : List α → Prop} (separates : α → Bool)
    (last : ∀ t, (∀ a ∈ t, separates a = false) → motive t)
    (next : ∀ before c after, (∀ a ∈ before, separates a = false) → separates c = true →
      motive after → motive (before ++ c :: after)) (t : List α) : motive t := by
  induction hn : t.length using Nat.strongRecOn generalizing t with
  | ind n ih =>
    rcases separated_cases separates t with hnone | ⟨before, c, after, rfl, hbefore, hc⟩
    · exact last t hnone
    · refine next before c after hbefore hc (ih after.length ?_ after rfl)
      simp only [List.length_append, List.length_cons] at hn
      omega

/-- **Pieces are cut at every separator.** -/
theorem pieces_append_separator (t : List α) (hc : separates c = true) (u : List α) :
    pieces separates (t ++ c :: u) = pieces separates t ++ pieces separates u := by
  induction t using separated_induction separates with
  | last t hnone =>
    rw [pieces_append_cons hnone hc, pieces_of_forall_not hnone, List.singleton_append]
  | next before d after hbefore hd ih =>
    rw [List.append_assoc, List.cons_append, pieces_append_cons hbefore hd, ih,
      pieces_append_cons hbefore hd, List.cons_append]

/-- **Two pieces** are what stands before and after the only separator. -/
theorem pieces_eq_pair_iff :
    pieces separates t = [x, y] ↔ ∃ c, separates c = true ∧ t = x ++ c :: y ∧
      (∀ a ∈ x, separates a = false) ∧ ∀ a ∈ y, separates a = false := by
  constructor
  · intro h
    rcases separated_cases separates t with hnone | ⟨before, c, after, rfl, hbefore, hc⟩
    · rw [pieces_of_forall_not hnone] at h
      cases h
    · rw [pieces_append_cons hbefore hc] at h
      obtain ⟨rfl, hafter⟩ := List.cons.inj h
      rcases separated_cases separates after with hnone | ⟨first, d, last, rfl, hfirst, hd⟩
      · rw [pieces_of_forall_not hnone] at hafter
        obtain ⟨rfl, -⟩ := List.cons.inj hafter
        exact ⟨c, hc, rfl, hbefore, hnone⟩
      · rw [pieces_append_cons hfirst hd] at hafter
        exact absurd (List.cons.inj hafter).2 (pieces_ne_nil separates last)
  · rintro ⟨c, hc, rfl, hx, hy⟩
    rw [pieces_append_cons hx hc, pieces_of_forall_not hy]

/-! ## Entries and segments -/

theorem entries_of_forall_not (h : ∀ a ∈ t, separates a = false) :
    entries separates t = if t.isEmpty then [] else [t] := by
  rw [entries, pieces_of_forall_not h, dropFinalEmpty]

theorem entries_append_cons (h : ∀ a ∈ t, separates a = false) (hc : separates c = true)
    (u : List α) : entries separates (t ++ c :: u) = t :: entries separates u := by
  obtain ⟨first, others, hp⟩ := List.exists_cons_of_ne_nil (pieces_ne_nil separates u)
  rw [entries, entries, pieces_append_cons h hc, hp, dropFinalEmpty]

theorem segments_of_forall_not (h : ∀ a ∈ t, separates a = false) :
    segments separates t = if t.isEmpty then [] else [t] := by
  induction t with
  | nil => rfl
  | cons a t ih =>
    have ha := h a List.mem_cons_self
    have hsegments := ih fun b hb => h b (List.mem_cons_of_mem _ hb)
    cases t with
    | nil => simp [segments, ha]
    | cons b t =>
      rw [segments, hsegments, ha]
      rfl

theorem segments_append_cons (h : ∀ a ∈ t, separates a = false) (hc : separates c = true)
    (u : List α) : segments separates (t ++ c :: u) = (t ++ [c]) :: segments separates u := by
  induction t with
  | nil => simp [segments, hc]
  | cons a t ih =>
    have ha := h a List.mem_cons_self
    have hsegments := ih fun b hb => h b (List.mem_cons_of_mem _ hb)
    simp [segments, ha, hsegments]

/-- **A segment is an entry and the separator that ends it**, which the last one may lack. -/
theorem segments_entries (separates : α → Bool) (t : List α) :
    List.Forall₂ (fun segment entry =>
      segment = entry ∨ ∃ c, separates c = true ∧ segment = entry ++ [c])
      (segments separates t) (entries separates t) := by
  induction t using separated_induction separates with
  | last t hnone =>
    rw [segments_of_forall_not hnone, entries_of_forall_not hnone]
    split
    · exact .nil
    · exact .cons (.inl rfl) .nil
  | next before c after hbefore hc ih =>
    rw [segments_append_cons hbefore hc, entries_append_cons hbefore hc]
    exact .cons (.inr ⟨c, hc, rfl⟩) ih

end Pieces

/-! ## Trimming -/

/-- A blank at the end of a text makes no difference once it is trimmed. -/
theorem trim_append_blank {c : Char} (t : Text) (h : isBlank c = true) :
    trim (t ++ [c]) = trim t := by
  have hend : ∀ u : Text, trimEnd (u ++ [c]) = trimEnd u := by
    intro u
    simp [trimEnd, h]
  unfold trim trimStart
  rw [List.dropWhile_append]
  split
  · rename_i hempty
    rw [List.isEmpty_iff.mp hempty]
    simp [h]
  · exact hend _

/-- **A text that neither starts nor ends with a blank** has nothing to trim. -/
theorem trim_eq_self {t : Text} (hfirst : ∀ c ∈ t.head?, isBlank c = false)
    (hlast : ∀ c ∈ t.getLast?, isBlank c = false) : trim t = t := by
  have hdrop : ∀ u : Text, (∀ c ∈ u.head?, isBlank c = false) → u.dropWhile isBlank = u := by
    intro u hu
    cases u with
    | nil => rfl
    | cons c u => rw [List.dropWhile_cons_of_neg (by simp [hu c rfl])]
  rw [trim, trimStart, hdrop t hfirst, trimEnd, hdrop _ (by simpa using hlast),
    List.reverse_reverse]

theorem trim_of_forall_not_blank {t : Text} (h : ∀ c ∈ t, isBlank c = false) : trim t = t :=
  trim_eq_self (fun c hc => h c (List.mem_of_mem_head? hc)) fun c hc =>
    h c (List.mem_of_mem_getLast? hc)

/-- Trimming leaves nothing to trim. -/
theorem trim_trim (t : Text) : trim (trim t) = trim t := by
  have hstart : trimStart (trim t) = trim t := by
    have hprefix : trim t <+: trimStart t := List.rdropWhile_prefix isBlank (trimStart t)
    cases ht : trim t with
    | nil => rfl
    | cons c rest =>
      rw [ht] at hprefix
      obtain ⟨others, hothers⟩ := hprefix
      -- the first character is the one at which the blanks before it ended
      have hhead := List.head?_dropWhile_not isBlank t
      rw [show t.dropWhile isBlank = c :: rest ++ others from hothers.symm] at hhead
      exact List.dropWhile_cons_of_neg (by simpa using hhead)
  rw [trim, hstart, trim]
  exact List.rdropWhile_idempotent isBlank (trimStart t)

/-- A text that is not empty once it is trimmed ends with a character that is not blank. -/
theorem exists_not_blank_of_trim {t : Text} (h : trim t ≠ []) :
    ∃ c ∈ trim t, isBlank c = false := by
  rw [trim, trimEnd] at h ⊢
  have hne : (trimStart t).reverse.dropWhile isBlank ≠ [] := by simpa using h
  refine ⟨_, List.mem_reverse.mpr (List.head_mem hne), ?_⟩
  exact List.head_dropWhile_not isBlank hne

/-! ## Words -/

/-- **A word**: some characters, none of which is blank. -/
structure IsWord (t : Text) : Prop where
  nonempty : t ≠ []
  unbroken : ∀ c ∈ t, isBlank c = false

theorem IsWord.words_eq {t : Text} (h : IsWord t) : words t = [t] := by
  have hempty : t.isEmpty = false := by simpa using h.nonempty
  simp [words, pieces_of_forall_not h.unbroken, hempty]

/-- **A blank divides words.** -/
theorem words_append_cons {c : Char} (t : Text) (h : isBlank c = true) (u : Text) :
    words (t ++ c :: u) = words t ++ words u := by
  rw [words, pieces_append_separator t h, List.filter_append]
  rfl

/-- Blanks at the front make no difference. -/
theorem words_blanks_append {gap : Text} (h : ∀ c ∈ gap, isBlank c = true) (t : Text) :
    words (gap ++ t) = words t := by
  induction gap with
  | nil => rfl
  | cons c gap ih =>
    obtain ⟨hc, hgap⟩ := List.forall_mem_cons.mp h
    calc words (c :: (gap ++ t)) = words [] ++ words (gap ++ t) := words_append_cons [] hc _
      _ = words t := ih hgap

/-- Only a text of blanks has no words. -/
theorem words_eq_nil_iff {t : Text} : words t = [] ↔ ∀ c ∈ t, isBlank c = true := by
  induction t with
  | nil => simp [words, pieces]
  | cons c t ih =>
    cases hc : isBlank c with
    | true =>
      have hwords : words (c :: t) = words t := words_append_cons [] hc t
      rw [hwords, ih, List.forall_mem_cons, and_iff_right hc]
    | false =>
      obtain ⟨piece, others, hp⟩ := List.exists_cons_of_ne_nil (pieces_ne_nil isBlank t)
      simp [words, pieces_cons_of_not hc hp, hc]

/-- **The first word of a text** comes after nothing but blanks and goes on up to a blank or the end
of the text; the other words are those of what is left.  So the words of a text are its maximal runs
of characters that are not blank, in order. -/
theorem words_eq_cons_iff {t word : Text} {others : List Text} :
    words t = word :: others ↔ ∃ gap rest, t = gap ++ word ++ rest ∧
      (∀ c ∈ gap, isBlank c = true) ∧ IsWord word ∧ (∀ c ∈ rest.head?, isBlank c = true) ∧
      words rest = others := by
  constructor
  · intro h
    induction t using separated_induction isBlank with
    | last t hnone =>
      have hne : t ≠ [] := by
        rintro rfl
        simp [words, pieces] at h
      have hword : IsWord t := ⟨hne, hnone⟩
      rw [hword.words_eq] at h
      obtain ⟨rfl, rfl⟩ := List.cons.inj h
      exact ⟨[], [], by simp, by simp, hword, by simp, rfl⟩
    | next before c after hbefore hc ih =>
      rw [words_append_cons before hc] at h
      cases before with
      | nil =>
        obtain ⟨gap, rest, rfl, hgap, hword, hrest, hothers⟩ := ih h
        exact ⟨c :: gap, rest, rfl, List.forall_mem_cons.mpr ⟨hc, hgap⟩, hword, hrest, hothers⟩
      | cons b before =>
        have hword : IsWord (b :: before) := ⟨List.cons_ne_nil b before, hbefore⟩
        rw [hword.words_eq] at h
        obtain ⟨rfl, rfl⟩ := List.cons.inj h
        exact ⟨[], c :: after, rfl, by simp, hword, by simp [hc], words_append_cons [] hc after⟩
  · rintro ⟨gap, rest, rfl, hgap, hword, hrest, rfl⟩
    rw [List.append_assoc, words_blanks_append hgap]
    cases rest with
    | nil =>
      rw [List.append_nil, hword.words_eq]
      rfl
    | cons c rest =>
      have hc : isBlank c = true := hrest c rfl
      rw [words_append_cons word hc, hword.words_eq]
      exact congrArg (word :: ·) (words_append_cons [] hc rest).symm

theorem isWord_of_mem_words {t word : Text} (h : word ∈ words t) : IsWord word := by
  induction hwords : words t generalizing t with
  | nil =>
    rw [hwords] at h
    cases h
  | cons first others ih =>
    obtain ⟨gap, rest, -, -, hfirst, -, hrest⟩ := words_eq_cons_iff.mp hwords
    rw [hwords] at h
    rcases List.mem_cons.mp h with rfl | h
    · exact hfirst
    · exact ih (hrest ▸ h) hrest

/-- **Words with blanks before them** are found again. -/
theorem words_append_flatMap {c : Char} {gap : Text} {ts : List Text} (t : Text)
    (hc : isBlank c = true) (hgap : ∀ b ∈ gap, isBlank b = true) (hts : ∀ u ∈ ts, IsWord u) :
    words (t ++ ts.flatMap fun u => c :: gap ++ u) = words t ++ ts := by
  induction ts generalizing t with
  | nil => simp
  | cons u ts ih =>
    obtain ⟨hu, hrest⟩ := List.forall_mem_cons.mp hts
    rw [List.flatMap_cons, List.cons_append, List.cons_append, words_append_cons t hc,
      List.append_assoc, words_blanks_append hgap, ih u hrest, hu.words_eq, List.singleton_append]

/-- A text of words ends with a character of one of them. -/
theorem exists_mem_of_getLast? {c : Char} {t : Text} {ts : List Text} (hts : ∀ u ∈ ts, u ≠ [])
    (h : c ∈ (t ++ ts.flatMap fun u => ' ' :: u).getLast?) : ∃ u ∈ t :: ts, c ∈ u := by
  induction ts generalizing t with
  | nil =>
    rw [List.flatMap_nil, List.append_nil] at h
    exact ⟨t, List.mem_cons_self, List.mem_of_mem_getLast? h⟩
  | cons u ts ih =>
    obtain ⟨hu, hts⟩ := List.forall_mem_cons.mp hts
    have hne : u ++ ts.flatMap (fun u => ' ' :: u) ≠ [] := by simp [hu]
    rw [List.flatMap_cons, List.cons_append, List.append_cons, List.getLast?_append_of_ne_nil _ hne]
      at h
    obtain ⟨v, hv, hc⟩ := ih hts h
    exact ⟨v, List.mem_cons_of_mem t hv, hc⟩

/-! ## Lines -/

theorem closeLines_cons {piece : Text} {others : List Text} (h : others ≠ []) :
    closeLines (piece :: others) = dropReturn piece :: closeLines others := by
  cases others with
  | nil => exact absurd rfl h
  | cons next others => rfl

theorem lines_of_notMem {t : Text} (h : '\n' ∉ t) : lines t = if t.isEmpty then [] else [t] := by
  rw [lines, pieces_of_forall_not (forall_beq_iff.mpr h), closeLines]

/-- **A line feed ends a line.** -/
theorem lines_append_cons {t : Text} (h : '\n' ∉ t) (u : Text) :
    lines (t ++ '\n' :: u) = dropReturn t :: lines u := by
  rw [lines, lines, pieces_append_cons (forall_beq_iff.mpr h) (by simp),
    closeLines_cons (pieces_ne_nil _ _)]

theorem dropReturn_concat (t : Text) : dropReturn (t ++ ['\r']) = t := by
  simp [dropReturn]

/-- A carriage return at the end of a line is blank. -/
theorem trim_dropReturn (t : Text) : trim (dropReturn t) = trim t := by
  rcases List.eq_nil_or_concat t with rfl | ⟨front, c, rfl⟩
  · rfl
  · rw [List.concat_eq_append]
    by_cases hc : c = '\r'
    · rw [hc, dropReturn_concat, trim_append_blank front (by decide)]
    · simp [dropReturn, hc]

/-- **A text on one line**: there is no line end in it. -/
def OneLine (t : Text) : Prop :=
  ∀ c ∈ t, c ≠ '\n' ∧ c ≠ '\r'

instance (t : Text) : Decidable (OneLine t) :=
  List.decidableBAll _ t

theorem OneLine.append {t u : Text} (ht : OneLine t) (hu : OneLine u) : OneLine (t ++ u) :=
  fun c hc => (List.mem_append.mp hc).elim (ht c) (hu c)

theorem OneLine.newline_notMem {t : Text} (h : OneLine t) : '\n' ∉ t :=
  fun hmem => (h _ hmem).1 rfl

theorem OneLine.dropReturn_eq {t : Text} (h : OneLine t) : dropReturn t = t :=
  if_neg fun hlast => (h _ (List.mem_of_getLast? hlast)).2 rfl

/-- **The lines of a text that was put together from lines.** -/
theorem lines_flatMap {ts : List Text} (h : ∀ t ∈ ts, OneLine t) :
    lines (ts.flatMap (· ++ ['\n'])) = ts := by
  induction ts with
  | nil => rfl
  | cons t ts ih =>
    obtain ⟨ht, hts⟩ := List.forall_mem_cons.mp h
    rw [List.flatMap_cons, List.append_assoc, List.singleton_append,
      lines_append_cons ht.newline_notMem, ih hts, ht.dropReturn_eq]

/-- **The lines of a text that was put together with line feeds between them.** -/
theorem lines_intercalate {ts : List Text} (h : ∀ t ∈ ts, OneLine t) (hne : ∀ t ∈ ts, t ≠ []) :
    lines (['\n'].intercalate ts) = ts := by
  induction ts with
  | nil => rfl
  | cons t ts ih =>
    obtain ⟨ht, hts⟩ := List.forall_mem_cons.mp h
    obtain ⟨hnet, hne⟩ := List.forall_mem_cons.mp hne
    cases ts with
    | nil => simp [List.intercalate_singleton, lines_of_notMem ht.newline_notMem, hnet]
    | cons u ts =>
      rw [List.intercalate_cons_cons, List.append_assoc, List.singleton_append,
        lines_append_cons ht.newline_notMem, ih hts hne, ht.dropReturn_eq]

theorem intercalate_append {ts : List Text} (h : ts ≠ []) (t : Text) :
    t.intercalate ts ++ t = ts.flatMap (· ++ t) := by
  induction ts with
  | nil => exact absurd rfl h
  | cons u ts ih =>
    cases ts with
    | nil => simp
    | cons v ts =>
      rw [List.flatMap_cons, List.intercalate_cons_cons, List.append_assoc,
        ih (List.cons_ne_nil v ts)]

/-- A text with a carriage return before every line feed. -/
def withReturns (t : Text) : Text :=
  t.flatMap fun c => if c = '\n' then ['\r', '\n'] else [c]

theorem withReturns_of_notMem {t : Text} (h : '\n' ∉ t) : withReturns t = t := by
  have hself : ∀ c ∈ t, (if c = '\n' then ['\r', '\n'] else [c]) = [c] := by
    intro c hc
    refine if_neg ?_
    rintro rfl
    exact h hc
  rw [withReturns, List.flatMap_congr hself, List.flatMap_singleton']

/-- **Line ends do not matter** once lines are trimmed. -/
theorem map_trim_lines_withReturns (t : Text) :
    (lines (withReturns t)).map trim = (lines t).map trim := by
  induction t using separated_induction (· == '\n') with
  | last t hnone =>
    rw [withReturns_of_notMem (forall_beq_iff.mp hnone)]
  | next before c after hbefore hc ih =>
    have hend : '\n' ∉ before := forall_beq_iff.mp hbefore
    obtain rfl : c = '\n' := by simpa using hc
    have hreturn : '\n' ∉ before ++ ['\r'] := by simp [hend]
    have hsplit : withReturns (before ++ '\n' :: after) =
        (before ++ ['\r']) ++ '\n' :: withReturns after := by
      have hfront := withReturns_of_notMem hend
      rw [withReturns] at hfront
      simp [withReturns, hfront]
    rw [hsplit, lines_append_cons hreturn, lines_append_cons hend, dropReturn_concat, List.map_cons,
      List.map_cons, trim_dropReturn, ih]

end Text
end RegisterMachine
