import RegisterMachine.Text.Blank

/-! # Taking texts apart

Everything the library reads comes as one text that is cut at some characters: a source into
lines, a line into words, a data directive into fields, a command text into commands.  All of
them are `pieces`, the parts between consecutive separators; they differ in what they do with
the piece after the last separator and in which pieces they keep.  Only what is piped is cut so
that the separators stay, into `segments`. -/

namespace RegisterMachine
namespace Text

/-- The parts of a list between consecutive separators.  A list with `n` separators has `n + 1`
pieces, some of which may be empty. -/
def pieces {α : Type} (separates : α → Bool) : List α → List (List α)
  | [] => [[]]
  | c :: rest =>
    if separates c then [] :: pieces separates rest
    else
      match pieces separates rest with
      | [] => [[c]]
      | piece :: others => (c :: piece) :: others

/-- There is always a piece. -/
theorem pieces_ne_nil {α : Type} (separates : α → Bool) (t : List α) :
    pieces separates t ≠ [] := by
  cases t with
  | nil => simp [pieces]
  | cons c rest =>
    simp only [pieces]
    split
    · simp
    · split <;> simp

/-- All pieces but an empty last one. -/
def dropFinalEmpty {α : Type} : List (List α) → List (List α)
  | [] => []
  | [piece] => if piece.isEmpty then [] else [piece]
  | piece :: next :: others => piece :: dropFinalEmpty (next :: others)

/-- The pieces of a list in which a separator *ends* a piece: nothing comes after the last
separator, unless something is left. -/
def entries {α : Type} (separates : α → Bool) (t : List α) : List (List α) :=
  dropFinalEmpty (pieces separates t)

/-- The parts of a list that end with a separator each, and what is left after the last one.  In
contrast to `entries`, the separators stay. -/
def segments {α : Type} (separates : α → Bool) : List α → List (List α)
  | [] => []
  | c :: rest =>
    if separates c then [c] :: segments separates rest
    else
      match segments separates rest with
      | [] => [[c]]
      | segment :: others => (c :: segment) :: others

/-- Removes one carriage return from the end of a text. -/
def dropReturn (t : Text) : Text :=
  if t.getLast? = some '\r' then t.dropLast else t

/-- Removes the carriage return before each line end, and the empty piece after the last one. -/
def closeLines : List Text → List Text
  | [] => []
  | [piece] => if piece.isEmpty then [] else [piece]
  | piece :: next :: others => dropReturn piece :: closeLines (next :: others)

/-- The lines of a text.  A line ends at a line feed, with a carriage return before it or not;
a carriage return elsewhere is part of its line. -/
def lines (t : Text) : List Text :=
  closeLines (pieces (· == '\n') t)

/-- The words of a text: its maximal runs of characters that are not blank, in order
(`words_eq_nil_iff`, `words_eq_cons_iff`). -/
def words (t : Text) : List Text :=
  (pieces isBlank t).filter fun piece => !piece.isEmpty

/-- A text without the blank characters it starts with. -/
def trimStart (t : Text) : Text :=
  t.dropWhile isBlank

/-- A text without the blank characters it ends with. -/
def trimEnd (t : Text) : Text :=
  (t.reverse.dropWhile isBlank).reverse

/-- A text without the blank characters around it. -/
def trim (t : Text) : Text :=
  trimEnd (trimStart t)

end Text
end RegisterMachine
