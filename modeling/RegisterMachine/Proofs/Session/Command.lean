import RegisterMachine.Proofs.Text.Numeral
import RegisterMachine.Session.Command

/-! # Which lines are commands

What a command looks like is said here without reading one: its first word is a form of its name
(`Name.forms`), and an address may come after it where the name has room for one
(`Name.capacity`, `IsAddress`).  `Worded` puts this together, and `Wrong` says of all other lines
what is wrong with them, in the order in which it is looked for: the name, then the address, then
the number of arguments.

Reading finds just that, line by line of the two relations (`read_eq_ok_iff`,
`read_eq_error_iff`). -/

namespace RegisterMachine
namespace Command

/-! ## Names -/

/-- The words that stand for a name. -/
def Name.forms : Name → List Text
  | disassemble => ["d".toList, "dis".toList]
  | memory => ["m".toList, "memory".toList]
  | step => ["s".toList, "step".toList, "n".toList, "next".toList]
  | run => ["r".toList, "run".toList]
  | quit => ["q".toList, "quit".toList]
  | setBreakpoint => ["b".toList, "break".toList]
  | clearBreakpoint => ["c".toList, "clear".toList]

/-- The number of arguments that a name has room for. -/
def Name.capacity : Name → Nat
  | setBreakpoint | clearBreakpoint => 1
  | _ => 0

/-- **A word stands for the name that it is a form of**, and for no other. -/
theorem Name.ofAlias?_eq_some_iff {word : Text} {name : Name} :
    ofAlias? word = some name ↔ word ∈ name.forms := by
  have hforms : ∀ entry ∈ aliases, entry.1 ∈ entry.2.forms := by decide
  have hfound : ∀ word ∈ name.forms, ofAlias? word = some name := by cases name <;> decide
  constructor
  · intro h
    obtain ⟨before, after, haliases, -⟩ := List.lookup_eq_some_iff.mp h
    exact hforms (word, name) (by rw [haliases]; simp)
  · exact hfound word

theorem Name.ofAlias?_eq_none_iff {word : Text} :
    ofAlias? word = none ↔ ∀ name : Name, word ∉ name.forms := by
  simp only [Option.eq_none_iff_forall_ne_some, ne_eq, ofAlias?_eq_some_iff]

/-! ## Addresses -/

/-- **An address as it is written**: a decimal numeral, or `0x` and a hexadecimal one. -/
inductive IsAddress : Text → Nat → Prop
  | decimal {t : Text} {n : Nat} (h : Text.IsNumeral t n) : IsAddress t n
  | hexadecimal {t : Text} {n : Nat} (h : Text.IsHexNumeral t n) : IsAddress ('0' :: 'x' :: t) n

theorem not_isNumeral_hexadecimal (t : Text) (n : Nat) : ¬ Text.IsNumeral ('0' :: 'x' :: t) n := by
  intro h
  cases h with
  | unsigned h => exact absurd (h.digits 'x' (by simp)) (by decide)

section Address
variable {t : Text} {n : Nat}

theorem addressNumber?_eq_some_iff :
    addressNumber? t = some n ↔ IsAddress t n ∧ n < Text.countLimit := by
  unfold addressNumber?
  split
  · rename_i digits
    rw [Text.hexNumber?_eq_some_iff]
    refine and_congr_left fun _ => ⟨.hexadecimal, fun h => ?_⟩
    cases h with
    | decimal h => exact absurd h (not_isNumeral_hexadecimal digits n)
    | hexadecimal h => exact h
  · rename_i hdecimal
    rw [Text.number?_eq_some_iff]
    refine and_congr_left fun _ => ⟨.decimal, fun h => ?_⟩
    cases h with
    | decimal h => exact h
    | @hexadecimal digits _ h => exact absurd rfl (hdecimal digits)

/-- No text stands for two addresses. -/
theorem eq_of_isAddress {found : Nat} (hfound : addressNumber? t = some found) (h : IsAddress t n)
    (hlt : n < Text.countLimit) : n = found := by
  rw [addressNumber?_eq_some_iff.mpr ⟨h, hlt⟩] at hfound
  exact Option.some.inj hfound

/-- **A text is read as an address** if it is one of memory. -/
theorem readAddress_eq_ok_iff :
    readAddress t = .ok n ↔ IsAddress t n ∧ n < memorySize := by
  have hlimit : ∀ n, n < memorySize → n < Text.countLimit := by
    have hsizes : memorySize ≤ Text.countLimit := by decide
    omega
  unfold readAddress
  split
  · rename_i hnone
    simp only [reduceCtorEq, false_iff]
    rintro ⟨haddress, hlt⟩
    rw [addressNumber?_eq_some_iff.mpr ⟨haddress, hlimit n hlt⟩] at hnone
    cases hnone
  · rename_i found hfound
    split
    · rename_i hlt
      rw [Except.ok.injEq]
      constructor
      · rintro rfl
        exact ⟨(addressNumber?_eq_some_iff.mp hfound).1, hlt⟩
      · rintro ⟨haddress, hn⟩
        exact (eq_of_isAddress hfound haddress (hlimit n hn)).symm
    · rename_i hle
      simp only [reduceCtorEq, false_iff]
      rintro ⟨haddress, hn⟩
      rw [eq_of_isAddress hfound haddress (hlimit n hn)] at hn
      exact hle hn

/-- **What can be wrong with an address.** -/
inductive Misses (t : Text) : ArgumentError → Prop
  /-- It is not written as one, or stands for a number that does not fit in 64 bits. -/
  | malformed (h : ∀ n, IsAddress t n → 2 ^ 64 ≤ n) : Misses t .malformedInteger
  /-- Memory ends before it. -/
  | outOfRange {n : Nat} (h : IsAddress t n) (hlt : n < 2 ^ 64) (hle : memorySize ≤ n) :
      Misses t (.outOfRange n)

theorem readAddress_eq_error_iff {e : ArgumentError} :
    readAddress t = .error e ↔ Misses t e := by
  unfold readAddress
  split
  · rename_i hnone
    have hmalformed : ∀ n, IsAddress t n → 2 ^ 64 ≤ n := by
      intro n haddress
      refine Nat.le_of_not_lt fun hlt => ?_
      rw [addressNumber?_eq_some_iff.mpr ⟨haddress, hlt⟩] at hnone
      cases hnone
    constructor
    · intro h
      cases h
      exact .malformed hmalformed
    · intro h
      cases h with
      | malformed _ => rfl
      | outOfRange haddress hlt _ => exact absurd hlt (Nat.not_lt.mpr (hmalformed _ haddress))
  · rename_i found hfound
    obtain ⟨haddress, hlimit⟩ := addressNumber?_eq_some_iff.mp hfound
    split
    · rename_i hlt
      simp only [reduceCtorEq, false_iff]
      intro h
      cases h with
      | malformed h => exact absurd hlimit (Nat.not_lt.mpr (h found haddress))
      | outOfRange h hn hle =>
        rw [eq_of_isAddress hfound h hn] at hle
        omega
    · rename_i hle
      constructor
      · intro h
        cases h
        exact .outOfRange haddress hlimit (Nat.le_of_not_lt hle)
      · intro h
        cases h with
        | malformed h => exact absurd hlimit (Nat.not_lt.mpr (h found haddress))
        | outOfRange h hn _ => rw [eq_of_isAddress hfound h hn]

end Address

/-! ## Arguments -/

/-- **Arguments that stand for an address of memory**, or for none. -/
inductive Gives : List Text → Option Nat → Prop
  | nothing : Gives [] none
  | address {t : Text} {n : Nat} (h : IsAddress t n) (hlt : n < memorySize) : Gives [t] (some n)

/-- **What can be wrong with the arguments after a name.**  A wrong address comes before arguments
that are too many, also if it is not the last of them. -/
inductive Misuses (name : Name) : List Text → ArgumentError → Prop
  | address {first : Text} {rest : List Text} {e : ArgumentError} (hroom : name.capacity = 1)
      (h : Misses first e) : Misuses name (first :: rest) e
  | tooMany {arguments : List Text} (hmany : name.capacity < arguments.length)
      (hfirst : name.capacity = 1 → ∃ first n, arguments.head? = some first ∧
        IsAddress first n ∧ n < memorySize) :
      Misuses name arguments (.tooMany name.capacity (min arguments.length 255))

section Arguments
variable {name : Name} {make : Option Nat → Command} {c d : Command} {arguments : List Text}
  {e : ArgumentError}

theorem gives_none_iff : Gives arguments none ↔ arguments = [] := by
  constructor
  · intro h
    cases h
    rfl
  · rintro rfl
    exact .nothing

theorem readBare_eq_ok_iff : readBare c arguments = .ok d ↔ arguments = [] ∧ c = d := by
  cases arguments <;> simp [readBare]

theorem readBare_eq_error_iff (hroom : name.capacity = 0) :
    readBare c arguments = .error e ↔ Misuses name arguments e := by
  cases arguments with
  | nil =>
    simp only [readBare, List.isEmpty_nil, if_true, reduceCtorEq, false_iff]
    intro h
    cases h with
    | tooMany hmany _ => exact absurd hmany (Nat.not_lt_zero _)
  | cons first rest =>
    have hread : readBare c (first :: rest) =
        .error (.tooMany name.capacity (min (first :: rest).length 255)) := by
      rw [hroom]
      rfl
    rw [hread, Except.error.injEq]
    constructor
    · rintro rfl
      exact .tooMany (by simp [hroom]) (by simp [hroom])
    · intro h
      cases h with
      | address hone _ => omega
      | tooMany _ _ => rfl

theorem readAddressed_eq_ok_iff :
    readAddressed make arguments = .ok d ↔ ∃ given, Gives arguments given ∧ make given = d := by
  cases arguments with
  | nil =>
    rw [readAddressed, Except.ok.injEq]
    constructor
    · exact fun h => ⟨none, .nothing, h⟩
    · rintro ⟨given, h, rfl⟩
      cases h
      rfl
  | cons first rest =>
    cases hread : readAddress first with
    | error e =>
      simp only [readAddressed, hread, reduceCtorEq, false_iff]
      rintro ⟨given, h, -⟩
      cases h with
      | address h hlt =>
        rw [readAddress_eq_ok_iff.mpr ⟨h, hlt⟩] at hread
        cases hread
    | ok n =>
      cases rest with
      | nil =>
        simp only [readAddressed, hread, List.isEmpty_nil, if_true, Except.ok.injEq]
        obtain ⟨haddress, hlt⟩ := readAddress_eq_ok_iff.mp hread
        constructor
        · exact fun h => ⟨some n, .address haddress hlt, h⟩
        · rintro ⟨given, h, rfl⟩
          cases h with
          | address h hlt' =>
            have hsame := hread.symm.trans (readAddress_eq_ok_iff.mpr ⟨h, hlt'⟩)
            rw [Except.ok.inj hsame]
      | cons second rest =>
        simp only [readAddressed, hread, List.isEmpty_cons, Bool.false_eq_true, if_false,
          reduceCtorEq, false_iff]
        rintro ⟨given, h, -⟩
        cases h

theorem readAddressed_eq_error_iff (hroom : name.capacity = 1) :
    readAddressed make arguments = .error e ↔ Misuses name arguments e := by
  cases arguments with
  | nil =>
    simp only [readAddressed, reduceCtorEq, false_iff]
    intro h
    cases h with
    | tooMany hmany _ => exact absurd hmany (Nat.not_lt_zero _)
  | cons first rest =>
    cases hread : readAddress first with
    | error found =>
      simp only [readAddressed, hread, Except.error.injEq]
      constructor
      · rintro rfl
        exact .address hroom (readAddress_eq_error_iff.mp hread)
      · intro h
        cases h with
        | address _ h =>
          exact Except.error.inj (hread.symm.trans (readAddress_eq_error_iff.mpr h))
        | tooMany _ hfirst =>
          -- the address is wrong, so it does not come to counting the arguments
          obtain ⟨_, n, hhead, haddress, hlt⟩ := hfirst hroom
          obtain rfl := Option.some.inj hhead
          rw [readAddress_eq_ok_iff.mpr ⟨haddress, hlt⟩] at hread
          cases hread
    | ok n =>
      obtain ⟨haddress, hlt⟩ := readAddress_eq_ok_iff.mp hread
      have hright : ∀ e, ¬ Misses first e := by
        intro e h
        rw [readAddress_eq_error_iff.mpr h] at hread
        cases hread
      cases rest with
      | nil =>
        simp only [readAddressed, hread, List.isEmpty_nil, if_true, reduceCtorEq, false_iff]
        intro h
        cases h with
        | address _ h => exact hright _ h
        | tooMany hmany _ => simp [hroom] at hmany
      | cons second rest =>
        have hmany : readAddressed make (first :: second :: rest) =
            .error (.tooMany name.capacity (min (first :: second :: rest).length 255)) := by
          simp [readAddressed, hread, tooMany, hroom]
        rw [hmany, Except.error.injEq]
        constructor
        · rintro rfl
          exact .tooMany (by simp [hroom]) fun _ => ⟨first, n, rfl, haddress, hlt⟩
        · intro h
          cases h with
          | address _ h => exact absurd h (hright _)
          | tooMany _ _ => rfl

/-- **Arguments are read** as what they give, for the command that the name is of. -/
theorem readArguments_eq_ok_iff :
    readArguments name arguments = .ok c ↔ c.name = name ∧ Gives arguments c.address? := by
  cases name with
  | disassemble | memory | step | run | quit =>
    rw [readArguments, readBare_eq_ok_iff]
    cases c <;> simp [Command.name, address?, gives_none_iff]
  | setBreakpoint | clearBreakpoint =>
    rw [readArguments, readAddressed_eq_ok_iff]
    cases c <;> simp [Command.name, address?]

theorem readArguments_eq_error_iff :
    readArguments name arguments = .error e ↔ Misuses name arguments e := by
  cases name with
  | disassemble | memory | step | run | quit => exact readBare_eq_error_iff rfl
  | setBreakpoint | clearBreakpoint => exact readAddressed_eq_error_iff rfl

end Arguments

/-! ## Lines -/

/-- **A command in words**: a form of its name, then its address if it has one. -/
inductive Worded : List Text → Command → Prop
  | intro {word : Text} {arguments : List Text} {c : Command} (hword : word ∈ c.name.forms)
      (h : Gives arguments c.address?) : Worded (word :: arguments) c

/-- **Words that are no command**, and what is wrong with them. -/
inductive Wrong : List Text → Error → Prop
  /-- There is nothing. -/
  | blank : Wrong [] (.unknown [])
  /-- The first word is a form of no name. -/
  | unknown {word : Text} {arguments : List Text} (h : ∀ name : Name, word ∉ name.forms) :
      Wrong (word :: arguments) (.unknown word)
  /-- The arguments are not those that the name has room for. -/
  | misused {word : Text} {arguments : List Text} {name : Name} {e : ArgumentError}
      (hword : word ∈ name.forms) (h : Misuses name arguments e) :
      Wrong (word :: arguments) (.badArgument name e)

section Lines
variable {line word : Text} {arguments : List Text} {name : Name} {c : Command} {e : Error}

theorem read_of_name (hwords : Text.words line = word :: arguments)
    (hname : Name.ofAlias? word = some name) :
    read line = (readArguments name arguments).mapError (.badArgument name) := by
  simp only [read, hwords, hname]
  cases readArguments name arguments <;> rfl

theorem read_of_no_name (hwords : Text.words line = word :: arguments)
    (hname : Name.ofAlias? word = none) : read line = .error (.unknown word) := by
  simp only [read, hwords, hname]

theorem read_eq_ok_iff : read line = .ok c ↔ Worded (Text.words line) c := by
  cases hwords : Text.words line with
  | nil =>
    simp only [read, hwords, reduceCtorEq, false_iff]
    intro h
    cases h
  | cons word arguments =>
    cases hname : Name.ofAlias? word with
    | none =>
      simp only [read_of_no_name hwords hname, reduceCtorEq, false_iff]
      intro h
      cases h with
      | intro hword _ => exact Name.ofAlias?_eq_none_iff.mp hname _ hword
    | some name =>
      rw [read_of_name hwords hname]
      have hmap : (readArguments name arguments).mapError (Error.badArgument name) = .ok c ↔
          readArguments name arguments = .ok c := by
        cases readArguments name arguments <;> simp [Except.mapError]
      rw [hmap, readArguments_eq_ok_iff]
      constructor
      · rintro ⟨rfl, hgives⟩
        exact .intro (Name.ofAlias?_eq_some_iff.mp hname) hgives
      · intro h
        cases h with
        | intro hword hgives =>
          rw [Name.ofAlias?_eq_some_iff.mpr hword] at hname
          exact ⟨Option.some.inj hname, hgives⟩

theorem read_eq_error_iff : read line = .error e ↔ Wrong (Text.words line) e := by
  cases hwords : Text.words line with
  | nil =>
    simp only [read, hwords, Except.error.injEq]
    constructor
    · rintro rfl
      exact .blank
    · intro h
      cases h
      rfl
  | cons word arguments =>
    cases hname : Name.ofAlias? word with
    | none =>
      have hunknown := Name.ofAlias?_eq_none_iff.mp hname
      rw [read_of_no_name hwords hname, Except.error.injEq]
      constructor
      · rintro rfl
        exact .unknown hunknown
      · intro h
        cases h with
        | unknown _ => rfl
        | misused hword _ => exact absurd hword (hunknown _)
    | some name =>
      have hform := Name.ofAlias?_eq_some_iff.mp hname
      rw [read_of_name hwords hname]
      have hmap : (readArguments name arguments).mapError (Error.badArgument name) = .error e ↔
          ∃ found, readArguments name arguments = .error found ∧ .badArgument name found = e := by
        cases readArguments name arguments <;> simp [Except.mapError]
      simp only [hmap, readArguments_eq_error_iff]
      constructor
      · rintro ⟨found, h, rfl⟩
        exact .misused hform h
      · intro h
        cases h with
        | unknown h => exact absurd hform (h name)
        | @misused _ _ other found hword h =>
          rw [Name.ofAlias?_eq_some_iff.mpr hword] at hname
          obtain rfl := Option.some.inj hname
          exact ⟨found, h, rfl⟩

/-- An address that stands in a command is one of memory. -/
theorem lt_of_read {address : Nat} (h : read line = .ok c) (haddress : c.address? = some address) :
    address < memorySize := by
  have hworded := read_eq_ok_iff.mp h
  generalize Text.words line = ws at hworded
  cases hworded with
  | intro _ hgives =>
    rw [haddress] at hgives
    cases hgives with
    | address _ hlt => exact hlt

end Lines

/-- **Which lines are commands.**  A line is read as a command just if its words are the command in
one of its forms, and as an error just if its words are wrong in that way; so of every line one or
the other can be said, and only one. -/
theorem read_follows_grammar (line : Text) :
    (∀ c, read line = .ok c ↔ Worded (Text.words line) c) ∧
      ∀ e, read line = .error e ↔ Wrong (Text.words line) e :=
  ⟨fun _ => read_eq_ok_iff, fun _ => read_eq_error_iff⟩

/-- The address is looked at before the arguments are counted. -/
example : read "b 0x+fF 1".toList = .error (.badArgument .setBreakpoint (.tooMany 1 2)) ∧
    read "b 0x+100 1".toList = .error (.badArgument .setBreakpoint (.outOfRange 256)) := by
  decide

end Command
end RegisterMachine
