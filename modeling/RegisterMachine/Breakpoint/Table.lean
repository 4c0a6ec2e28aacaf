import RegisterMachine.Word

/-! # The breakpoint table

Where a breakpoint is set, memory holds the breakpoint word, and the table holds the word that
belongs there.  Breakpoints are listed in the order in which they were set: saving another word
for one keeps its place. -/

namespace RegisterMachine

/-- The words that belong where breakpoints are set, by address. -/
abbrev Breakpoints := List (Nat × Word)

namespace Breakpoints

/-- The word that belongs at an address with a breakpoint. -/
def saved? (table : Breakpoints) (address : Nat) : Option Word :=
  table.lookup address

/-- Whether a breakpoint is set at an address. -/
def isSet (table : Breakpoints) (address : Nat) : Bool :=
  (table.saved? address).isSome

/-- The addresses at which breakpoints are set. -/
def addresses (table : Breakpoints) : List Nat :=
  table.map Prod.fst

/-- Saves the word for an address: in its place if it has one, else at the end. -/
def save (address : Nat) (w : Word) : Breakpoints → Breakpoints
  | [] => [(address, w)]
  | (known, old) :: rest =>
    if known = address then (known, w) :: rest else (known, old) :: save address w rest

/-- Forgets an address. -/
def forget (address : Nat) (table : Breakpoints) : Breakpoints :=
  table.filter fun entry => entry.1 != address

/-! ## Looking up -/

theorem saved?_nil (address : Nat) : saved? [] address = none := rfl

theorem saved?_cons (known : Nat) (w : Word) (rest : Breakpoints) (address : Nat) :
    saved? ((known, w) :: rest) address =
      if address = known then some w else saved? rest address := by
  by_cases h : address = known
  · simp [saved?, h]
  · have hne : (address == known) = false := by simp [h]
    simp [saved?, List.lookup_cons, hne, h]

@[simp] theorem saved?_save_self (address : Nat) (w : Word) (table : Breakpoints) :
    (save address w table).saved? address = some w := by
  induction table with
  | nil => simp [save, saved?_cons]
  | cons entry rest ih =>
    obtain ⟨known, old⟩ := entry
    by_cases h : known = address
    · simp [save, h, saved?_cons]
    · have h' : address ≠ known := fun he => h he.symm
      simp [save, h, h', saved?_cons, ih]

theorem saved?_save_of_ne {address other : Nat} (w : Word) (table : Breakpoints)
    (h : other ≠ address) : (save address w table).saved? other = table.saved? other := by
  induction table with
  | nil => simp [save, saved?_cons, h]
  | cons entry rest ih =>
    obtain ⟨known, old⟩ := entry
    by_cases hk : known = address
    · subst hk
      simp [save, saved?_cons, h]
    · simp [save, hk, saved?_cons, ih]

end Breakpoints
end RegisterMachine
