import RegisterMachine.Assembly.Error
import RegisterMachine.Word

/-! # Labels

A label names an address.  One in the code names the instruction that follows it, one in the
data names the first of the words it allocates; allocations follow one another from the end of
the code on.  All of them share one table, in which a name stands once.

The table is built line by line.  When a line is at fault the building stops, and what has been
defined before that line stays known. -/

namespace RegisterMachine
namespace Assembly

/-- The labels known so far and their addresses, in the order of their definition. -/
abbrev LabelTable := List (Text × Nat)

namespace LabelTable

/-- The address that a name stands for. -/
def address? (table : LabelTable) (name : Text) : Option Nat :=
  table.lookup name

/-- Whether a name is defined. -/
def defines (table : LabelTable) (name : Text) : Bool :=
  (table.address? name).isSome

/-- A table with one more label. -/
def define (table : LabelTable) (name : Text) (address : Nat) : LabelTable :=
  table ++ [(name, address)]

/-- Adds the labels of the code.  The first line given has the address `next`; only
instructions take up an address. -/
def addCode (table : LabelTable) (next : Nat) : List Line → LabelTable × Option Error
  | [] => (table, none)
  | l :: rest =>
    match l.label? with
    | none => addCode table (next + 1) rest
    | some name =>
      if table.defines name then (table, some ⟨l, .duplicateLabel name⟩)
      else addCode (table.define name next) next rest

end LabelTable

/-- A data directive: a name for a number of words. -/
structure Allocation where
  /-- The label of the first word. -/
  name : Text
  /-- How many words are set aside. -/
  count : Nat
deriving DecidableEq, Repr

/-- The allocation that a line of the data section asks for: a name and a count, divided by one
label end. -/
def Line.allocation? (l : Line) : Option Allocation :=
  match (Text.pieces (· == labelEnd) l.text).map Text.trim with
  | [name, count] =>
    if name.isEmpty then none
    else (Text.number? 10 Text.countLimit count).map fun n => ⟨name, n⟩
  | _ => none

/-- Adds the labels of the data section, the first of which gets the address `base`. -/
def LabelTable.addData (table : LabelTable) (base : Nat) :
    List Line → LabelTable × Option Error
  | [] => (table, none)
  | l :: rest =>
    match l.allocation? with
    | none => (table, some ⟨l, .malformedAllocation⟩)
    | some a =>
      if table.defines a.name then (table, some ⟨l, .duplicateLabel a.name⟩)
      else if base + a.count > memorySize then (table, some ⟨l, .outOfMemory a.name base a.count⟩)
      else addData (table.define a.name base) (base + a.count) rest

end Assembly
end RegisterMachine
