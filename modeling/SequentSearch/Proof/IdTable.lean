import SequentSearch.Fault

/-!
# Tables of identifiers

Goals and nodes of a proof are known by numbers. Information about some of them is kept in tables,
lists of pairs in increasing order of the numbers.
-/

namespace SequentSearch

/-- The number of a goal. -/
abbrev GoalId := Nat

/-- The number of a node. -/
abbrev NodeId := Nat

/-- A number as an identifier; identifiers have 32 bits. -/
def checkId (i : Nat) : Except Fault Nat :=
  if i < 4294967296 then .ok i else .error .idOverflow

/-- The written form of an identifier. -/
def renderId (i : Nat) : String := "#" ++ toString i

/-- The item of an identifier in a sequence that only grows. -/
def item {α : Type} (items : Array α) (i : Nat) : Except Fault α :=
  match items[i]? with
  | some a => .ok a
  | none => .error .outOfRange

/-- Replace the item of an identifier. -/
def setItem {α : Type} (items : Array α) (i : Nat) (a : α) : Except Fault (Array α) :=
  if i < items.size then .ok (items.setIfInBounds i a) else .error .outOfRange

/-- Values for some identifiers. -/
structure IdTable (α : Type) where
  /-- the values, in increasing order of their identifiers -/
  entries : List (Nat × α) := []

namespace IdTable

variable {α : Type}

/-- No values. -/
def empty : IdTable α := {}

/-- Whether there are no values. -/
def isEmpty (t : IdTable α) : Bool := t.entries.isEmpty

/-- The value of an identifier. -/
def get? (t : IdTable α) (i : Nat) : Option α := t.entries.lookup i

/-- Whether an identifier has a value. -/
def contains (t : IdTable α) (i : Nat) : Bool := (t.get? i).isSome

/-- Put a value in its place. -/
def insertSorted (i : Nat) (a : α) : List (Nat × α) → List (Nat × α)
  | [] => [(i, a)]
  | e :: rest =>
    if i < e.1 then (i, a) :: e :: rest
    else if i = e.1 then (i, a) :: rest
    else e :: insertSorted i a rest

/-- Set the value of an identifier. -/
def insert (t : IdTable α) (i : Nat) (a : α) : IdTable α where
  entries := insertSorted i a t.entries

/-- Remove the value of an identifier. -/
def erase (t : IdTable α) (i : Nat) : IdTable α where
  entries := t.entries.filter (·.1 != i)

/-- Change the value of an identifier, if it has one. -/
def modify (t : IdTable α) (i : Nat) (f : α → α) : IdTable α where
  entries := t.entries.map fun e => if e.1 = i then (e.1, f e.2) else e

/-- Change all values. -/
def map (t : IdTable α) (f : α → α) : IdTable α where
  entries := t.entries.map fun e => (e.1, f e.2)

end IdTable

end SequentSearch
