import SequentSearch.Cost.Basic

/-!
# Queues

A queue hands out entries with costs, the cheapest first and entries of equal cost in the order they
came in. It is either **filled**, or waiting to be filled anew; a queue that waits has no entries.
-/

namespace SequentSearch

/-- Entries in the order they are handed out. -/
structure Queue (α : Type) where
  /-- the entries with their costs -/
  entries : List (Cost × α) := []
  /-- whether the queue has been filled -/
  filled : Bool := false

namespace Queue

variable {α : Type}

/-- A queue that waits to be filled. -/
def waiting : Queue α := {}

/-- A queue filled with entries. -/
def fill (entries : List (Cost × α)) : Queue α where
  entries := entries.mergeSort fun a b => a.1.le b.1
  filled := true

/-- The cheapest entry. -/
def peek? (q : Queue α) : Option (Cost × α) := q.entries.head?

/-- The queue without the cheapest entry. -/
def tail (q : Queue α) : Queue α := { q with entries := q.entries.tail }

/-- The queue without its entries up to the first one that passes a test. -/
def dropUntil (test : α → Bool) (q : Queue α) : Queue α :=
  { q with entries := q.entries.dropWhile fun e => !test e.2 }

/-- The number of entries. -/
def size (q : Queue α) : Nat := q.entries.length

/-- Whether there are no entries. -/
def isEmpty (q : Queue α) : Bool := q.entries.isEmpty

end Queue

end SequentSearch
