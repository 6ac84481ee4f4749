import SequentSearch.Sequent.Basic

/-!
# Editing sequents

Every edit returns the new sequent together with a record of what it added, removed and rejected. A
formula is rejected if it is **redundant**: it is trivial on its side, or a formula equal to it up
to renaming is there. Records of successive edits are combined by `Change.combine`, in which a
removal cancels an earlier addition of the same formula.
-/

namespace SequentSearch

/-- What an edit of one side did. -/
structure SideChange where
  /-- the formulas added, in order -/
  added : List SeqFormula := []
  /-- the formulas removed -/
  removed : List SeqFormula := []
  /-- the formulas that were to be added and are redundant -/
  rejected : List SeqFormula := []
  /-- the side after the edit -/
  result : Semisequent

namespace SideChange

/-- Whether the edit did more than to reject formulas. -/
def hasChanged (c : SideChange) : Bool := !c.added.isEmpty || !c.removed.isEmpty

end SideChange

namespace Semisequent

/-- The place of a formula on a side. -/
def indexOf? (fs : Semisequent) (f : SeqFormula) : Option Nat := fs.idxOf? f

/-- Whether adding a formula to a side would say nothing new. -/
def isRedundant (side : Side) (f : SeqFormula) (fs : Semisequent) : Bool :=
  f.isTrivialOn side || fs.any fun g => g.term.alphaEq f.term

/-- Insert formulas in order, the first one before index `idx` (at the end if there are fewer
formulas), leaving out the redundant ones. -/
def insertAll (side : Side) : Nat → List SeqFormula → Semisequent → SideChange
  | _, [], fs => { result := fs }
  | idx, f :: rest, fs =>
    if isRedundant side f fs then
      let c := insertAll side idx rest fs
      { c with rejected := f :: c.rejected }
    else
      let c := insertAll side (idx + 1) rest (fs.insertIdx (min idx fs.length) f)
      { c with added := f :: c.added }

/-- Insert one formula before index `idx` unless it is redundant. -/
def insert (side : Side) (idx : Nat) (f : SeqFormula) (fs : Semisequent) : SideChange :=
  insertAll side idx [f] fs

/-- Remove the formula at index `idx`. -/
def remove (idx : Nat) (fs : Semisequent) : Except Fault SideChange :=
  match fs[idx]? with
  | some f => .ok { removed := [f], result := fs.eraseIdx idx }
  | none => .error .outOfRange

/-- Replace the formula at index `idx` by formulas. A single formula that is equal to the old one up
to renaming is rejected and changes nothing. -/
def replace (side : Side) (idx : Nat) (new : List SeqFormula) (fs : Semisequent) :
    Except Fault SideChange :=
  match fs[idx]? with
  | none => .error .outOfRange
  | some old =>
    match new with
    | [f] =>
      if f.term.alphaEq old.term then .ok { rejected := [f], result := fs }
      else .ok { insertAll side idx [f] (fs.eraseIdx idx) with removed := [old] }
    | _ => .ok { insertAll side idx new (fs.eraseIdx idx) with removed := [old] }

end Semisequent

/-- What a sequence of edits did to a sequent. -/
structure Change where
  /-- the formulas added and not removed again -/
  added : List (Side × SeqFormula) := []
  /-- the formulas removed that were there before the edits -/
  removed : List (Side × SeqFormula) := []
  /-- the formulas that were to be added and were redundant -/
  rejected : List (Side × SeqFormula) := []
  /-- the sequent after the edits -/
  sequent : Sequent

namespace Change

/-- The record of no edit. -/
def unchanged (s : Sequent) : Change := { sequent := s }

/-- Whether the edits did more than to reject formulas. -/
def hasChanged (c : Change) : Bool := !c.added.isEmpty || !c.removed.isEmpty

/-- Record a removal: it cancels the first addition of the same formula, if there was one. -/
def recordRemoval (c : Change) (f : Side × SeqFormula) : Change :=
  if c.added.contains f then { c with added := c.added.erase f }
  else { c with removed := c.removed ++ [f] }

/-- Append the record of an edit that was made to the result of the edits so far. -/
def combine (c next : Change) : Change :=
  let d := next.removed.foldl recordRemoval c
  { d with
    added := d.added ++ next.added
    rejected := d.rejected ++ next.rejected
    sequent := next.sequent }

end Change

/-- An edit of a sequent. -/
inductive Edit where
  /-- insert formulas before an index -/
  | insert (side : Side) (idx : Nat) (new : List SeqFormula)
  /-- remove the formula at an index -/
  | remove (side : Side) (idx : Nat)
  /-- replace the formula at an index -/
  | replace (side : Side) (idx : Nat) (new : List SeqFormula)

namespace Sequent

/-- The record of an edit of one side. -/
def record (s : Sequent) (side : Side) (c : SideChange) : Change where
  added := c.added.map (side, ·)
  removed := c.removed.map (side, ·)
  rejected := c.rejected.map (side, ·)
  sequent := s.withSide side c.result

/-- Insert a formula. -/
def insert (s : Sequent) (side : Side) (idx : Nat) (f : SeqFormula) : Change :=
  s.record side (Semisequent.insert side idx f (s.side side))

/-- Insert formulas in order. -/
def insertAll (s : Sequent) (side : Side) (idx : Nat) (fs : List SeqFormula) : Change :=
  s.record side (Semisequent.insertAll side idx fs (s.side side))

/-- Remove a formula. -/
def remove (s : Sequent) (side : Side) (idx : Nat) : Except Fault Change := do
  return s.record side (← Semisequent.remove idx (s.side side))

/-- Replace a formula by formulas. -/
def replace (s : Sequent) (side : Side) (idx : Nat) (new : List SeqFormula) :
    Except Fault Change := do
  return s.record side (← Semisequent.replace side idx new (s.side side))

/-- Make an edit. -/
def edit (s : Sequent) : Edit → Except Fault Change
  | .insert side idx new => .ok (s.insertAll side idx new)
  | .remove side idx => s.remove side idx
  | .replace side idx new => s.replace side idx new

/-- The sequent of given formulas, without the redundant ones. -/
def ofFormulas (antec succ : List SeqFormula) : Sequent where
  antec := (Semisequent.insertAll .antec 0 antec []).result
  succ := (Semisequent.insertAll .succ 0 succ []).result

/-- The sequent of given terms, without the redundant ones; all have to be formulas. -/
def ofTerms (antec succ : List Term) : Except Fault Sequent := do
  return ofFormulas (← antec.mapM SeqFormula.ofTerm) (← succ.mapM SeqFormula.ofTerm)

end Sequent

end SequentSearch
