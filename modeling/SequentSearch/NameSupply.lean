import SequentSearch.Sequent.Basic

/-!
# Fresh names

A `NameGen` numbers the names it hands out. A `NameSupply` also knows the names in use, and passes
over those. One counter serves all stems.
-/

namespace SequentSearch

/-- A counter that makes names out of stems. -/
structure NameGen where
  /-- the number of the next name -/
  count : Nat := 0

namespace NameGen

/-- The name with the given number. -/
def numbered (stem : String) (n : Nat) : String := stem ++ "_" ++ toString n

/-- The next name for a stem. -/
def next (g : NameGen) (stem : String) : String × NameGen := (numbered stem g.count, ⟨g.count + 1⟩)

end NameGen

/-- The names in use in a proof, and a counter for new ones. -/
structure NameSupply where
  /-- the names in use -/
  used : List String := []
  /-- the counter -/
  gen : NameGen := {}

namespace NameSupply

/-- No name in use. -/
def empty : NameSupply := {}

/-- Whether a name is not in use. -/
def isUnused (ns : NameSupply) (name : String) : Bool := !ns.used.contains name

/-- Take a name into use. -/
def register (ns : NameSupply) (name : String) : NameSupply :=
  if ns.used.contains name then ns else { ns with used := name :: ns.used }

/-- The names of functions, variables and program variables in the operator and binders of a
term. -/
def ownNames (t : Term) : List String :=
  let own := match t.op with
    | .func f => [f.name]
    | .var x => [x.name]
    | .progVar v => [v.name]
    | _ => []
  own ++ (t.boundHere.filterMap Binder.logic?).map LogicVar.name

/-- Take the names of a term into use. Programs are not looked into. -/
def registerTerm (ns : NameSupply) (t : Term) : NameSupply :=
  (t.subterms.flatMap ownNames).foldl register ns

/-- Take the names of a sequent into use. -/
def registerSequent (ns : NameSupply) (s : Sequent) : NameSupply :=
  s.formulas.foldl (fun ns f => ns.registerTerm f.2.term) ns

/-- The number of the first unused name for a stem. One of as many numbers as there are names in
use, and one more, is free. -/
def firstUnused (ns : NameSupply) (stem : String) : Nat :=
  (((List.range (ns.used.length + 1)).map (ns.gen.count + ·)).find? fun n =>
    ns.isUnused (NameGen.numbered stem n)).getD ns.gen.count

/-- A name for a stem that is not in use. It is in use from then on. -/
def fresh (ns : NameSupply) (stem : String) : String × NameSupply :=
  let n := ns.firstUnused stem
  let name := NameGen.numbered stem n
  (name, { ns.register name with gen := ⟨n + 1⟩ })

end NameSupply

end SequentSearch
