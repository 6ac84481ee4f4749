import SequentSearch.CommandLine

/-!
# The program

The outermost layer: it reads the clock, lets the search take one step after another, and prints.
-/

namespace SequentSearch

/-- Let a search take its steps, telling it how much time has passed since `start`. -/
partial def runClocked (start : Nat) (s : Search) : IO (Report × Proof) := do
  let now ← IO.monoMsNow
  let env : Surroundings := { elapsed := fun _ => now - start }
  match s.step env with
  | (.error e, s) => return (s.report env e, s.proof)
  | (.ok _, s) => runClocked start s

/-- Print what a run leaves behind, and return its status. -/
def Printout.print (out : Printout) : IO UInt32 := do
  for line in out.lines do
    IO.println line
  return out.status

/-- Run the program on arguments. -/
def runMain (args : List String) : IO UInt32 := do
  match Options.parse args with
  | none => Printout.usage.print
  | some o =>
    let start ← IO.monoMsNow
    let (report, proof) ←
      runClocked start ((Searcher.ofSettings o.settings).begin o.proof (o.settings.task o.proof))
    match Printout.ofSearch o report proof with
    | .ok out => out.print
    | .error _ => return 1

end SequentSearch

/-- Prove a bundled problem. -/
def main (args : List String) : IO UInt32 := SequentSearch.runMain args
