import SequentSearch.Problem
import SequentSearch.Search.Run

/-!
# The command line

The program proves one of the bundled problems. Its arguments choose the problem and the settings of
the search. An option with a value is written `--name value` or `--name=value`; no option may be
given twice, and there are no other arguments.
-/

namespace SequentSearch

/-- The choices on the command line. -/
structure Options where
  /-- the problem to prove -/
  problem : Problem := .propositional
  /-- the settings of the search -/
  settings : Settings := {}
  /-- whether to print the goals that are left -/
  showGoals : Bool := false

namespace Options

/-- Read a number in decimal digits, at most as great as 64 bits can hold. A plus sign may stand in
front. -/
def parseNumber (s : String) : Option Nat :=
  let digits := match s.toList with
    | '+' :: rest => rest
    | cs => cs
  if !digits.isEmpty && digits.all Char.isDigit then
    let n := digits.foldl (fun n c => 10 * n + (c.toNat - '0'.toNat)) 0
    if n < 18446744073709551616 then some n else none
  else none

/-- Set an option that has a value; none if there is no such option or the value does not fit. -/
def setValue (o : Options) (name value : String) : Option Options :=
  match name with
  | "--problem" => do return { o with problem := ← (Problem.parse value).toOption }
  | "--max-steps" => do
    return { o with settings := { o.settings with maxSteps := ← parseNumber value } }
  | "--timeout-ms" => do
    return { o with settings := { o.settings with timeout := some (← parseNumber value) } }
  | "--chooser" => do
    let kind ← (ChooserKind.parse value).toOption
    return { o with settings := { o.settings with chooser := kind } }
  | "--stop-mode" => do
    return { o with settings := { o.settings with stopMode := ← (StopMode.parse value).toOption } }
  | "--step-limit" => do
    return { o with settings := { o.settings with stepLimit := ← parseNumber value } }
  | _ => none

/-- Set an option without a value; none if there is no such option. -/
def setFlag (o : Options) (name : String) : Option Options :=
  match name with
  | "--stop-at-first-non-closeable" =>
    some { o with settings := { o.settings with stopAtFirst := true } }
  | "--show-goals" => some { o with showGoals := true }
  | _ => none

/-- The name of an option and the value after the first equals sign, if there is one. -/
def splitValue (arg : String) : String × Option String :=
  let (name, rest) := arg.toList.span (· != '=')
  (String.ofList name,
    match rest with
    | [] => none
    | _ :: value => some (String.ofList value))

/-- Read arguments, given the options that were seen before. Two dashes alone end the options. -/
def parseFrom (seen : List String) (o : Options) : List String → Option Options
  | [] => some o
  | arg :: rest =>
    if arg == "--" then (if rest.isEmpty then some o else none)
    else
      let (name, value?) := splitValue arg
      if seen.contains name then none
      else
        match value?, o.setFlag name with
        | none, some o => parseFrom (name :: seen) o rest
        | some _, some _ => none
        | some value, none => (o.setValue name value).bind fun o => parseFrom (name :: seen) o rest
        | none, none =>
          match rest with
          | [] => none
          | value :: rest => (o.setValue name value).bind fun o => parseFrom (name :: seen) o rest

/-- Read the arguments of the program; none if they are not in order. -/
def parse (args : List String) : Option Options := parseFrom [] {} args

/-- The proof to search for. -/
def proof (o : Options) : Proof :=
  .start o.problem.sequent o.problem.rules (.ofSettings o.settings)

end Options

/-- What a run of the program leaves behind. -/
structure Printout where
  /-- the exit status -/
  status : UInt32
  /-- the lines printed -/
  lines : List String := []

namespace Printout

/-- Nothing is printed if the arguments are not in order. -/
def usage : Printout where
  status := 2

/-- The line for an open goal. -/
def goalLine (p : Proof) (g : GoalId) : Except Fault String := do
  return renderId g ++ ": " ++ (← (← p.goal g).sequent.render)

/-- What is printed after a search: the report, the open goals if they are to be shown, and the
verdict. The status is 0 for a proof, 1 for an error and 2 for a proof that is not finished. -/
def ofSearch (o : Options) (r : Report) (p : Proof) : Except Fault Printout := do
  let report ← r.lines
  let goals ← if o.showGoals then p.openGoals.mapM (goalLine p) else .ok []
  let shown := report ++ goals
  return match r.error? with
    | some _ => { status := 1, lines := shown }
    | none =>
      if p.isClosed then { status := 0, lines := shown ++ ["Proved."] }
      else
        { status := 2
          lines := shown ++ [toString p.openGoals.length ++ " goals remain open."] }

end Printout

/-- Run the program on arguments, in surroundings. None if a promise is broken or the search does
not end. -/
def runProgram (env : Surroundings) (args : List String) : Option Printout :=
  match Options.parse args with
  | none => some .usage
  | some o =>
    match (Searcher.ofSettings o.settings).start env o.proof (o.settings.task o.proof) with
    | some (report, _, proof) => (Printout.ofSearch o report proof).toOption
    | none => none

end SequentSearch
