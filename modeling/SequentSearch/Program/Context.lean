import SequentSearch.Program.Basic

/-!
# Execution contexts

When the active statements of a block are matched, the rest of the program is its **context**: the
leading nested blocks around the active statements, and all statements that follow. A context
records the outer block, how many leading blocks to descend, and how many statements there are
active. `splice` puts new statements in their place and keeps everything else.
-/

namespace SequentSearch

/-- Where the active statements of a block were found. -/
structure ProgramContext where
  /-- the block that was matched -/
  outer : Program
  /-- how many leading nested blocks lie around the active statements -/
  depth : Nat
  /-- how many statements of the innermost block are active -/
  consumed : Nat
deriving DecidableEq

namespace Program

/-- The statements of a block behind its first `consumed` ones. -/
def statementsAfter (consumed : Nat) (p : Program) : Except Fault (List Program) :=
  if consumed ≤ p.children.length then .ok (p.children.drop consumed) else .error .outOfRange

/-- The block that is reached by descending into the first child `depth` times. -/
def leadingBlock : Nat → Program → Except Fault Program
  | 0, p => .ok p
  | _ + 1, node _ [] => .error .outOfRange
  | depth + 1, node _ (first :: _) => leadingBlock depth first

/-- The element with the first `consumed` statements of its leading block at `depth` replaced. -/
def spliceAt : Nat → Nat → List Program → Program → Except Fault Program
  | 0, consumed, active, p => do
    return node p.kind (active ++ (← p.statementsAfter consumed))
  | _ + 1, _, _, node _ [] => .error .outOfRange
  | depth + 1, consumed, active, node kind (first :: rest) => do
    return node kind ((← spliceAt depth consumed active first) :: rest)

end Program

namespace ProgramContext

/-- The statements behind the active ones, in the innermost block. -/
def suffix (ctx : ProgramContext) : Except Fault (List Program) := do
  (← ctx.outer.leadingBlock ctx.depth).statementsAfter ctx.consumed

/-- The outer block with the active statements replaced by `active`. -/
def splice (ctx : ProgramContext) (active : List Program) : Except Fault Program :=
  ctx.outer.spliceAt ctx.depth ctx.consumed active

end ProgramContext

end SequentSearch
