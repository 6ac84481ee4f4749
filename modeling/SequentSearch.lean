import SequentSearch.Application.Basic
import SequentSearch.Application.Completion
import SequentSearch.Application.Execution
import SequentSearch.Calculus.Execution
import SequentSearch.Calculus.FirstOrder
import SequentSearch.Calculus.Propositional
import SequentSearch.CommandLine
import SequentSearch.Cost.Basic
import SequentSearch.Cost.Binary64
import SequentSearch.Cost.Feature
import SequentSearch.Exchange.Datum
import SequentSearch.Exchange.Rule
import SequentSearch.Exchange.Strategy
import SequentSearch.Exchange.Term
import SequentSearch.Fault
import SequentSearch.Instantiation
import SequentSearch.Main
import SequentSearch.MatchIndex
import SequentSearch.Matching
import SequentSearch.NameSupply
import SequentSearch.Problem
import SequentSearch.Program.Basic
import SequentSearch.Program.Context
import SequentSearch.Program.Printer
import SequentSearch.Proof.Apply
import SequentSearch.Proof.Basic
import SequentSearch.Proof.IdTable
import SequentSearch.Proof.Queue
import SequentSearch.Proofs.Accounts
import SequentSearch.Proofs.ActiveStatements
import SequentSearch.Proofs.Advances
import SequentSearch.Proofs.AffineMaps
import SequentSearch.Proofs.Alpha
import SequentSearch.Proofs.Applications
import SequentSearch.Proofs.AssumedFormulas
import SequentSearch.Proofs.Bindings
import SequentSearch.Proofs.Budgets
import SequentSearch.Proofs.Captures
import SequentSearch.Proofs.Choosing
import SequentSearch.Proofs.CompleteIndices
import SequentSearch.Proofs.Completions
import SequentSearch.Proofs.ConcreteMatching
import SequentSearch.Proofs.Congruence
import SequentSearch.Proofs.CurrentQueues
import SequentSearch.Proofs.Decision
import SequentSearch.Proofs.Decomposition
import SequentSearch.Proofs.Deferral
import SequentSearch.Proofs.DrawnNames
import SequentSearch.Proofs.DynamicLogic
import SequentSearch.Proofs.EditRecords
import SequentSearch.Proofs.Editing
import SequentSearch.Proofs.Execution
import SequentSearch.Proofs.ExecutionSoundness
import SequentSearch.Proofs.Exhaustion
import SequentSearch.Proofs.FailedSteps
import SequentSearch.Proofs.FirstOrder
import SequentSearch.Proofs.FreshNames
import SequentSearch.Proofs.Freshness
import SequentSearch.Proofs.Indices
import SequentSearch.Proofs.InstanceMatching
import SequentSearch.Proofs.Instances
import SequentSearch.Proofs.InventedVariables
import SequentSearch.Proofs.LargerBudgets
import SequentSearch.Proofs.LimitedRuns
import SequentSearch.Proofs.MatchSteps
import SequentSearch.Proofs.MatchedVars
import SequentSearch.Proofs.Matching
import SequentSearch.Proofs.Nameless
import SequentSearch.Proofs.Offers
import SequentSearch.Proofs.OpenGoals
import SequentSearch.Proofs.Origins
import SequentSearch.Proofs.Positions
import SequentSearch.Proofs.ProgramRuns
import SequentSearch.Proofs.ProofSteps
import SequentSearch.Proofs.ProofTree
import SequentSearch.Proofs.PropositionalLogic
import SequentSearch.Proofs.PropositionalSearch
import SequentSearch.Proofs.QuantifierInstances
import SequentSearch.Proofs.QueueOrder
import SequentSearch.Proofs.Redexes
import SequentSearch.Proofs.Rematching
import SequentSearch.Proofs.Requests
import SequentSearch.Proofs.Reuse
import SequentSearch.Proofs.RoundTrip
import SequentSearch.Proofs.Rounds
import SequentSearch.Proofs.RuleSoundness
import SequentSearch.Proofs.Runs
import SequentSearch.Proofs.Saturation
import SequentSearch.Proofs.SchemaFree
import SequentSearch.Proofs.SchemaFreeInstances
import SequentSearch.Proofs.SearchLoop
import SequentSearch.Proofs.Semantics
import SequentSearch.Proofs.Setups
import SequentSearch.Proofs.Soundness
import SequentSearch.Proofs.StepLimits
import SequentSearch.Proofs.Substitution
import SequentSearch.Proofs.SymbolicExecution
import SequentSearch.Proofs.Term
import SequentSearch.Proofs.TruthTable
import SequentSearch.Proofs.Turns
import SequentSearch.Proofs.Unfolding
import SequentSearch.Proofs.WorkableGoals
import SequentSearch.Rule.Accept
import SequentSearch.Rule.Basic
import SequentSearch.Rule.Printer
import SequentSearch.RuleBase
import SequentSearch.SchemaVar
import SequentSearch.Search.Chooser
import SequentSearch.Search.Report
import SequentSearch.Search.Run
import SequentSearch.Search.StopCondition
import SequentSearch.Sequent.Basic
import SequentSearch.Sequent.Edit
import SequentSearch.Settings
import SequentSearch.Strategy
import SequentSearch.Symbol
import SequentSearch.Template
import SequentSearch.Term.Alpha
import SequentSearch.Term.Basic
import SequentSearch.Term.OfProgram
import SequentSearch.Term.Position
import SequentSearch.Term.Printer
import SequentSearch.Term.Subst
