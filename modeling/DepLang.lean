import DepLang.Binding
import DepLang.Term
import DepLang.Term.Usage
import DepLang.Term.Closed
import DepLang.Term.Printer
import DepLang.Expr
import DepLang.Expr.Printer
import DepLang.Expr.Resolution
import DepLang.Scope
import DepLang.Definitions
import DepLang.Reduction
import DepLang.Error
import DepLang.Check
import DepLang.Equality
import DepLang.Elaboration
import DepLang.Session
import DepLang.Matching.Signature
import DepLang.Matching.Error
import DepLang.Matching.ClauseMatrix
import DepLang.Matching.CaseTree
import DepLang.Matching.Coverage
import DepLang.Matching.Printer
import DepLang.Matching.Value
import DepLang.Demo
import DepLang.CommandLine
import DepLang.Main
import DepLang.Proofs.Matching.Declarations
import DepLang.Proofs.Matching.Acceptance
import DepLang.Proofs.Matching.Compilation
import DepLang.Proofs.Matching.Calls
import DepLang.Proofs.Matching.Decision
import DepLang.Proofs.Tables
import DepLang.Proofs.Convertible
import DepLang.Proofs.Reduces
import DepLang.Proofs.Normalization
import DepLang.Proofs.Conversion
import DepLang.Proofs.Elaborates
import DepLang.Proofs.FirstFaults
import DepLang.Proofs.Resolution
import DepLang.Proofs.Mentions
import DepLang.Proofs.Translation
import DepLang.Proofs.ChurchRosser
import DepLang.Proofs.Typing
import DepLang.Proofs.SubjectReduction
import DepLang.Proofs.TypeSoundness
import DepLang.Proofs.ScopeSafety
import DepLang.Proofs.Matching.Listing
import DepLang.Proofs.Matching.Coverage
import DepLang.Proofs.Heads
import DepLang.Proofs.NormalForms
import DepLang.Proofs.Completeness
import DepLang.Proofs.BinderReuse
import DepLang.Proofs.Footprint
import DepLang.Proofs.Sessions
import DepLang.Proofs.Evaluation
import DepLang.Proofs.Memoization
import DepLang.Proofs.Twins
import DepLang.Proofs.Lockstep
import DepLang.Proofs.LockstepChecking
import DepLang.Proofs.Transparency
import DepLang.Proofs.Replay
import DepLang.Proofs.ScopeErrors
import DepLang.Proofs.LetChains
import DepLang.Proofs.Identities
import DepLang.Proofs.FirstOrder
import DepLang.Proofs.Unfolding
import DepLang.Proofs.Matching.Lookups
import DepLang.Proofs.Idempotence
import DepLang.Proofs.Preservation
import DepLang.Proofs.HeadNormalForms
import DepLang.Proofs.Peeling
import DepLang.Proofs.Termination
import DepLang.Proofs.Interference
import DepLang.Proofs.Eta
import DepLang.Proofs.Dependencies
import DepLang.Proofs.LexicalScoping
import DepLang.Proofs.Matching.Rejection
import DepLang.Proofs.Matching.Shape
import DepLang.Proofs.Matching.Leaves
import DepLang.Proofs.Matching.Extension
import DepLang.Proofs.Beta
import DepLang.Proofs.Census
import DepLang.Proofs.Printing
