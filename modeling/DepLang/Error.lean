import DepLang.Expr.Printer
import DepLang.Expr.Resolution
import DepLang.Scope
import DepLang.Term.Printer

/-!
# What can be wrong with a program

One type for the causes, and two renderings of it: `text` is a short sentence, `message` quotes the
program.

The last three causes are gaps of the calculus and not faults of a program (`isInternal`): two terms
that no rule compares, an expression that no rule elaborates, and a function in the place of a type.
-/
namespace DepLang

/-- Why an expression has no elaboration, or why two terms cannot be compared. -/
inductive ElaborationError where
  /-- A variable is missing from the scope, or bound in it already. -/
  | scope (error : ScopeError)
  /-- No visible variable has the name. -/
  | unresolved (error : Unresolved)
  /-- What is applied has a type that is not a function type. -/
  | notAFunction (function : Expr) (ty : Term)
  /-- A function was written where another type is expected. -/
  | mismatch (expr : Expr) (expected : Term)
  /-- Two terms are not equal, at a type if one is given. -/
  | unequal (lhs rhs : Term) (ty : Option Term)
  /-- No rule compares the two terms. -/
  | incomparable (lhs rhs : Term)
  /-- No rule elaborates the expression. -/
  | noRule (expr : Expr)
  /-- A function stands in the place of a type. -/
  | notAType (term : Term)
deriving Repr

namespace ElaborationError

/-- The cause is a gap of the calculus. -/
def isInternal : ElaborationError → Bool
  | incomparable _ _ | noRule _ | notAType _ => true
  | scope _ | unresolved _ | notAFunction _ _ | mismatch _ _ | unequal _ _ _ => false

/-- The cause as one sentence; `identify` writes the identity of a binding. -/
def text (identify : Binding → String) : ElaborationError → String
  | scope error => error.text identify
  | unresolved _ => "unresolved symbol"
  | notAFunction _ _ => "applied a term whose type is not a function type"
  | mismatch _ _ => "expression does not have the expected type"
  | unequal _ _ _ => "could not unify two terms"
  | incomparable _ _ => "internal error: no rule to compare these terms"
  | noRule _ => "internal error: no rule to elaborate this expression"
  | notAType _ => "internal error: a lambda is never a type"

/-- The cause with the terms and expressions it is about. -/
def message : ElaborationError → String
  | scope (.notInScope b) => "elaboration error: `" ++ b.name ++ "` is not in scope"
  | scope (.alreadyInScope b) => "elaboration error: `" ++ b.name ++ "` is bound twice"
  | unresolved error => "resolution error: unresolved symbol `" ++ error.name ++ "`"
  | notAFunction function ty =>
    "elaboration error: cannot apply `" ++ function.print ++ "`\nits type is: " ++ ty.print
  | mismatch expr expected =>
    "elaboration error: type mismatch\nexpression: " ++ expr.print ++
      "\nexpected: " ++ expected.print
  | unequal lhs rhs none =>
    "elaboration error: could not unify\nleft: " ++ lhs.print ++ "\nright: " ++ rhs.print
  | unequal lhs rhs (some ty) =>
    "elaboration error: could not unify\nleft: " ++ lhs.print ++ "\nright: " ++ rhs.print ++
      "\nat type: " ++ ty.print
  | incomparable lhs rhs =>
    "internal error: no rule to compare\nleft: " ++ lhs.print ++ "\nright: " ++ rhs.print
  | noRule expr => "internal error: no rule to elaborate `" ++ expr.print ++ "`"
  | notAType term => "internal error: `" ++ term.print ++ "` is used as a type"

end ElaborationError

end DepLang
