import DepLang.Term

/-!
# Printing core terms

Every compound term is parenthesised. A variable bound by `pi` or `let` is printed by its name;
functions are unnamed, so a variable bound by a function, and an index that no binder of the term
binds, is printed as `^i`.

Indices are natural numbers without a bound. A machine that keeps them in words has none behind the
greatest one, which it would need to find the name of that variable; what is said here about
printing is about terms in which that index does not occur.
-/
namespace DepLang.Term

/-- Prints a term under binders with the given names, the innermost first; an unnamed binder has
none. -/
def printUnder (names : List (Option String)) : Term → String
  | bound i =>
    match names[i]? with
    | some (some name) => name
    | _ => "^" ++ toString i
  | free b => b.name
  | lam body => "(λ. " ++ printUnder (none :: names) body ++ ")"
  | pi name domain codomain =>
    "((" ++ name ++ " : " ++ printUnder names domain ++ ") -> " ++
      printUnder (some name :: names) codomain ++ ")"
  | app function argument =>
    "(" ++ printUnder names function ++ " " ++ printUnder names argument ++ ")"
  | bool true => "true"
  | bool false => "false"
  | boolType => "Bool"
  | type => "Type"
  | letIn name ty value body =>
    "(let " ++ name ++ " : " ++ printUnder names ty ++ " := " ++ printUnder names value ++ " in " ++
      printUnder (some name :: names) body ++ ")"

/-- Prints a term on its own. -/
def print (t : Term) : String := printUnder [] t

end DepLang.Term
