import DepLang.Term

/-!
# Occurrences of free variables

`Term.usage` counts one variable, `Term.census` counts all of them, in the order in which they first
appear. `Term.makeLet` uses the count: it binds a variable by a `let` if the body mentions it, and
otherwise leaves the body as it is, so that no dead `let` is ever built.
-/
namespace DepLang

/-- How often each variable occurs, in order of first appearance. -/
abbrev Census := List (Binding × Nat)

namespace Census

/-- Counts one more occurrence of `b`. -/
def add (b : Binding) : Census → Census
  | [] => [(b, 1)]
  | (c, n) :: rest => if c = b then (c, n + 1) :: rest else (c, n) :: add b rest

end Census

namespace Term

/-- The number of occurrences of a free variable. -/
def usage (b : Binding) : Term → Nat
  | free c => if c = b then 1 else 0
  | lam body => usage b body
  | pi _ domain codomain => usage b domain + usage b codomain
  | app function argument => usage b function + usage b argument
  | letIn _ ty value body => usage b ty + usage b value + usage b body
  | bound _ | bool _ | boolType | type => 0

/-- Adds the occurrences in a term to a census, from left to right. -/
def countInto (counts : Census) : Term → Census
  | free b => counts.add b
  | lam body => countInto counts body
  | pi _ domain codomain => countInto (countInto counts domain) codomain
  | app function argument => countInto (countInto counts function) argument
  | letIn _ ty value body => countInto (countInto (countInto counts ty) value) body
  | bound _ | bool _ | boolType | type => counts

/-- The occurrences of all free variables. -/
def census (t : Term) : Census := t.countInto []

/-- `let b : ty := value in body`, or only `body` if it does not mention `b`. -/
def makeLet (b : Binding) (ty value body : Term) : Term :=
  if body.usage b = 0 then body else letIn b.name ty value (body.close b)

end Term

end DepLang
