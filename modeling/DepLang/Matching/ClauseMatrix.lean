import DepLang.Matching.Signature

/-!
# Clause matrices

A **clause matrix** has one column per parameter and one row of patterns per clause.
`ClauseMatrix.ofClauses` accepts one if it has a column, if every row has one pattern per column,
and if every pattern belongs to the type of its column; otherwise it reports the first fault,
reading types before clauses, and clauses in order with the number of patterns before the patterns
and an outer pattern before the inner ones.

Clauses carry a number of their own, which need be neither distinct nor in order.
-/
namespace DepLang.Matching

/-- A pattern for one value. -/
inductive Pattern where
  /-- Matches every value. -/
  | bind (name : String)
  /-- Matches the values of a constructor whose fields match. -/
  | con (constructor : ConId) (fields : List Pattern)
deriving Repr, Inhabited

namespace Pattern

/-- A constructor pattern with one pattern per field. -/
def ofConstructor (sig : Signature) (c : ConId) (fields : List Pattern) :
    Except MatchingError Pattern := do
  let declared ← sig.constructor c
  if fields.length = declared.fields.length then
    .ok (con c fields)
  else
    .error (.patternArity c declared.fields.length fields.length)

mutual

/-- The pattern belongs to the type. -/
def check (sig : Signature) (ty : DataId) : Pattern → Except MatchingError Unit
  | bind _ => .ok ()
  | con c fields => do
    let declared ← sig.constructor c
    if declared.data ≠ ty then
      .error (.foreignConstructor c ty)
    else if fields.length ≠ declared.fields.length then
      .error (.patternArity c declared.fields.length fields.length)
    else
      checkAll sig declared.fields fields

/-- Each pattern belongs to its type, from left to right. -/
def checkAll (sig : Signature) : List DataId → List Pattern → Except MatchingError Unit
  | ty :: tys, p :: ps => do
    check sig ty p
    checkAll sig tys ps
  | _, _ => .ok ()

end

end Pattern

/-- A column: what is matched on, and its type. -/
structure Parameter where
  name : String
  ty : DataId
deriving DecidableEq, Repr

/-- A row of patterns. -/
structure Clause where
  id : Nat
  patterns : List Pattern
deriving Repr

namespace Clause

/-- The row has one pattern per column, and each belongs to its column. -/
def check (sig : Signature) (telescope : List Parameter) (c : Clause) : Except MatchingError Unit :=
  if c.patterns.length = telescope.length then
    Pattern.checkAll sig (telescope.map Parameter.ty) c.patterns
  else
    .error (.clauseArity c.id telescope.length c.patterns.length)

end Clause

/-- A clause matrix. -/
structure ClauseMatrix where
  telescope : List Parameter
  clauses : List Clause
deriving Repr

namespace ClauseMatrix

/-- Accepts a matrix that fits the signature. -/
def ofClauses (sig : Signature) (telescope : List Parameter) (clauses : List Clause) :
    Except MatchingError ClauseMatrix := do
  if telescope.isEmpty then
    .error .emptyTelescope
  else
    sig.requireData (telescope.map Parameter.ty)
    clauses.forM (Clause.check sig telescope)
    .ok ⟨telescope, clauses⟩

/-- Accepts rows that fit the signature, and numbers them in order. -/
def ofRows (sig : Signature) (telescope : List Parameter) (rows : List (List Pattern)) :
    Except MatchingError ClauseMatrix :=
  ofClauses sig telescope (rows.zipIdx.map fun (patterns, id) => ⟨id, patterns⟩)

end ClauseMatrix

end DepLang.Matching
