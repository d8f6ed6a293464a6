import DepLang.Matching.CaseTree

/-!
# Values, and what it means to match

A value of a destructible type is a constructor with values for its fields; a value of an
indestructible type is an atom that nothing looks into. A clause **matches** a row of values if each
of its patterns matches its value, and that is all there is to matching: case trees do not occur in
the definition.

`CaseTree.run` follows a case tree down to a leaf. At a node it passes over the columns before the
one the node looks at, takes the value there, puts the fields of the value in front of the remaining
columns and goes on in the branch of its constructor. It is `none` if a value or a branch is
missing.
-/
namespace DepLang.Matching

inductive Value where
  /-- A value that has no parts. -/
  | atom (token : Nat)
  | con (constructor : ConId) (fields : List Value)
deriving Repr, Inhabited

namespace Value

mutual

/-- The value belongs to the data type. -/
def HasType (sig : Signature) (ty : DataId) : Value → Prop
  | atom _ => ∃ data, sig.dataType? ty = some data ∧ data.shape = .indestructible
  | con k fields =>
    ∃ declared, sig.constructor? k = some declared ∧ declared.data = ty ∧
      HaveTypes sig declared.fields fields

/-- There is one value per type, and each belongs to its type. -/
def HaveTypes (sig : Signature) : List DataId → List Value → Prop
  | [], [] => True
  | ty :: tys, v :: vs => HasType sig ty v ∧ HaveTypes sig tys vs
  | _, _ => False

end

end Value

namespace Pattern

mutual

/-- The pattern matches the value. -/
def accepts : Pattern → Value → Bool
  | bind _, _ => true
  | con k fields, .con l values => k = l && acceptsAll fields values
  | con _ _, .atom _ => false

/-- There is one value per pattern, and each pattern matches its value. -/
def acceptsAll : List Pattern → List Value → Bool
  | [], [] => true
  | p :: ps, v :: vs => accepts p v && acceptsAll ps vs
  | _, _ => false

end

end Pattern

namespace Clause

/-- Every pattern of the clause matches its value in the row. -/
def accepts (c : Clause) (row : List Value) : Bool := Pattern.acceptsAll c.patterns row

end Clause

/-- The numbers of the clauses that match a row, in the order of the clauses. -/
def matching (clauses : List Clause) (row : List Value) : List Nat :=
  (clauses.filter fun c => c.accepts row).map Clause.id

namespace CaseTree

mutual

/-- The clauses at the leaf that a row leads to, if the first value of the row is in `column`. -/
def run (column : Nat) (row : List Value) : CaseTree → Option (List Nat)
  | leaf clauses => some clauses
  | node on _ branches =>
    match row.drop (on.toNat - column) with
    | .con k fields :: rest => runBranches (on.toNat + 1) (fields ++ rest) k branches
    | _ => none

/-- Goes on in the branch of a constructor. -/
def runBranches (column : Nat) (row : List Value) (k : ConId) :
    List (ConId × CaseTree) → Option (List Nat)
  | [] => none
  | (l, tree) :: rest => if l = k then run column row tree else runBranches column row k rest

end

end CaseTree

end DepLang.Matching
