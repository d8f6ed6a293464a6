import DepLang.Elaboration
import DepLang.Matching.Coverage
import DepLang.Matching.Error
import DepLang.Matching.Printer

/-!
# Demonstrations

Three short programs, each run through the library and reported in a few lines: the case tree of
addition, the elaboration of a polymorphic function, and the comparison of two terms with `let`s.
-/
namespace DepLang

/-- A demonstration. -/
inductive Scenario where
  | caseTree
  | calculus
  | letConversion
deriving DecidableEq, Repr

namespace Scenario

def all : List Scenario := [caseTree, calculus, letConversion]

/-- The name by which a demonstration is asked for. -/
def name : Scenario → String
  | caseTree => "case-tree"
  | calculus => "calculus"
  | letConversion => "let"

def ofName? (name : String) : Option Scenario := all.find? fun s => s.name = name

end Scenario

namespace Demo

/-- The value of a computation and the store behind it, or the message of its error. -/
def settle {α : Type} (store : Store) (x : Check α) : Except String (α × Store) :=
  match x.run store with
  | some (.ok a, store) => .ok (a, store)
  | some (.error error, _) => .error error.message
  | none => .error "out of fuel"

section CaseTree

open Matching

/-- Addition by recursion on its first argument, as a signature and a clause matrix. -/
def plus : Except MatchingError (Signature × ClauseMatrix) := do
  let (nat, sig) := ({} : Signature).addDestructible "Nat"
  let (zro, sig) ← sig.addConstructor nat "zro" []
  let (suc, sig) ← sig.addConstructor nat "suc" [nat]
  let first ← Pattern.ofConstructor sig zro []
  let second ← Pattern.ofConstructor sig suc [.bind "a"]
  let matrix ← ClauseMatrix.ofRows sig [⟨"n", nat⟩, ⟨"m", nat⟩]
    [[first, .bind "b"], [second, .bind "b"]]
  return (sig, matrix)

/-- Numbers in brackets, with commas between them. -/
def bracketed (ids : List Nat) : String := "[" ++ ", ".intercalate (ids.map toString) ++ "]"

def caseTree : Except String (List String) := do
  let (sig, matrix) ←
    match plus with
    | .ok found => .ok found
    | .error error => .error ((error.message? {}).getD error.text)
  let some tree := matrix.caseTree? sig 0 | .error "undeclared constructor"
  let some printed := tree.print? sig | .error "undeclared constructor"
  let coverage := tree.coverage matrix
  return ["Case tree:", printed,
    "Uncovered paths: " ++ toString coverage.uncovered.length ++
      ", shadowed clauses: " ++ bracketed coverage.shadowed]

end CaseTree

/-- The function `λA. λa. λb. b` at the type `(A : Type) -> (a : A) -> (b : A) -> A`. -/
def calculus : Except String (List String) := do
  let (A, supply) := ({} : Supply).mint "A"
  let (a, supply) := supply.mint "a"
  let (b, supply) := supply.mint "b"
  let (A', supply) := supply.mint "A"
  let (a', supply) := supply.mint "a"
  let (b', supply) := supply.mint "b"
  let ty := Expr.piTelescope [⟨A, .type⟩, ⟨a, .ref A⟩, ⟨b, .ref A⟩] (.ref A)
  let expr := Expr.lam A' (.lam a' (.lam b' (.ref b')))
  let (result, store) ← settle { supply } (elaborateClosed ampleFuel expr ty)
  let applied := result.term.applyAll [.boolType, .bool true, .bool false]
  let (value, _) ← settle store (whnf ampleFuel applied : Check Term)
  return ["Calculus:", "Elaborated term: " ++ result.term.print, "Type: " ++ result.ty.print,
    "Applied to (Bool, true, false): " ++ value.print]

/-- Compares `let f : (a : Bool) -> Bool := λa. a in f true` with `let b : Bool := false in true`
at the type `Bool`. -/
def letConversion : Except String (List String) := do
  let (f, supply) := ({} : Supply).mint "f"
  let (a, supply) := supply.mint "a"
  let (a', supply) := supply.mint "a"
  let (b, supply) := supply.mint "b"
  let left := Expr.letIn f (.pi a .boolType .boolType) (.lam a' (.ref a'))
    (.app (.ref f) (.bool true))
  let right := Expr.letIn b .boolType (.bool false) (.bool true)
  let (left, store) ← settle { supply } (elaborateClosed ampleFuel left .boolType)
  let (right, store) ← settle store (elaborateClosed ampleFuel right .boolType)
  let (equal, _) ← settle store (equate ampleFuel {} left.term right.term (some .boolType))
  return ["Let and conversion:", "Left: " ++ left.term.print, "Right: " ++ right.term.print,
    "Definitionally equal at Bool: " ++ if equal then "true" else "false"]

end Demo

namespace Scenario

/-- The lines that a demonstration reports, or what went wrong. -/
def report : Scenario → Except String (List String)
  | caseTree => Demo.caseTree
  | calculus => Demo.calculus
  | letConversion => Demo.letConversion

end Scenario

end DepLang
