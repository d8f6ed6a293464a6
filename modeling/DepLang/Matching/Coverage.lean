import DepLang.Matching.CaseTree

/-!
# Leaves of a case tree, and what they cover

At a leaf the clause with the least number **fires**. A path to a leaf where none fires is
**uncovered**, and a clause that fires at no leaf is **shadowed**.
-/
namespace DepLang.Matching

/-- The clause that fires among those that match. -/
def firing? (clauses : List Nat) : Option Nat := clauses.min?

namespace CaseTree

mutual

/-- The leaves from left to right, each with the constructors that lead to it and the clauses that
it holds. -/
def leaves : CaseTree → List (List ConId × List Nat)
  | leaf clauses => [([], clauses)]
  | node _ _ branches => leavesOfBranches branches

def leavesOfBranches : List (ConId × CaseTree) → List (List ConId × List Nat)
  | [] => []
  | (k, tree) :: rest =>
    (leaves tree).map (fun (path, clauses) => (k :: path, clauses)) ++ leavesOfBranches rest

end

end CaseTree

/-- What a case tree leaves out. -/
structure Coverage where
  /-- The constructors that lead to leaves where no clause fires. -/
  uncovered : List (List ConId)
  /-- The clauses that fire nowhere, in their order. -/
  shadowed : List Nat
deriving DecidableEq, Repr

namespace Coverage

def isClean (c : Coverage) : Bool := c.uncovered.isEmpty && c.shadowed.isEmpty

end Coverage

namespace CaseTree

/-- The clauses that fire at some leaf. -/
def fired (tree : CaseTree) : List Nat := tree.leaves.filterMap fun (_, clauses) => firing? clauses

/-- The paths to leaves where no clause fires. -/
def uncovered (tree : CaseTree) : List (List ConId) :=
  tree.leaves.filterMap fun (path, clauses) => if (firing? clauses).isNone then some path else none

/-- What a case tree leaves out of a matrix. -/
def coverage (tree : CaseTree) (m : ClauseMatrix) : Coverage where
  uncovered := tree.uncovered
  shadowed := (m.clauses.map Clause.id).filter fun id => !tree.fired.contains id

end CaseTree

end DepLang.Matching
