import DepLang.Matching.CaseTree

/-!
# Printing case trees

A leaf is printed as the numbers of its clauses, or `∅` if it has none. A node has its branches on
lines of their own, two blanks further in for each node around it.
-/
namespace DepLang.Matching.CaseTree

def indentation (indent : Nat) : String := String.ofList (List.replicate indent ' ')

mutual

/-- Prints a tree whose branches start `indent` blanks in. It is `none` if the signature lacks a
constructor. -/
def printAt? (sig : Signature) (indent : Nat) : CaseTree → Option String
  | leaf [] => some "∅"
  | leaf clauses => some (", ".intercalate (clauses.map toString))
  | node column name branches => do
    let branches ← printBranches? sig indent branches
    return "case " ++ name ++ "(" ++ toString column ++ ") \x7b\n" ++ branches ++
      indentation indent ++ "\x7d"

def printBranches? (sig : Signature) (indent : Nat) : List (ConId × CaseTree) → Option String
  | [] => some ""
  | (k, tree) :: rest => do
    let con ← sig.constructor? k
    let tree ← printAt? sig (indent + 2) tree
    let rest ← printBranches? sig indent rest
    return indentation indent ++ "| " ++ con.name ++ " => " ++ tree ++ "\n" ++ rest

end

def print? (tree : CaseTree) (sig : Signature) : Option String := printAt? sig 0 tree

end DepLang.Matching.CaseTree
