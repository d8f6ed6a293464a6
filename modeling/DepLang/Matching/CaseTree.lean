import DepLang.Matching.ClauseMatrix

/-!
# Case trees

A **case tree** decides which clauses match by looking at one value at a time. A node looks at the
value in one column and has a branch for each constructor of its type; a leaf holds the clauses that
match all values leading to it.

`compile` takes the columns from left to right. It splits on a column if its type has constructors
and some clause asks for one, and otherwise passes over it. After a split, the fields of the
constructor stand as new columns in front of the remaining ones; clauses for other constructors are
gone, and a clause that asked for none matches the fields anyhow.

Columns are numbered along each path, so the number counts the columns that the path has dealt with.
The numbers are machine words, and a column takes up its own number and the one behind it, whether or
not a column comes behind it (`nextColumn?`).

Compilation ends because a split uses up a constructor pattern: the weight of the clauses falls
(`totalWeight_specialize_lt`), and passing over a column shortens the row. It is `none` if the
matrix mentions something that the signature does not declare, or if a path runs out of numbers.
-/
namespace DepLang.Matching

/-- A decision procedure for a clause matrix. -/
inductive CaseTree where
  /-- The clauses that match, in their order. -/
  | leaf (clauses : List Nat)
  /-- Looks at the value in a column. There is a branch for each constructor, in the order of
  declaration. -/
  | node (column : UInt64) (name : String) (branches : List (ConId × CaseTree))
deriving Repr, Inhabited

/-! ## Weight -/

namespace Pattern

mutual

/-- The number of constructors in a pattern. -/
def size : Pattern → Nat
  | bind _ => 0
  | con _ fields => sizeAll fields + 1

def sizeAll : List Pattern → Nat
  | [] => 0
  | p :: ps => size p + sizeAll ps

end

theorem sizeAll_append (ps qs : List Pattern) : sizeAll (ps ++ qs) = sizeAll ps + sizeAll qs := by
  induction ps with
  | nil => simp [sizeAll]
  | cons p ps ih => simp [sizeAll, ih, Nat.add_assoc]

end Pattern

namespace Clause

/-- One for the clause, and one for each constructor in it. -/
def weight (c : Clause) : Nat := Pattern.sizeAll c.patterns + 1

/-- The first pattern is there, and asks for no constructor. -/
def startsOpen (c : Clause) : Bool :=
  match c.patterns with
  | .bind _ :: _ => true
  | _ => false

/-- The clause behind its first column. -/
def dropColumn (c : Clause) : Clause := { c with patterns := c.patterns.drop 1 }

/-- Patterns for the fields of a value that `name` matches. -/
def openFields (name : String) (arity : Nat) : List Pattern :=
  (List.range arity).map fun i => .bind (name ++ "_" ++ toString i)

/-- What the clause asks of a value of a constructor: of its fields first, then of the other
columns. Nothing is left of a clause for another constructor. -/
def specialize (k : ConId) (arity : Nat) (c : Clause) : Option Clause :=
  match c.patterns with
  | [] => none
  | .bind name :: rest => some { c with patterns := openFields name arity ++ rest }
  | .con l fields :: rest => if l = k then some { c with patterns := fields ++ rest } else none

theorem sizeAll_openFields (name : String) (arity : Nat) :
    Pattern.sizeAll (openFields name arity) = 0 := by
  unfold openFields
  induction List.range arity with
  | nil => rfl
  | cons i is ih => rw [List.map_cons, Pattern.sizeAll, Pattern.size, ih]

theorem weight_dropColumn_le (c : Clause) : c.dropColumn.weight ≤ c.weight := by
  unfold dropColumn weight
  cases c.patterns with
  | nil => simp
  | cons p ps => simp [Pattern.sizeAll]

theorem weight_specialize_le {k : ConId} {arity : Nat} {c d : Clause}
    (h : c.specialize k arity = some d) : d.weight ≤ c.weight := by
  unfold specialize at h
  split at h
  · cases h
  next name rest e =>
    cases h
    simp [weight, e, Pattern.sizeAll_append, sizeAll_openFields, Pattern.sizeAll, Pattern.size]
  next l fields rest e =>
    split at h
    · cases h
      simp only [weight, e, Pattern.sizeAll_append, Pattern.sizeAll, Pattern.size]
      omega
    · cases h

theorem weight_specialize_lt {k : ConId} {arity : Nat} {c d : Clause}
    (h : c.specialize k arity = some d) (hc : c.startsOpen = false) : d.weight < c.weight := by
  unfold specialize at h
  split at h
  · cases h
  next name rest e => simp [startsOpen, e] at hc
  next l fields rest e =>
    split at h
    · cases h
      simp only [weight, e, Pattern.sizeAll_append, Pattern.sizeAll, Pattern.size]
      omega
    · cases h

theorem weight_pos (c : Clause) : 0 < c.weight := Nat.succ_pos _

end Clause

/-- The clauses behind the first column. -/
def dropColumn (clauses : List Clause) : List Clause := clauses.map Clause.dropColumn

/-- What the clauses ask of a value of a constructor in the first column. -/
def specialize (k : ConId) (arity : Nat) (clauses : List Clause) : List Clause :=
  clauses.filterMap (Clause.specialize k arity)

/-- The weight of all clauses together. -/
def totalWeight : List Clause → Nat
  | [] => 0
  | c :: cs => c.weight + totalWeight cs

theorem totalWeight_dropColumn_le (clauses : List Clause) :
    totalWeight (dropColumn clauses) ≤ totalWeight clauses := by
  induction clauses with
  | nil => simp [totalWeight, dropColumn]
  | cons c cs ih =>
    have := c.weight_dropColumn_le
    simp only [totalWeight, dropColumn, List.map_cons] at ih ⊢
    omega

theorem totalWeight_specialize_le (k : ConId) (arity : Nat) (clauses : List Clause) :
    totalWeight (specialize k arity clauses) ≤ totalWeight clauses := by
  induction clauses with
  | nil => simp [totalWeight, specialize]
  | cons c cs ih =>
    simp only [totalWeight, specialize] at ih ⊢
    cases h : c.specialize k arity with
    | none =>
      rw [List.filterMap_cons_none h]
      omega
    | some d =>
      have := Clause.weight_specialize_le h
      rw [List.filterMap_cons_some h, totalWeight]
      omega

/-- A split makes the clauses lighter: one that asked for a constructor is gone, or asks for one
less. -/
theorem totalWeight_specialize_lt (k : ConId) (arity : Nat) (clauses : List Clause)
    (h : clauses.all Clause.startsOpen = false) :
    totalWeight (specialize k arity clauses) < totalWeight clauses := by
  induction clauses with
  | nil => simp at h
  | cons c cs ih =>
    have hle := totalWeight_specialize_le k arity cs
    have hpos := c.weight_pos
    simp only [totalWeight, specialize] at ih hle ⊢
    cases hc : c.specialize k arity with
    | none =>
      rw [List.filterMap_cons_none hc]
      omega
    | some d =>
      rw [List.filterMap_cons_some hc, totalWeight]
      cases ho : c.startsOpen with
      | false =>
        have := Clause.weight_specialize_lt hc ho
        omega
      | true =>
        have := Clause.weight_specialize_le hc
        have := ih (by simpa [ho] using h)
        omega

/-! ## Compilation -/

/-- The constructors to split a column on: those of its type, if some clause asks for one. -/
def splitOn (shape : DataShape) (clauses : List Clause) : Option (List ConId) :=
  match shape with
  | .indestructible => none
  | .destructible constructors => if clauses.all Clause.startsOpen then none else some constructors

theorem all_startsOpen_of_splitOn {shape : DataShape} {clauses : List Clause}
    {constructors : List ConId} (h : splitOn shape clauses = some constructors) :
    clauses.all Clause.startsOpen = false := by
  unfold splitOn at h
  split at h
  · cases h
  · split at h
    · cases h
    next hn => simpa using hn

/-- The fields of a constructor as columns. -/
def Constructor.parameters (con : Constructor) : List Parameter :=
  con.fields.zipIdx.map fun (ty, i) => ⟨con.name ++ "_" ++ toString i, ty⟩

/-- The number behind that of a column, if the column does not have the last one. -/
def nextColumn? (column : UInt64) : Option UInt64 :=
  if column.toNat + 1 < UInt64.size then some (column + 1) else none

theorem nextColumn?_eq_some {column next : UInt64} :
    nextColumn? column = some next ↔ next.toNat = column.toNat + 1 := by
  have hlt : next.toNat < UInt64.size := next.toNat_lt
  unfold nextColumn?
  split
  · rename_i h
    have hadd : (column + 1).toNat = column.toNat + 1 := by
      rw [UInt64.toNat_add]
      exact Nat.mod_eq_of_lt h
    rw [Option.some_inj, ← UInt64.toNat_inj, hadd]
    exact eq_comm
  · rename_i h
    constructor
    · intro e
      cases e
    · intro e
      rw [e] at hlt
      exact absurd hlt h

/-- The case tree of a matrix whose first column has the number `column`. -/
def compile (sig : Signature) (column : UInt64) (telescope : List Parameter)
    (clauses : List Clause) : Option CaseTree :=
  match telescope with
  | [] => some (.leaf (clauses.map Clause.id))
  | parameter :: rest => do
    let data ← sig.dataType? parameter.ty
    match h : splitOn data.shape clauses with
    | none =>
      let next ← nextColumn? column
      compile sig next rest (dropColumn clauses)
    | some constructors =>
      let branches ← constructors.mapM fun k => do
        let con ← sig.constructor? k
        let next ← nextColumn? column
        let tree ← compile sig next (con.parameters ++ rest)
          (specialize k con.fields.length clauses)
        return (k, tree)
      return .node column parameter.name branches
termination_by (totalWeight clauses, telescope.length)
decreasing_by
  · have := totalWeight_dropColumn_le clauses
    simp only [Prod.lex_def, List.length_cons]
    omega
  · have := totalWeight_specialize_lt k con.fields.length clauses (all_startsOpen_of_splitOn h)
    simp only [Prod.lex_def]
    omega

namespace ClauseMatrix

/-- The case tree of a matrix, with columns numbered from `column` on. -/
def caseTree? (m : ClauseMatrix) (sig : Signature) (column : UInt64) : Option CaseTree :=
  compile sig column m.telescope m.clauses

end ClauseMatrix

end DepLang.Matching
