import DepLang.Proofs.FirstFaults
import DepLang.Proofs.Matching.Acceptance

/-!
# Why a matrix is rejected

A fault of a pattern is at a position in it: a constructor that is not declared, that makes values
of another type, or that has another number of fields. `Pattern.FaultAt` says so of every position
on its own, also of those that a check never gets to. The same is done for a whole matrix by
`ClauseMatrix.FaultAt`. Its positions put the telescope before all clauses, and the length of a row
before its patterns.

* `Pattern.check_reportsFirst`: checking a pattern reports its first fault. The induction is on the
  pattern; a node is three tests at the position of the whole, and the checks of the fields one
  after the other.
* `ClauseMatrix.ofClauses_reportsFirst`: the same for a matrix.
* `Pattern.haveTypes_iff`: well-typed rows, column by column.
-/
namespace DepLang.Matching

namespace Pattern

/-- Something is wrong in a pattern of the type, at this position. -/
inductive FaultAt (sig : Signature) : DataId → Pattern → List Nat → MatchingError → Prop where
  | undeclared {ty : DataId} {k : ConId} {fields : List Pattern} :
      sig.constructor? k = none → FaultAt sig ty (con k fields) [] (.undeclaredConstructor k)
  | foreign {ty : DataId} {k : ConId} {fields : List Pattern} {declared : Constructor} :
      sig.constructor? k = some declared → declared.data ≠ ty →
      FaultAt sig ty (con k fields) [] (.foreignConstructor k ty)
  | arity {ty : DataId} {k : ConId} {fields : List Pattern} {declared : Constructor} :
      sig.constructor? k = some declared → declared.data = ty →
      fields.length ≠ declared.fields.length →
      FaultAt sig ty (con k fields) [] (.patternArity k declared.fields.length fields.length)
  | field {ty : DataId} {k : ConId} {fields : List Pattern} {declared : Constructor} {i : Nat}
      {fieldTy : DataId} {p : Pattern} {inside : List Nat} {e : MatchingError} :
      sig.constructor? k = some declared → declared.fields[i]? = some fieldTy →
      fields[i]? = some p → FaultAt sig fieldTy p inside e →
      FaultAt sig ty (con k fields) (i :: inside) e

variable {sig : Signature}

theorem FaultAt.unique {ty : DataId} {p : Pattern} {position : List Nat} {e e' : MatchingError}
    (h : FaultAt sig ty p position e) (h' : FaultAt sig ty p position e') : e = e' := by
  induction h with
  | undeclared hk =>
    cases h' with
    | undeclared => rfl
    | foreign hk' | arity hk' => simp [hk] at hk'
  | foreign hk hne =>
    cases h' with
    | undeclared hk' => simp [hk] at hk'
    | foreign => rfl
    | arity hk' heq =>
      obtain rfl := Option.some.inj (hk.symm.trans hk')
      exact absurd heq hne
  | arity hk heq =>
    cases h' with
    | undeclared hk' => simp [hk] at hk'
    | foreign hk' hne =>
      obtain rfl := Option.some.inj (hk.symm.trans hk')
      exact absurd heq hne
    | arity hk' =>
      obtain rfl := Option.some.inj (hk.symm.trans hk')
      rfl
  | field hk hty hp _ ih =>
    cases h' with
    | field hk' hty' hp' h' =>
      obtain rfl := Option.some.inj (hk.symm.trans hk')
      obtain rfl := Option.some.inj (hty.symm.trans hty')
      obtain rfl := Option.some.inj (hp.symm.trans hp')
      exact ih h'

theorem checkAll_eq_forM (tys : List DataId) (ps : List Pattern) :
    checkAll sig tys ps = (tys.zip ps).forM fun column => check sig column.1 column.2 := by
  induction tys generalizing ps with
  | nil => simp [checkAll, pure, Except.pure]
  | cons ty tys ih =>
    cases ps with
    | nil => simp [checkAll, pure, Except.pure]
    | cons p ps =>
      rw [checkAll, ih]
      rfl

/-- A row of patterns reports the first fault of its patterns if each of them reports its own. -/
theorem checkAll_reportsFirst (tys : List DataId) (ps : List Pattern)
    (h : ∀ p ∈ ps, ∀ ty, ReportsFirst (FaultAt sig ty p) (check sig ty p)) :
    ReportsFirst (fun position e => ∃ (i : Nat) (ty : DataId) (p : Pattern) (inside : List Nat),
      position = i :: inside ∧ tys[i]? = some ty ∧ ps[i]? = some p ∧ FaultAt sig ty p inside e)
      (checkAll sig tys ps) := by
  rw [checkAll_eq_forM]
  refine (ReportsFirst.forM fun column hcolumn =>
    h column.2 (List.of_mem_zip hcolumn).2 column.1).congr fun position e => ?_
  simp only [List.getElem?_zip_eq_some, Prod.exists]
  constructor
  · rintro ⟨i, ty, p, inside, rfl, hty, hp, he⟩
    exact ⟨i, ty, p, inside, rfl, ⟨hty, hp⟩, he⟩
  · rintro ⟨i, ty, p, inside, rfl, ⟨hty, hp⟩, he⟩
    exact ⟨i, ty, p, inside, rfl, hty, hp, he⟩

/-- If nothing is wrong with a constructor pattern itself, its faults are those of its fields. -/
theorem faultAt_con {k : ConId} {fields : List Pattern} {declared : Constructor}
    {position : List Nat} {e : MatchingError} (hk : sig.constructor? k = some declared)
    (hlength : fields.length = declared.fields.length) :
    FaultAt sig declared.data (con k fields) position e ↔
      ∃ (i : Nat) (ty : DataId) (p : Pattern) (inside : List Nat), position = i :: inside ∧
        declared.fields[i]? = some ty ∧ fields[i]? = some p ∧ FaultAt sig ty p inside e := by
  constructor
  · intro h
    cases h with
    | undeclared hk' => simp [hk] at hk'
    | foreign hk' hne =>
      obtain rfl := Option.some.inj (hk.symm.trans hk')
      exact absurd rfl hne
    | arity hk' _ hne =>
      obtain rfl := Option.some.inj (hk.symm.trans hk')
      exact absurd hlength hne
    | field hk' hty hp he =>
      obtain rfl := Option.some.inj (hk.symm.trans hk')
      exact ⟨_, _, _, _, rfl, hty, hp, he⟩
  · rintro ⟨i, ty, p, inside, rfl, hty, hp, he⟩
    exact .field hk hty hp he

theorem check_reportsFirst (ty : DataId) (p : Pattern) :
    ReportsFirst (FaultAt sig ty p) (check sig ty p) := by
  cases p with
  | bind name =>
    rw [check]
    exact .of_ok fun _ _ h => by cases h
  | con k fields =>
    rw [check]
    cases hk : sig.constructor? k with
    | none =>
      have : sig.constructor k = .error (.undeclaredConstructor k) := by
        rw [Signature.constructor, hk]
      rw [this]
      exact .of_whole (.undeclared hk)
    | some declared =>
      rw [Signature.constructor_eq_ok.2 hk]
      show ReportsFirst _ (if declared.data ≠ ty then _ else _)
      by_cases hd : declared.data = ty
      · subst hd
        rw [if_neg (by simp)]
        by_cases hl : fields.length = declared.fields.length
        · rw [if_neg (by simpa using hl)]
          refine (checkAll_reportsFirst declared.fields fields fun p hp fieldTy => ?_).congr
            fun _ _ => faultAt_con hk hl
          exact check_reportsFirst fieldTy p
        · rw [if_pos hl]
          exact .of_whole (.arity hk rfl hl)
      · rw [if_pos hd]
        exact .of_whole (.foreign hk hd)
termination_by sizeOf p
decreasing_by
  have := List.sizeOf_lt_of_mem hp
  simp only [con.sizeOf_spec]
  omega

theorem haveTypes_iff {tys : List DataId} {ps : List Pattern} :
    HaveTypes sig tys ps ↔ ps.length = tys.length ∧
      ∀ (i : Nat) ty p, tys[i]? = some ty → ps[i]? = some p → HasType sig ty p := by
  induction tys generalizing ps with
  | nil =>
    cases ps with
    | nil => simp [HaveTypes]
    | cons p ps => simp [HaveTypes]
  | cons ty tys ih =>
    cases ps with
    | nil => simp [HaveTypes]
    | cons p ps =>
      rw [HaveTypes, ih]
      constructor
      · rintro ⟨hp, hlength, hall⟩
        refine ⟨by simp [hlength], fun i => ?_⟩
        cases i with
        | zero =>
          rintro _ _ ⟨⟩ ⟨⟩
          exact hp
        | succ i => exact hall i
      · rintro ⟨hlength, hall⟩
        exact ⟨hall 0 ty p rfl rfl, by simpa using hlength, fun i => hall (i + 1)⟩

end Pattern

namespace Signature

variable {sig : Signature}

theorem requireData_eq_forM (ids : List DataId) :
    sig.requireData ids = ids.forM fun id => (sig.dataType id).map fun _ => () := by
  induction ids with
  | nil => rfl
  | cons id ids ih =>
    rw [requireData, ih]
    show _ = ((sig.dataType id).map fun _ => ()) >>= fun _ => _
    cases sig.dataType id <;> rfl

theorem dataType_reportsFirst (id : DataId) :
    ReportsFirst (fun position e => position = [] ∧ sig.dataType? id = none ∧
      e = .undeclaredData id) (sig.dataType id) := by
  cases hid : sig.dataType? id with
  | none =>
    have : sig.dataType id = .error (.undeclaredData id) := by
      rw [dataType, hid]
    rw [this]
    exact .of_whole ⟨rfl, rfl, rfl⟩
  | some data =>
    rw [dataType_eq_ok.2 hid]
    exact .of_ok fun _ _ h => by cases h.2.1

theorem requireData_reportsFirst (ids : List DataId) :
    ReportsFirst (fun position e => ∃ (i : Nat) (id : DataId), position = [i] ∧
      ids[i]? = some id ∧ sig.dataType? id = none ∧ e = .undeclaredData id)
      (sig.requireData ids) := by
  rw [requireData_eq_forM]
  refine (ReportsFirst.forM fun id _ => (dataType_reportsFirst id).map fun _ => ()).congr
    fun position e => ?_
  constructor
  · rintro ⟨i, id, rfl, hid, hnone, rfl⟩
    exact ⟨i, id, [], rfl, hid, rfl, hnone, rfl⟩
  · rintro ⟨i, id, _, rfl, hid, rfl, hnone, rfl⟩
    exact ⟨i, id, rfl, hid, hnone, rfl⟩

end Signature

namespace Clause

/-- Something is wrong in a row for the telescope: its length, or a pattern. -/
inductive FaultAt (sig : Signature) (telescope : List Parameter) (c : Clause) :
    List Nat → MatchingError → Prop where
  | length : c.patterns.length ≠ telescope.length →
      FaultAt sig telescope c [] (.clauseArity c.id telescope.length c.patterns.length)
  | pattern {i : Nat} {parameter : Parameter} {p : Pattern} {inside : List Nat}
      {e : MatchingError} : telescope[i]? = some parameter → c.patterns[i]? = some p →
      p.FaultAt sig parameter.ty inside e → FaultAt sig telescope c (i :: inside) e

variable {sig : Signature} {telescope : List Parameter}

theorem FaultAt.unique {c : Clause} {position : List Nat} {e e' : MatchingError}
    (h : c.FaultAt sig telescope position e) (h' : c.FaultAt sig telescope position e') :
    e = e' := by
  cases h with
  | length =>
    cases h'
    rfl
  | pattern hparameter hp he =>
    cases h' with
    | pattern hparameter' hp' he' =>
      obtain rfl := Option.some.inj (hparameter.symm.trans hparameter')
      obtain rfl := Option.some.inj (hp.symm.trans hp')
      exact he.unique he'

theorem check_reportsFirst (sig : Signature) (telescope : List Parameter) (c : Clause) :
    ReportsFirst (c.FaultAt sig telescope) (c.check sig telescope) := by
  unfold check
  by_cases hlength : c.patterns.length = telescope.length
  · rw [if_pos hlength]
    refine (Pattern.checkAll_reportsFirst _ _ fun p _ ty => p.check_reportsFirst ty).congr
      fun position e => ?_
    simp only [List.getElem?_map, Option.map_eq_some_iff]
    constructor
    · intro h
      cases h with
      | length hne => exact absurd hlength hne
      | pattern hparameter hp he => exact ⟨_, _, _, _, rfl, ⟨_, hparameter, rfl⟩, hp, he⟩
    · rintro ⟨i, _, p, inside, rfl, ⟨parameter, hparameter, rfl⟩, hp, he⟩
      exact .pattern hparameter hp he
  · rw [if_neg hlength]
    exact .of_whole (.length hlength)

theorem wellTyped_iff {c : Clause} : c.WellTyped sig telescope ↔
    c.patterns.length = telescope.length ∧ ∀ (i : Nat) parameter p,
      telescope[i]? = some parameter → c.patterns[i]? = some p → p.HasType sig parameter.ty := by
  rw [WellTyped, Pattern.haveTypes_iff]
  simp only [List.length_map, List.getElem?_map, Option.map_eq_some_iff]
  refine and_congr_right fun _ => forall_congr' fun i => ?_
  constructor
  · intro h parameter p hparameter hp
    exact h parameter.ty p ⟨parameter, hparameter, rfl⟩ hp
  · rintro h _ p ⟨parameter, hparameter, rfl⟩ hp
    exact h parameter p hparameter hp

end Clause

namespace ClauseMatrix

/-- Something is wrong in a matrix. The telescope is its part 0 and the clauses are its part 1. -/
inductive FaultAt (sig : Signature) (telescope : List Parameter) (clauses : List Clause) :
    List Nat → MatchingError → Prop where
  | empty : telescope = [] → FaultAt sig telescope clauses [] .emptyTelescope
  | column {i : Nat} {parameter : Parameter} : telescope[i]? = some parameter →
      sig.dataType? parameter.ty = none →
      FaultAt sig telescope clauses [0, i] (.undeclaredData parameter.ty)
  | clause {j : Nat} {c : Clause} {inside : List Nat} {e : MatchingError} :
      clauses[j]? = some c → c.FaultAt sig telescope inside e →
      FaultAt sig telescope clauses (1 :: j :: inside) e

variable {sig : Signature} {telescope : List Parameter} {clauses : List Clause}

theorem FaultAt.unique {position : List Nat} {e e' : MatchingError}
    (h : FaultAt sig telescope clauses position e)
    (h' : FaultAt sig telescope clauses position e') : e = e' := by
  cases h with
  | empty =>
    cases h'
    rfl
  | column hparameter =>
    cases h' with
    | column hparameter' =>
      obtain rfl := Option.some.inj (hparameter.symm.trans hparameter')
      rfl
  | clause hc he =>
    cases h' with
    | clause hc' he' =>
      obtain rfl := Option.some.inj (hc.symm.trans hc')
      exact he.unique he'

theorem ofClauses_reportsFirst :
    ReportsFirst (FaultAt sig telescope clauses) (ofClauses sig telescope clauses) := by
  unfold ofClauses
  by_cases ht : telescope = []
  · rw [if_pos (by simp [ht])]
    exact .of_whole (.empty ht)
  · rw [if_neg (by simpa using ht)]
    have hclauses := (ReportsFirst.forM fun c (_ : c ∈ clauses) =>
      c.check_reportsFirst sig telescope).map fun _ => (⟨telescope, clauses⟩ : ClauseMatrix)
    refine ((sig.requireData_reportsFirst _).andThen hclauses).congr fun position e => ?_
    simp only [List.getElem?_map, Option.map_eq_some_iff]
    constructor
    · intro h
      cases h with
      | empty hempty => exact absurd hempty ht
      | column hparameter hnone =>
        exact .inl ⟨_, rfl, _, _, rfl, ⟨_, hparameter, rfl⟩, hnone, rfl⟩
      | clause hc he => exact .inr ⟨_, rfl, _, _, _, rfl, hc, he⟩
    · rintro (⟨_, rfl, i, _, rfl, ⟨parameter, hparameter, rfl⟩, hnone, rfl⟩ |
        ⟨_, rfl, j, c, inside, rfl, hc, he⟩)
      · exact .column hparameter hnone
      · exact .clause hc he

/-- **Acceptance and rejection.** A matrix is accepted, as it is, exactly if it has a column, the
types of its columns are declared, and each row has one pattern per column, of the type of the
column. Otherwise the error is the first thing that is wrong with it: the types of the columns come
before the clauses, the length of a row before its patterns, and a pattern before its fields. -/
theorem ofClauses_reports_first_violation (sig : Signature) (telescope : List Parameter)
    (clauses : List Clause) :
    (∀ m, ofClauses sig telescope clauses = .ok m ↔ m = ⟨telescope, clauses⟩ ∧ telescope ≠ [] ∧
      (∀ parameter ∈ telescope, (sig.dataType? parameter.ty).isSome) ∧
      ∀ c ∈ clauses, c.patterns.length = telescope.length ∧
        ∀ (i : Nat) parameter p, telescope[i]? = some parameter → c.patterns[i]? = some p →
          p.HasType sig parameter.ty) ∧
    ∀ e, ofClauses sig telescope clauses = .error e ↔
      ∃ position, FirstFault (FaultAt sig telescope clauses) position e := by
  refine ⟨fun m => ?_, fun e => ?_⟩
  · rw [ofClauses_eq_ok]
    simp only [Clause.wellTyped_iff]
  · exact ofClauses_reportsFirst.eq_error_iff fun _ _ _ => FaultAt.unique

-- The second clause is too short and the first has a fault inside: the first one is reported.
example :
    let sig : Signature :=
      ⟨#[⟨"Nat", .destructible [⟨0⟩, ⟨1⟩]⟩], #[⟨"zero", ⟨0⟩, []⟩, ⟨"suc", ⟨0⟩, [⟨0⟩]⟩]⟩
    let deep : Pattern := .con ⟨1⟩ [.con ⟨1⟩ [.con ⟨0⟩ [.bind "x"]]]
    ofClauses sig [⟨"n", ⟨0⟩⟩, ⟨"m", ⟨0⟩⟩] [⟨7, [deep, .con ⟨2⟩ []]⟩, ⟨8, []⟩] =
        .error (.patternArity ⟨0⟩ 0 1) ∧
      ofClauses sig [⟨"n", ⟨0⟩⟩, ⟨"m", ⟨1⟩⟩] [⟨7, [deep]⟩] = .error (.undeclaredData ⟨1⟩) :=
  ⟨rfl, rfl⟩

end ClauseMatrix

end DepLang.Matching
