import DepLang.Matching.ClauseMatrix
import DepLang.Proofs.Matching.Declarations
import DepLang.Proofs.Runs

/-!
# Well-typed patterns, and the matrices that are accepted

A binder is a pattern of every type. A constructor pattern is one of the type that the constructor
makes values of, if it has one pattern per field and these are well typed in turn. The definition
looks at the whole pattern at once and knows no errors.

* `Pattern.checkAll_eq_ok`: the checks from left to right accept exactly the well-typed patterns.
* `ClauseMatrix.ofClauses_eq_ok`: a matrix is accepted exactly if it has a column, its types are
  declared and its clauses are well typed.
-/
namespace DepLang.Matching

namespace Pattern

mutual

/-- The pattern is one of values of the type. -/
def HasType (sig : Signature) (ty : DataId) : Pattern → Prop
  | bind _ => True
  | con k fields =>
    ∃ declared, sig.constructor? k = some declared ∧ declared.data = ty ∧
      HaveTypes sig declared.fields fields

/-- There is one pattern per type, and each is one of its type. -/
def HaveTypes (sig : Signature) : List DataId → List Pattern → Prop
  | [], [] => True
  | ty :: tys, p :: ps => HasType sig ty p ∧ HaveTypes sig tys ps
  | _, _ => False

end

theorem HaveTypes.length_eq {sig : Signature} : ∀ {tys : List DataId} {ps : List Pattern},
    HaveTypes sig tys ps → ps.length = tys.length
  | [], [], _ => rfl
  | _ :: _, _ :: _, h => by
    rw [HaveTypes] at h
    simp [length_eq h.2]
  | [], _ :: _, h => by simp [HaveTypes] at h
  | _ :: _, [], h => by simp [HaveTypes] at h

theorem HaveTypes.append {sig : Signature} {us : List DataId} {qs : List Pattern}
    (hq : HaveTypes sig us qs) : ∀ {tys : List DataId} {ps : List Pattern},
    HaveTypes sig tys ps → HaveTypes sig (tys ++ us) (ps ++ qs)
  | [], [], _ => hq
  | _ :: _, _ :: _, h => by
    rw [HaveTypes] at h
    simp only [List.cons_append, HaveTypes]
    exact ⟨h.1, append hq h.2⟩
  | [], _ :: _, h => by simp [HaveTypes] at h
  | _ :: _, [], h => by simp [HaveTypes] at h

mutual

theorem check_eq_ok {sig : Signature} {ty : DataId} : ∀ {p : Pattern},
    check sig ty p = .ok () ↔ HasType sig ty p
  | bind _ => by simp [check, HasType]
  | con k fields => by
    rw [check, HasType, except_bind_eq_ok]
    refine exists_congr fun declared => ?_
    rw [Signature.constructor_eq_ok]
    refine and_congr_right fun _ => ?_
    by_cases hd : declared.data = ty
    · by_cases hl : fields.length = declared.fields.length
      · simpa [hd, hl] using checkAll_eq_ok hl
      · have : ¬ HaveTypes sig declared.fields fields := fun h => hl h.length_eq
        simp [hd, hl, this]
    · simp [hd]

theorem checkAll_eq_ok {sig : Signature} : ∀ {tys : List DataId} {ps : List Pattern},
    ps.length = tys.length → (checkAll sig tys ps = .ok () ↔ HaveTypes sig tys ps)
  | [], [], _ => by simp [checkAll, HaveTypes]
  | ty :: tys, p :: ps, h => by
    have hps : ps.length = tys.length := by simpa using h
    rw [checkAll, HaveTypes, except_bind_eq_ok, ← check_eq_ok, ← checkAll_eq_ok hps]
    exact ⟨fun ⟨_, hp, hs⟩ => ⟨hp, hs⟩, fun ⟨hp, hs⟩ => ⟨(), hp, hs⟩⟩
  | [], _ :: _, h => by simp at h
  | _ :: _, [], h => by simp at h

end

end Pattern

namespace Clause

/-- The clause has a pattern for each column, of the type of the column. -/
def WellTyped (sig : Signature) (telescope : List Parameter) (c : Clause) : Prop :=
  Pattern.HaveTypes sig (telescope.map Parameter.ty) c.patterns

theorem check_eq_ok {sig : Signature} {telescope : List Parameter} {c : Clause} :
    c.check sig telescope = .ok () ↔ c.WellTyped sig telescope := by
  unfold Clause.check WellTyped
  split
  · rename_i hl
    exact Pattern.checkAll_eq_ok (by simpa using hl)
  · rename_i hl
    have : ¬ Pattern.HaveTypes sig (telescope.map Parameter.ty) c.patterns :=
      fun h => hl (by simpa using h.length_eq)
    simp [this]

end Clause

namespace ClauseMatrix

theorem forM_check_eq_ok {sig : Signature} {telescope : List Parameter} {clauses : List Clause} :
    clauses.forM (Clause.check sig telescope) = .ok () ↔
      ∀ c ∈ clauses, c.WellTyped sig telescope := by
  induction clauses with
  | nil => simp [pure, Except.pure]
  | cons c cs ih =>
    rw [List.forall_mem_cons, ← Clause.check_eq_ok, ← ih]
    show (Clause.check sig telescope c >>= fun _ => cs.forM (Clause.check sig telescope)) = _ ↔ _
    rw [except_bind_eq_ok]
    exact ⟨fun ⟨_, hc, hs⟩ => ⟨hc, hs⟩, fun ⟨hc, hs⟩ => ⟨(), hc, hs⟩⟩

/-- **Acceptance.** What is accepted is the matrix itself, and it is accepted exactly if it fits the
signature. -/
theorem ofClauses_eq_ok {sig : Signature} {telescope : List Parameter} {clauses : List Clause}
    {m : ClauseMatrix} : ofClauses sig telescope clauses = .ok m ↔
      m = ⟨telescope, clauses⟩ ∧ telescope ≠ [] ∧
      (∀ parameter ∈ telescope, (sig.dataType? parameter.ty).isSome) ∧
      ∀ c ∈ clauses, c.WellTyped sig telescope := by
  have hr := @Signature.requireData_eq_ok sig (telescope.map Parameter.ty)
  rw [List.forall_mem_map] at hr
  rw [← hr, ← forM_check_eq_ok, ofClauses]
  by_cases ht : telescope = []
  · simp [ht]
  · rw [if_neg (by simpa using ht), except_bind_eq_ok]
    simp only [except_bind_eq_ok, Except.ok.injEq]
    constructor
    · rintro ⟨_, hd, _, hf, rfl⟩
      exact ⟨rfl, ht, hd, hf⟩
    · rintro ⟨rfl, -, hd, hf⟩
      exact ⟨(), hd, (), hf, rfl⟩

end ClauseMatrix

end DepLang.Matching
