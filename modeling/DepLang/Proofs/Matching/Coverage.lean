import DepLang.Proofs.Matching.Decision

/-!
# What a case tree leaves out is exactly what the clauses leave out

`CaseTree.coverage` walks over the leaves of a tree and never sees a value. Here its answers are
compared with what the clauses of the matrix do to rows of values.

* A row follows one path to one leaf (`CaseTree.follow`), and that leaf is in the list of leaves
  (`CaseTree.follow_mem_leaves`). So a clause that fires for some row fires at some leaf.
* No two leaves have the same path, since no type lists a constructor twice
  (`ids_unique_of_compile`). So a path is uncovered exactly if the rows that follow it match nothing.
* If every type has a value, every leaf is reached by a row (`exists_follow_of_compile`). So what
  happens at a leaf happens to a row, and both lists are exact.
-/
namespace DepLang.Matching

theorem Value.HaveTypes.append_inv {sig : Signature} {us : List DataId} :
    ∀ {tys : List DataId} {row : List Value}, HaveTypes sig (tys ++ us) row →
      ∃ vs ws, row = vs ++ ws ∧ HaveTypes sig tys vs ∧ HaveTypes sig us ws
  | [], row, h => ⟨[], row, rfl, by simp [HaveTypes], h⟩
  | ty :: tys, row, h => by
    obtain ⟨v, rest, rfl, hv, hrest⟩ := HaveTypes.cons_inv h
    obtain ⟨vs, ws, rfl, hvs, hws⟩ := append_inv hrest
    exact ⟨v :: vs, ws, rfl, by rw [HaveTypes]; exact ⟨hv, hvs⟩, hws⟩

/-! ## Paths and leaves -/

section Leaves

variable {sig : Signature} {column : UInt64} {telescope : List Parameter} {clauses : List Clause}
  {tree : CaseTree}

theorem ids_unique_of_compile (hsig : sig.Declared)
    (hfits : ClauseMatrix.Fits sig ⟨telescope, clauses⟩)
    (h : compile sig column telescope clauses = some tree) :
    ∀ path ids ids', (path, ids) ∈ tree.leaves → (path, ids') ∈ tree.leaves → ids = ids' := by
  refine compile_induction hsig.wellFormed (motive := fun _ _ _ tree =>
    ∀ path ids ids', (path, ids) ∈ tree.leaves → (path, ids') ∈ tree.leaves → ids = ids')
    ?_ ?_ ?_ hfits h
  · intro column clauses _ path ids ids' hm hm'
    simp only [CaseTree.leaves, List.mem_singleton, Prod.mk.injEq] at hm hm'
    rw [hm.2, hm'.2]
  · intro column next parameter rest clauses data tree _ _ _ _ _ ih
    exact ih
  · intro column parameter rest clauses data branches _ hd hs ih path ids ids' hm hm'
    rw [CaseTree.leaves, CaseTree.mem_leavesOfBranches] at hm hm'
    obtain ⟨k, t, p, hk, rfl, hp⟩ := hm
    obtain ⟨k', t', p', hk', he, hp'⟩ := hm'
    cases he
    have hn := hsig.nodup (hasConstructors_of_splitOn hd hs)
    obtain rfl : t = t' := (Prod.mk.inj (List.inj_on_of_nodup_map hn hk hk' rfl)).2
    obtain ⟨_, _, -, -, -, ihk⟩ := ih k t hk
    exact ihk p ids ids' hp hp'

/-- If every declared type has a value, some row follows each path. -/
theorem exists_follow_of_compile (hsig : sig.Declared)
    (hvalue : ∀ ty, (sig.dataType? ty).isSome → ∃ v, Value.HasType sig ty v)
    (hfits : ClauseMatrix.Fits sig ⟨telescope, clauses⟩)
    (h : compile sig column telescope clauses = some tree) :
    ∀ path ids, (path, ids) ∈ tree.leaves →
      ∃ row, Value.HaveTypes sig (telescope.map Parameter.ty) row ∧
        tree.follow column.toNat row = some (path, ids) := by
  refine compile_induction hsig.wellFormed (motive := fun column telescope _ tree =>
    ∀ path ids, (path, ids) ∈ tree.leaves →
      ∃ row, Value.HaveTypes sig (telescope.map Parameter.ty) row ∧
        tree.follow column.toNat row = some (path, ids)) ?_ ?_ ?_ hfits h
  · intro column clauses _ path ids hm
    simp only [CaseTree.leaves, List.mem_singleton, Prod.mk.injEq] at hm
    refine ⟨[], by simp [Value.HaveTypes], ?_⟩
    rw [CaseTree.follow, hm.1, hm.2]
  · intro column next parameter rest clauses data tree hfits hd _ hnext hcompile ih path ids hm
    obtain ⟨row, hrow, hf⟩ := ih path ids hm
    obtain ⟨v, hv⟩ := hvalue parameter.ty (by simp [hd])
    have hle := column_le_of_compile hsig.wellFormed hfits.pass hcompile
    rw [nextColumn?_eq_some.1 hnext] at hf hle
    refine ⟨v :: row, ?_, ?_⟩
    · rw [List.map_cons, Value.HaveTypes]
      exact ⟨hv, hrow⟩
    · rw [CaseTree.follow_cons hle, hf]
  · intro column parameter rest clauses data branches _ hd hs ih path ids hm
    have hty := hasConstructors_of_splitOn hd hs
    rw [CaseTree.leaves, CaseTree.mem_leavesOfBranches] at hm
    obtain ⟨k, t, p, hk, rfl, hp⟩ := hm
    obtain ⟨con, next, hcon, hnext, -, ihk⟩ := ih k t hk
    obtain ⟨row, hrow, hf⟩ := ihk p ids hp
    -- The row for the branch begins with the fields of the constructor.
    rw [List.map_append, map_ty_parameters] at hrow
    obtain ⟨fields, others, rfl, hfields, hothers⟩ := hrow.append_inv
    obtain ⟨con', hcon', hdata⟩ := hsig.wellFormed.declared _ _ hty k
      (List.mem_map_of_mem (f := Prod.fst) hk)
    obtain rfl := Option.some.inj (hcon.symm.trans hcon')
    refine ⟨.con k fields :: others, ?_, ?_⟩
    · rw [List.map_cons, Value.HaveTypes, Value.HasType]
      exact ⟨⟨con, hcon, hdata, hfields⟩, hothers⟩
    · rw [nextColumn?_eq_some.1 hnext] at hf
      rw [CaseTree.follow, Nat.sub_self, List.drop_zero]
      show CaseTree.followBranches (column.toNat + 1) (fields ++ others) k branches = _
      rw [CaseTree.followBranches_of_mem (hsig.nodup hty) hk, hf]
      rfl

end Leaves

/-! ## Exact coverage -/

/-- `i` is the least number of a clause that matches the row. -/
def Fires (clauses : List Clause) (row : List Value) (i : Nat) : Prop :=
  (∃ c ∈ clauses, c.accepts row = true ∧ c.id = i) ∧
    ∀ c ∈ clauses, c.accepts row = true → i ≤ c.id

namespace CaseTree

variable {tree : CaseTree}

theorem mem_uncovered {path : List ConId} :
    path ∈ tree.uncovered ↔ ∃ ids, (path, ids) ∈ tree.leaves ∧ firing? ids = none := by
  simp only [uncovered, List.mem_filterMap, Option.isNone_iff_eq_none]
  constructor
  · rintro ⟨⟨p, ids⟩, hm, hp⟩
    split at hp
    · rename_i hids
      cases hp
      exact ⟨ids, hm, hids⟩
    · cases hp
  · rintro ⟨ids, hm, hids⟩
    exact ⟨(path, ids), hm, by rw [if_pos hids]⟩

theorem mem_fired {i : Nat} :
    i ∈ tree.fired ↔ ∃ path ids, (path, ids) ∈ tree.leaves ∧ firing? ids = some i := by
  simp [fired, List.mem_filterMap]

end CaseTree

section Rows

variable {sig : Signature} (hsig : sig.Declared) {column : UInt64} {telescope : List Parameter}
  {clauses : List Clause} {tree : CaseTree} (hfits : ClauseMatrix.Fits sig ⟨telescope, clauses⟩)
  (h : compile sig column telescope clauses = some tree)
include hsig hfits h

/-- A path to a leaf is uncovered exactly if nothing fires at the leaf. -/
theorem mem_uncovered_iff_of_compile {path : List ConId} {ids : List Nat}
    (hm : (path, ids) ∈ tree.leaves) : path ∈ tree.uncovered ↔ firing? ids = none := by
  rw [CaseTree.mem_uncovered]
  constructor
  · rintro ⟨ids', hm', hnone⟩
    rwa [ids_unique_of_compile hsig hfits h path ids ids' hm hm']
  · exact fun hnone => ⟨ids, hm, hnone⟩

theorem mem_fired_of_fires {row : List Value}
    (hrow : Value.HaveTypes sig (telescope.map Parameter.ty) row) {i : Nat}
    (hi : Fires clauses row i) : i ∈ tree.fired := by
  obtain ⟨path, hpath⟩ := follow_of_compile hsig hfits h row hrow
  have hleaf := CaseTree.follow_mem_leaves hpath
  exact CaseTree.mem_fired.2 ⟨path, _, hleaf, firing?_matching_eq_some.2 hi⟩

variable (hvalue : ∀ ty, (sig.dataType? ty).isSome → ∃ v, Value.HasType sig ty v)
include hvalue

/-- Each leaf is the leaf of a row, so its clauses are the ones that match the row. -/
theorem exists_row_of_leaf {path : List ConId} {ids : List Nat} (hm : (path, ids) ∈ tree.leaves) :
    ∃ row, Value.HaveTypes sig (telescope.map Parameter.ty) row ∧ ids = matching clauses row := by
  obtain ⟨row, hrow, hpath⟩ := exists_follow_of_compile hsig hvalue hfits h path ids hm
  obtain ⟨path', hpath'⟩ := follow_of_compile hsig hfits h row hrow
  rw [hpath] at hpath'
  cases hpath'
  exact ⟨row, hrow, rfl⟩

theorem uncovered_eq_nil_iff_of_compile :
    tree.uncovered = [] ↔ ∀ row, Value.HaveTypes sig (telescope.map Parameter.ty) row →
      ∃ c ∈ clauses, c.accepts row = true := by
  rw [List.eq_nil_iff_forall_not_mem]
  constructor
  · intro hnone row hrow
    obtain ⟨path, hpath⟩ := follow_of_compile hsig hfits h row hrow
    have hleaf := CaseTree.follow_mem_leaves hpath
    by_contra hun
    refine hnone path ((mem_uncovered_iff_of_compile hsig hfits h hleaf).2
      (firing?_matching_eq_none.2 fun c hc => ?_))
    exact Bool.eq_false_iff.2 fun ha => hun ⟨c, hc, ha⟩
  · intro hall path hpath
    obtain ⟨ids, hleaf, hnone⟩ := CaseTree.mem_uncovered.1 hpath
    obtain ⟨row, hrow, rfl⟩ := exists_row_of_leaf hsig hfits h hvalue hleaf
    obtain ⟨c, hc, ha⟩ := hall row hrow
    rw [firing?_matching_eq_none.1 hnone c hc] at ha
    cases ha

theorem mem_fired_iff_of_compile {i : Nat} :
    i ∈ tree.fired ↔ ∃ row, Value.HaveTypes sig (telescope.map Parameter.ty) row ∧
      Fires clauses row i := by
  constructor
  · intro hi
    obtain ⟨path, ids, hleaf, hids⟩ := CaseTree.mem_fired.1 hi
    obtain ⟨row, hrow, rfl⟩ := exists_row_of_leaf hsig hfits h hvalue hleaf
    exact ⟨row, hrow, firing?_matching_eq_some.1 hids⟩
  · rintro ⟨row, hrow, hi⟩
    exact mem_fired_of_fires hsig hfits h hrow hi

end Rows

/-- **Coverage is exact.** An accepted matrix over a declared signature has a case tree from every
column on that leaves it room, and what the tree says of its leaves holds of all rows of values. A
well-typed row follows one path, to the leaf of exactly the clauses that match it; the path is
uncovered exactly if no clause matches the row, and a clause that fires for the row is not shadowed.
If moreover every type has a value, no path is uncovered exactly if every row is matched, and the
shadowed clauses are, in their order, those that fire for no row. -/
theorem coverage_exact {sig : Signature} (hsig : sig.Declared) {telescope : List Parameter}
    {clauses : List Clause} {m : ClauseMatrix}
    (hm : ClauseMatrix.ofClauses sig telescope clauses = .ok m) {column : UInt64}
    (hroom : m.HasRoom sig column) :
    ∃ tree, m.caseTree? sig column = some tree ∧
      (∀ row, Value.HaveTypes sig (telescope.map Parameter.ty) row →
        ∃ path, tree.follow column.toNat row = some (path, matching clauses row) ∧
          (path ∈ (tree.coverage m).uncovered ↔ ∀ c ∈ clauses, c.accepts row = false) ∧
          ∀ i, Fires clauses row i → i ∉ (tree.coverage m).shadowed) ∧
      ((∀ ty, (sig.dataType? ty).isSome → ∃ v, Value.HasType sig ty v) →
        ((tree.coverage m).uncovered = [] ↔
          ∀ row, Value.HaveTypes sig (telescope.map Parameter.ty) row →
            ∃ c ∈ clauses, c.accepts row = true) ∧
        (tree.coverage m).shadowed = (clauses.map Clause.id).filter fun i =>
          @decide (∀ row, Value.HaveTypes sig (telescope.map Parameter.ty) row →
            ¬ Fires clauses row i) (Classical.propDecidable _)) := by
  have hfits := ClauseMatrix.Fits.ofClauses hm
  obtain ⟨tree, hcomp⟩ := hfits.exists_caseTree? hsig.wellFormed hroom
  obtain ⟨rfl, -, -, -⟩ := ClauseMatrix.ofClauses_eq_ok.1 hm
  refine ⟨tree, hcomp, fun row hrow => ?_, fun hvalue => ⟨?_, ?_⟩⟩
  · obtain ⟨path, hpath⟩ := follow_of_compile hsig hfits hcomp row hrow
    refine ⟨path, hpath, ?_, fun i hi hshadowed => ?_⟩
    · have hleaf := CaseTree.follow_mem_leaves hpath
      exact (mem_uncovered_iff_of_compile hsig hfits hcomp hleaf).trans firing?_matching_eq_none
    · have hnot := (List.mem_filter.1 hshadowed).2
      simp [mem_fired_of_fires hsig hfits hcomp hrow hi] at hnot
  · exact uncovered_eq_nil_iff_of_compile hsig hfits hcomp hvalue
  · refine List.filter_congr fun i _ => ?_
    have hfired := mem_fired_iff_of_compile hsig hfits hcomp hvalue (i := i)
    rw [Bool.eq_iff_iff]
    simp only [Bool.not_eq_true', List.contains_eq_mem, decide_eq_false_iff_not,
      decide_eq_true_eq, hfired, not_exists, not_and]

theorem peano_inhabited (ty : DataId) (h : (peano.dataType? ty).isSome) :
    ∃ v, Value.HasType peano ty v := by
  obtain ⟨i⟩ := ty
  match i with
  | 0 => exact ⟨.con ⟨0⟩ [], by simp [Value.HasType, Value.HaveTypes, peano, Signature.constructor?]⟩
  | 1 => exact ⟨.atom 0, by simp [Value.HasType, peano, Signature.dataType?]⟩
  | n + 2 => simp [peano, Signature.dataType?] at h

/-- The clauses leave out the number one, and the second asks for what the first asks for. So the
path of a row with the number one is uncovered, the third clause fires, and the second never does. -/
theorem coverage_exact_one :
    let telescope : List Parameter := [⟨"n", ⟨0⟩⟩, ⟨"t", ⟨1⟩⟩]
    let above : List Pattern := [.con ⟨1⟩ [.con ⟨1⟩ [.bind "k"]], .bind "t"]
    let clauses : List Clause := [⟨7, above⟩, ⟨9, above⟩, ⟨3, [.con ⟨0⟩ [], .bind "t"]⟩]
    let m : ClauseMatrix := ⟨telescope, clauses⟩
    let one : List Value := [.con ⟨1⟩ [.con ⟨0⟩ []], .atom 5]
    let zero : List Value := [.con ⟨0⟩ [], .atom 5]
    peano.Declared ∧ ClauseMatrix.ofClauses peano telescope clauses = .ok m ∧
      m.HasRoom peano 2 ∧ ∃ tree, m.caseTree? peano 2 = some tree ∧
        (∃ path, tree.follow 2 one = some (path, []) ∧ path ∈ (tree.coverage m).uncovered) ∧
        Fires clauses zero 3 ∧ 3 ∉ (tree.coverage m).shadowed ∧
        9 ∈ (tree.coverage m).shadowed ∧
        (tree.coverage m).uncovered ≠ [] := by
  intro telescope above clauses m one zero
  have hm : ClauseMatrix.ofClauses peano telescope clauses = .ok m := rfl
  have htyped : Value.HaveTypes peano (telescope.map Parameter.ty) one ∧
      Value.HaveTypes peano (telescope.map Parameter.ty) zero := by
    simp [telescope, one, zero, Value.HaveTypes, Value.HasType, peano, Signature.constructor?,
      Signature.dataType?]
  have hroom : m.HasRoom peano 2 :=
    (ClauseMatrix.Fits.ofClauses hm).hasRoom peano_declared.wellFormed peano_arity (by decide)
  obtain ⟨tree, ht, hrows, hexact⟩ := coverage_exact peano_declared hm hroom
  obtain ⟨huncovered, hshadowed⟩ := hexact peano_inhabited
  obtain ⟨path, hpath, hone, -⟩ := hrows one htyped.1
  obtain ⟨-, -, -, hzero⟩ := hrows zero htyped.2
  have hnone : ∀ c ∈ clauses, c.accepts one = false := by decide +kernel
  have hfires : Fires clauses zero 3 := by
    unfold Fires
    decide +kernel
  refine ⟨peano_declared, hm, hroom, tree, ht, ⟨path, hpath, hone.2 hnone⟩, hfires,
    hzero 3 hfires, ?_, ?_⟩
  · rw [hshadowed, List.mem_filter]
    refine ⟨by simp [clauses], @decide_eq_true _ (Classical.propDecidable _) ?_⟩
    -- What matches the second clause matches the first, which has a lower number.
    rintro row - ⟨⟨c, hc, ha, hid⟩, hleast⟩
    have hlast : ¬ (3 : Nat) = 9 := by decide
    have hfirst : Pattern.acceptsAll above row = true := by
      simp only [clauses, List.mem_cons, List.not_mem_nil, or_false] at hc
      rcases hc with rfl | rfl | rfl
      · exact ha
      · exact ha
      · exact absurd hid hlast
    exact absurd (hleast ⟨7, above⟩ List.mem_cons_self hfirst) (by decide)
  · intro hnil
    obtain ⟨c, hc, ha⟩ := huncovered.1 hnil one htyped.1
    rw [hnone c hc] at ha
    cases ha

end DepLang.Matching
