import DepLang.Matching.Coverage
import DepLang.Matching.Value
import DepLang.Proofs.Matching.Calls
import Mathlib.Data.List.Nodup

/-!
# Case trees decide what matches

Running the case tree of an accepted matrix on a well-typed row of values gives exactly the clauses
that match the row. The tree looks at one constructor at a time and the definition of matching looks
at the whole row, so each way in which `compile` rewrites the matrix needs its own bridge.

* `matching_dropColumn`: where every clause starts with a binder, the first column decides nothing.
* `matching_specialize`: a row that starts with a constructor matches the clauses that its fields
  and its other values match after the split on that constructor.
* `CaseTree.follow`: the leaf that a row leads to, with the path to it. Running a tree is following a
  path and forgetting it (`CaseTree.run_eq_follow`).
* `follow_of_compile`: the induction over `compile`; for an accepted matrix it says which clause
  fires.
-/
namespace DepLang.Matching

/-! ## Typed rows -/

namespace Value

theorem HaveTypes.length_eq {sig : Signature} : ∀ {tys : List DataId} {vs : List Value},
    HaveTypes sig tys vs → vs.length = tys.length
  | [], [], _ => rfl
  | _ :: _, _ :: _, h => by
    rw [HaveTypes] at h
    simp [length_eq h.2]
  | [], _ :: _, h => by simp [HaveTypes] at h
  | _ :: _, [], h => by simp [HaveTypes] at h

theorem HaveTypes.append {sig : Signature} {us : List DataId} {ws : List Value}
    (hw : HaveTypes sig us ws) : ∀ {tys : List DataId} {vs : List Value},
    HaveTypes sig tys vs → HaveTypes sig (tys ++ us) (vs ++ ws)
  | [], [], _ => hw
  | _ :: _, _ :: _, h => by
    rw [HaveTypes] at h
    simp only [List.cons_append, HaveTypes]
    exact ⟨h.1, append hw h.2⟩
  | [], _ :: _, h => by simp [HaveTypes] at h
  | _ :: _, [], h => by simp [HaveTypes] at h

theorem HaveTypes.cons_inv {sig : Signature} {ty : DataId} {tys : List DataId} {row : List Value}
    (h : HaveTypes sig (ty :: tys) row) :
    ∃ v vs, row = v :: vs ∧ HasType sig ty v ∧ HaveTypes sig tys vs := by
  cases row with
  | nil => simp [HaveTypes] at h
  | cons v vs =>
    rw [HaveTypes] at h
    exact ⟨v, vs, rfl, h⟩

theorem HasType.constructor {sig : Signature} (hsig : sig.WellFormed) {ty : DataId}
    {ks : List ConId} (hty : sig.HasConstructors ty ks) {v : Value} (h : v.HasType sig ty) :
    ∃ k con fields, v = .con k fields ∧ k ∈ ks ∧ sig.constructor? k = some con ∧
      HaveTypes sig con.fields fields := by
  cases v with
  | atom token =>
    obtain ⟨data, hd, hs⟩ := hty
    obtain ⟨data', hd', hs'⟩ := h
    rw [hd] at hd'
    cases hd'
    rw [hs] at hs'
    cases hs'
  | con k fields =>
    obtain ⟨con, hk, hc, hf⟩ := h
    exact ⟨k, con, fields, rfl, (hsig.mem_constructors_iff hty).2 ⟨con, hk, hc⟩, hk, hf⟩

end Value

/-! ## Matching, column by column -/

theorem acceptsAll_append : ∀ {ps : List Pattern} {vs : List Value} (qs : List Pattern)
    (ws : List Value), ps.length = vs.length →
    Pattern.acceptsAll (ps ++ qs) (vs ++ ws) =
      (Pattern.acceptsAll ps vs && Pattern.acceptsAll qs ws)
  | [], [], qs, ws, _ => by simp [Pattern.acceptsAll]
  | p :: ps, v :: vs, qs, ws, h => by
    simp only [List.cons_append, Pattern.acceptsAll]
    rw [acceptsAll_append qs ws (by simpa using h), Bool.and_assoc]
  | [], _ :: _, _, _, h => by simp at h
  | _ :: _, [], _, _, h => by simp at h

theorem acceptsAll_openFields (name : String) (vs : List Value) :
    Pattern.acceptsAll (Clause.openFields name vs.length) vs = true := by
  have binders : ∀ (is : List Nat) (ws : List Value), is.length = ws.length →
      Pattern.acceptsAll (is.map fun i => .bind (name ++ "_" ++ toString i)) ws = true := by
    intro is ws h
    induction is generalizing ws with
    | nil =>
      cases List.length_eq_zero_iff.1 h.symm
      rfl
    | cons i is ih =>
      cases ws with
      | nil => simp at h
      | cons w ws =>
        rw [List.map_cons, Pattern.acceptsAll, Pattern.accepts, Bool.true_and]
        exact ih ws (by simpa using h)
  exact binders _ _ List.length_range

theorem matching_cons (c : Clause) (cs : List Clause) (row : List Value) :
    matching (c :: cs) row =
      if c.accepts row = true then c.id :: matching cs row else matching cs row := by
  unfold matching
  rw [List.filter_cons]
  split <;> simp_all

theorem matching_dropColumn {clauses : List Clause} (h : clauses.all Clause.startsOpen = true)
    (v : Value) (row : List Value) :
    matching (dropColumn clauses) row = matching clauses (v :: row) := by
  induction clauses with
  | nil => rfl
  | cons c cs ih =>
    rw [List.all_cons, Bool.and_eq_true] at h
    have hc : c.dropColumn.accepts row = c.accepts (v :: row) := by
      obtain ⟨id, patterns⟩ := c
      cases patterns with
      | nil => simp [Clause.startsOpen] at h
      | cons p ps =>
        cases p with
        | bind name =>
          simp [Clause.accepts, Clause.dropColumn, Pattern.acceptsAll, Pattern.accepts]
        | con k fields => simp [Clause.startsOpen] at h
    have hcs := ih h.2
    unfold dropColumn at hcs ⊢
    rw [List.map_cons, matching_cons, matching_cons, hcs, hc]
    rfl

/-- What the split leaves of a clause matches the fields and the other values exactly if the clause
matches the constructor and the other values. -/
theorem accepts_specialize {sig : Signature} {k : ConId} {con : Constructor}
    (hk : sig.constructor? k = some con) {ty : DataId} {tys : List DataId} {c d : Clause}
    (hc : Pattern.HaveTypes sig (ty :: tys) c.patterns)
    (hd : c.specialize k con.fields.length = some d) {fields : List Value}
    (hf : fields.length = con.fields.length) (row : List Value) :
    d.id = c.id ∧ d.accepts (fields ++ row) = c.accepts (.con k fields :: row) := by
  obtain ⟨id, patterns⟩ := c
  cases patterns with
  | nil => simp [Clause.specialize] at hd
  | cons p ps =>
    cases p with
    | bind name =>
      cases hd
      have ho := acceptsAll_openFields name fields
      rw [hf] at ho
      refine ⟨rfl, ?_⟩
      simp only [Clause.accepts, Pattern.acceptsAll, Pattern.accepts]
      rw [acceptsAll_append ps row (by simp [Clause.openFields, hf]), ho]
    | con l inner =>
      rw [Pattern.HaveTypes, Pattern.HasType] at hc
      obtain ⟨⟨con', hl, -, hi⟩, -⟩ := hc
      by_cases hlk : l = k
      · subst hlk
        rw [hk] at hl
        cases hl
        simp only [Clause.specialize, if_true, Option.some.injEq] at hd
        subst hd
        refine ⟨rfl, ?_⟩
        simp only [Clause.accepts, Pattern.acceptsAll, Pattern.accepts, decide_true, Bool.true_and]
        rw [acceptsAll_append ps row (by rw [hi.length_eq, hf])]
      · simp [Clause.specialize, hlk] at hd

theorem accepts_eq_false_of_specialize {k : ConId} {arity : Nat} {c : Clause}
    (h : c.specialize k arity = none) (fields row : List Value) :
    c.accepts (.con k fields :: row) = false := by
  obtain ⟨id, patterns⟩ := c
  cases patterns with
  | nil => rfl
  | cons p ps =>
    cases p with
    | bind name => simp [Clause.specialize] at h
    | con l inner =>
      have hlk : l ≠ k := by
        rintro rfl
        simp [Clause.specialize] at h
      simp [Clause.accepts, Pattern.acceptsAll, Pattern.accepts, hlk]

/-- Splitting on the constructor of the first value keeps the clauses that match. -/
theorem matching_specialize {sig : Signature} {k : ConId} {con : Constructor}
    (hk : sig.constructor? k = some con) {ty : DataId} {tys : List DataId} {clauses : List Clause}
    (hc : ∀ c ∈ clauses, Pattern.HaveTypes sig (ty :: tys) c.patterns) {fields : List Value}
    (hf : fields.length = con.fields.length) (row : List Value) :
    matching (specialize k con.fields.length clauses) (fields ++ row) =
      matching clauses (.con k fields :: row) := by
  induction clauses with
  | nil => rfl
  | cons c cs ih =>
    obtain ⟨hcc, hcs⟩ := List.forall_mem_cons.1 hc
    have ih := ih hcs
    unfold specialize at ih ⊢
    rw [matching_cons c]
    cases hd : c.specialize k con.fields.length with
    | none =>
      rw [List.filterMap_cons_none hd, accepts_eq_false_of_specialize hd]
      simpa using ih
    | some d =>
      obtain ⟨hid, ha⟩ := accepts_specialize hk hcc hd hf row
      rw [List.filterMap_cons_some hd, matching_cons d, ih, hid, ha]

/-! ## The leaf that a row follows -/

namespace CaseTree

mutual

/-- The leaf that a row leads to, with the constructors on the way, if the first value of the row is
in `column`. -/
def follow (column : Nat) (row : List Value) : CaseTree → Option (List ConId × List Nat)
  | leaf clauses => some ([], clauses)
  | node on _ branches =>
    match row.drop (on.toNat - column) with
    | .con k fields :: rest => followBranches (on.toNat + 1) (fields ++ rest) k branches
    | _ => none

/-- Goes on in the branch of a constructor. -/
def followBranches (column : Nat) (row : List Value) (k : ConId) :
    List (ConId × CaseTree) → Option (List ConId × List Nat)
  | [] => none
  | (l, tree) :: rest =>
    if l = k then (follow column row tree).map fun (path, clauses) => (l :: path, clauses)
    else followBranches column row k rest

end

mutual

theorem run_eq_follow (column : Nat) (row : List Value) :
    ∀ tree : CaseTree, tree.run column row = (tree.follow column row).map Prod.snd
  | leaf clauses => by simp [run, follow]
  | node on name branches => by
    rw [run, follow]
    cases row.drop (on.toNat - column) with
    | nil => rfl
    | cons v rest =>
      cases v with
      | atom token => rfl
      | con k fields => exact runBranches_eq_followBranches _ _ k branches

theorem runBranches_eq_followBranches (column : Nat) (row : List Value) (k : ConId) :
    ∀ branches : List (ConId × CaseTree),
      runBranches column row k branches = (followBranches column row k branches).map Prod.snd
  | [] => by simp [runBranches, followBranches]
  | (l, tree) :: rest => by
    rw [runBranches, followBranches]
    split
    · rw [run_eq_follow column row tree, Option.map_map]
      rfl
    · exact runBranches_eq_followBranches column row k rest

end

theorem mem_leavesOfBranches {branches : List (ConId × CaseTree)} {path : List ConId}
    {ids : List Nat} : (path, ids) ∈ leavesOfBranches branches ↔
      ∃ k tree p, (k, tree) ∈ branches ∧ path = k :: p ∧ (p, ids) ∈ tree.leaves := by
  induction branches with
  | nil => simp [leavesOfBranches]
  | cons branch rest ih =>
    obtain ⟨l, tree⟩ := branch
    rw [leavesOfBranches, List.mem_append, ih, List.mem_map]
    constructor
    · rintro (⟨⟨p, is⟩, hm, he⟩ | ⟨k, t, p, hm, hp, hl⟩)
      · cases he
        exact ⟨l, tree, p, List.mem_cons_self, rfl, hm⟩
      · exact ⟨k, t, p, List.mem_cons_of_mem _ hm, hp, hl⟩
    · rintro ⟨k, t, p, hm, rfl, hl⟩
      rcases List.mem_cons.1 hm with he | hm
      · cases he
        exact .inl ⟨(p, ids), hl, rfl⟩
      · exact .inr ⟨k, t, p, hm, rfl, hl⟩

mutual

/-- A row ends in one of the leaves, on the path to that leaf. -/
theorem follow_mem_leaves {column : Nat} {row : List Value} {path : List ConId} {ids : List Nat} :
    ∀ {tree : CaseTree}, tree.follow column row = some (path, ids) → (path, ids) ∈ tree.leaves
  | leaf clauses, h => by
    rw [follow] at h
    cases h
    simp [leaves]
  | node on name branches, h => by
    rw [follow] at h
    rw [leaves]
    split at h
    · exact followBranches_mem_leaves h
    · cases h

theorem followBranches_mem_leaves {column : Nat} {row : List Value} {k : ConId}
    {path : List ConId} {ids : List Nat} : ∀ {branches : List (ConId × CaseTree)},
      followBranches column row k branches = some (path, ids) →
      (path, ids) ∈ leavesOfBranches branches
  | [], h => by simp [followBranches] at h
  | (l, tree) :: rest, h => by
    rw [followBranches] at h
    rw [leavesOfBranches, List.mem_append]
    split at h
    · obtain ⟨⟨p, is⟩, hp, he⟩ := Option.map_eq_some_iff.1 h
      exact .inl (List.mem_map.2 ⟨(p, is), follow_mem_leaves hp, he⟩)
    · exact .inr (followBranches_mem_leaves h)

end

theorem follow_cons {tree : CaseTree} {column : Nat}
    (h : ∀ on name branches, tree = .node on name branches → column + 1 ≤ on.toNat) (v : Value)
    (row : List Value) : tree.follow column (v :: row) = tree.follow (column + 1) row := by
  cases tree with
  | leaf ids => simp [follow]
  | node on name branches =>
    have hle := h on name branches rfl
    have hdrop : (v :: row).drop (on.toNat - column) = row.drop (on.toNat - (column + 1)) := by
      rw [show on.toNat - column = on.toNat - (column + 1) + 1 by omega, List.drop_succ_cons]
    rw [follow, follow, hdrop]

theorem followBranches_of_mem {column : Nat} {row : List Value} {k : ConId} {tree : CaseTree}
    {branches : List (ConId × CaseTree)} (hn : (branches.map Prod.fst).Nodup)
    (hm : (k, tree) ∈ branches) : followBranches column row k branches =
      (tree.follow column row).map fun (path, clauses) => (k :: path, clauses) := by
  induction branches with
  | nil => cases hm
  | cons branch rest ih =>
    obtain ⟨l, t⟩ := branch
    rw [List.map_cons, List.nodup_cons] at hn
    rw [followBranches]
    rcases List.mem_cons.1 hm with he | hm
    · cases he
      rw [if_pos rfl]
    · have hlk : l ≠ k := by
        rintro rfl
        exact hn.1 (List.mem_map.2 ⟨(l, tree), hm, rfl⟩)
      rw [if_neg hlk]
      exact ih hn.2 hm

end CaseTree

/-! ## Trees that were compiled -/

/-- **Compilation decides.** The tree of a matrix that fits sends each well-typed row to the clauses
that match it. -/
theorem follow_of_compile {sig : Signature} (hsig : sig.Declared) {column : UInt64}
    {telescope : List Parameter} {clauses : List Clause} {tree : CaseTree}
    (hfits : ClauseMatrix.Fits sig ⟨telescope, clauses⟩)
    (h : compile sig column telescope clauses = some tree) :
    ∀ row, Value.HaveTypes sig (telescope.map Parameter.ty) row →
      ∃ path, tree.follow column.toNat row = some (path, matching clauses row) := by
  have hwf := hsig.wellFormed
  refine compile_induction hwf (motive := fun column telescope clauses tree =>
    ∀ row, Value.HaveTypes sig (telescope.map Parameter.ty) row →
      ∃ path, tree.follow column.toNat row = some (path, matching clauses row)) ?_ ?_ ?_ hfits h
  · intro column clauses hfits row hrow
    -- Without columns, a well-typed clause has no pattern left that could refuse.
    have hrow : row = [] := List.length_eq_zero_iff.1 (by simpa using hrow.length_eq)
    have hall : ∀ c ∈ clauses, c.accepts row = true := by
      intro c hm
      have hnil : c.patterns = [] := List.length_eq_zero_iff.1 (hfits.length_patterns hm)
      rw [Clause.accepts, hnil, hrow]
      rfl
    exact ⟨[], by rw [CaseTree.follow, matching, List.filter_eq_self.2 hall]⟩
  · intro column next parameter rest clauses data tree hfits hd hs hnext hcompile ih row hrow
    obtain ⟨v, vs, rfl, -, hvs⟩ := Value.HaveTypes.cons_inv hrow
    obtain ⟨path, hpath⟩ := ih vs hvs
    have hle := column_le_of_compile hwf hfits.pass hcompile
    rw [nextColumn?_eq_some.1 hnext] at hpath hle
    have hopen := all_startsOpen_of_splitOn_eq_none hwf hd hfits.clauses hs
    exact ⟨path, by rw [CaseTree.follow_cons hle, hpath, matching_dropColumn hopen v vs]⟩
  · intro column parameter rest clauses data branches hfits hd hs ih row hrow
    have hty := hasConstructors_of_splitOn hd hs
    obtain ⟨v, vs, rfl, hv, hvs⟩ := Value.HaveTypes.cons_inv hrow
    obtain ⟨k, con, fields, rfl, hk, hcon, hf⟩ := hv.constructor hwf hty
    obtain ⟨⟨k, tree⟩, hm, rfl⟩ := List.mem_map.1 hk
    obtain ⟨con', next, hcon', hnext, -, ihk⟩ := ih k tree hm
    obtain rfl := Option.some.inj (hcon.symm.trans hcon')
    rw [List.map_append, map_ty_parameters, nextColumn?_eq_some.1 hnext] at ihk
    obtain ⟨path, hpath⟩ := ihk _ (hvs.append hf)
    refine ⟨k :: path, ?_⟩
    rw [CaseTree.follow, Nat.sub_self, List.drop_zero]
    show CaseTree.followBranches (column.toNat + 1) (fields ++ vs) k branches = _
    rw [CaseTree.followBranches_of_mem (hsig.nodup hty) hm, hpath,
      matching_specialize hcon hfits.clauses hf.length_eq]
    rfl

/-! ## The clause that fires -/

theorem mem_matching {clauses : List Clause} {row : List Value} {i : Nat} :
    i ∈ matching clauses row ↔ ∃ c ∈ clauses, c.accepts row = true ∧ c.id = i := by
  simp [matching, and_assoc]

/-- The least number of a matching clause fires. -/
theorem firing?_matching_eq_some {clauses : List Clause} {row : List Value} {i : Nat} :
    firing? (matching clauses row) = some i ↔
      (∃ c ∈ clauses, c.accepts row = true ∧ c.id = i) ∧
      ∀ c ∈ clauses, c.accepts row = true → i ≤ c.id := by
  rw [firing?, List.min?_eq_some_iff, mem_matching]
  refine and_congr_right fun _ => ?_
  constructor
  · intro h c hc ha
    exact h c.id (mem_matching.2 ⟨c, hc, ha, rfl⟩)
  · intro h j hj
    obtain ⟨c, hc, ha, rfl⟩ := mem_matching.1 hj
    exact h c hc ha

theorem firing?_matching_eq_none {clauses : List Clause} {row : List Value} :
    firing? (matching clauses row) = none ↔ ∀ c ∈ clauses, c.accepts row = false := by
  rw [firing?, List.min?_eq_none_iff, List.eq_nil_iff_forall_not_mem]
  constructor
  · intro h c hc
    rw [← Bool.not_eq_true]
    exact fun ha => h c.id (mem_matching.2 ⟨c, hc, ha, rfl⟩)
  · intro h i hi
    obtain ⟨c, hc, ha, -⟩ := mem_matching.1 hi
    rw [h c hc] at ha
    cases ha

/-- **Case trees decide.** An accepted matrix over a declared signature has a case tree exactly from
those columns on that leave room for the numbers of all calls. Every column does behind which there
are as many numbers as there are columns, and as many again as all constructor patterns together can
have fields. Run on any well-typed row, the tree ends in the leaf of exactly the clauses that match
the row, in their order; the clause that fires there is the matching one with the least number, and
none fires exactly if none matches. -/
theorem caseTree_decides {sig : Signature} (hsig : sig.Declared) {telescope : List Parameter}
    {clauses : List Clause} {m : ClauseMatrix}
    (hm : ClauseMatrix.ofClauses sig telescope clauses = .ok m) (column : UInt64) :
    ((∃ tree, m.caseTree? sig column = some tree) ↔ m.HasRoom sig column) ∧
    (∀ arity, (∀ k con, sig.constructor? k = some con → con.fields.length ≤ arity) →
      column.toNat + (telescope.length + totalSize clauses * arity) < UInt64.size →
      m.HasRoom sig column) ∧
    ∀ tree, m.caseTree? sig column = some tree →
      ∀ row, Value.HaveTypes sig (telescope.map Parameter.ty) row →
        ∃ ids, tree.run column.toNat row = some ids ∧
          ids = (clauses.filter fun c => c.accepts row).map Clause.id ∧
          (∀ i, firing? ids = some i ↔
            (∃ c ∈ clauses, c.accepts row = true ∧ c.id = i) ∧
            ∀ c ∈ clauses, c.accepts row = true → i ≤ c.id) ∧
          (firing? ids = none ↔ ∀ c ∈ clauses, c.accepts row = false) := by
  have hfits := ClauseMatrix.Fits.ofClauses hm
  have hwf := hsig.wellFormed
  obtain ⟨rfl, -, -, -⟩ := ClauseMatrix.ofClauses_eq_ok.1 hm
  refine ⟨?_, fun arity harity hcolumn => hfits.hasRoom hwf harity hcolumn,
    fun tree htree row hrow => ⟨matching clauses row, ?_, rfl, ?_, ?_⟩⟩
  · rw [← Option.isSome_iff_exists, hfits.isSome_caseTree?_iff hwf]
  · obtain ⟨path, hpath⟩ := follow_of_compile hsig hfits htree row hrow
    rw [CaseTree.run_eq_follow, hpath]
    rfl
  · exact fun i => firing?_matching_eq_some
  · exact firing?_matching_eq_none

/-- Numbers, and a type of tags that nothing looks into. -/
def peano : Signature where
  dataTypes := #[⟨"Nat", .destructible [⟨0⟩, ⟨1⟩]⟩, ⟨"Tag", .indestructible⟩]
  constructors := #[⟨"zero", ⟨0⟩, []⟩, ⟨"succ", ⟨0⟩, [⟨0⟩]⟩]

theorem peano_declared : peano.Declared := by
  have types := (Signature.Declared.empty.destructible "Nat").indestructible "Tag"
  have zero : Signature.Declared _ := .constructor types
    (rfl : Signature.addConstructor _ ⟨0⟩ "zero" [] = .ok (⟨0⟩, _))
  exact .constructor zero (rfl : Signature.addConstructor _ ⟨0⟩ "succ" [⟨0⟩] = .ok (⟨1⟩, _))

theorem peano_arity : ∀ k con, peano.constructor? k = some con → con.fields.length ≤ 1 :=
  Signature.length_fields_le (by decide)

/-- Two clauses out of order, the first for numbers above one and the second for all: both match the
number two, and the second one fires. The column is the last one that is sure to leave room for two
columns and two constructor patterns. -/
theorem caseTree_decides_two :
    let telescope : List Parameter := [⟨"n", ⟨0⟩⟩, ⟨"t", ⟨1⟩⟩]
    let clauses : List Clause :=
      [⟨7, [.con ⟨1⟩ [.con ⟨1⟩ [.bind "k"]], .bind "t"]⟩, ⟨3, [.bind "n", .bind "t"]⟩]
    let m : ClauseMatrix := ⟨telescope, clauses⟩
    let row : List Value := [.con ⟨1⟩ [.con ⟨1⟩ [.con ⟨0⟩ []]], .atom 5]
    let column : UInt64 := 18446744073709551611
    peano.Declared ∧ ClauseMatrix.ofClauses peano telescope clauses = .ok m ∧
      Value.HaveTypes peano (telescope.map Parameter.ty) row ∧ m.HasRoom peano column ∧
      ∃ tree, m.caseTree? peano column = some tree ∧
        tree.run column.toNat row = some [7, 3] ∧ firing? [7, 3] = some 3 := by
  intro telescope clauses m row column
  have hm : ClauseMatrix.ofClauses peano telescope clauses = .ok m := rfl
  have hrow : Value.HaveTypes peano (telescope.map Parameter.ty) row := by
    simp [telescope, row, Value.HaveTypes, Value.HasType, peano, Signature.constructor?,
      Signature.dataType?]
  obtain ⟨hexists, hbound, hdecides⟩ := caseTree_decides peano_declared hm column
  have hroom : m.HasRoom peano column := hbound 1 peano_arity (by decide)
  obtain ⟨tree, ht⟩ := hexists.2 hroom
  obtain ⟨ids, hr, hids, -, -⟩ := hdecides tree ht row hrow
  exact ⟨peano_declared, hm, hrow, hroom, tree, ht, hr.trans (congrArg some hids), rfl⟩

/-- A type with one value. -/
def point : Signature where
  dataTypes := #[⟨"Unit", .destructible [⟨0⟩]⟩]
  constructors := #[⟨"unit", ⟨0⟩, []⟩]

theorem point_declared : point.Declared := by
  have types := Signature.Declared.empty.destructible "Unit"
  exact .constructor types (rfl : Signature.addConstructor _ ⟨0⟩ "unit" [] = .ok (⟨0⟩, _))

/-- A clause for the one value, which asks for nothing. The tree is a leaf, in which no number
occurs. Still there is none from the last column on. -/
theorem caseTree?_last_column :
    let m : ClauseMatrix := ⟨[⟨"u", ⟨0⟩⟩], [⟨0, [.bind "x"]⟩]⟩
    point.Declared ∧ ClauseMatrix.ofClauses point m.telescope m.clauses = .ok m ∧
      Value.HaveTypes point (m.telescope.map Parameter.ty) [.con ⟨0⟩ []] ∧
      m.caseTree? point 0 = some (.leaf [0]) ∧
      m.caseTree? point 18446744073709551615 = none := by
  intro m
  have hm : ClauseMatrix.ofClauses point m.telescope m.clauses = .ok m := rfl
  have hrow : Value.HaveTypes point (m.telescope.map Parameter.ty) [.con ⟨0⟩ []] := by
    simp [m, Value.HaveTypes, Value.HasType, point, Signature.constructor?]
  have hleaf : m.caseTree? point 0 = some (.leaf [0]) := by cbv
  exact ⟨point_declared, hm, hrow, hleaf,
    (ClauseMatrix.Fits.ofClauses hm).caseTree?_eq_none point_declared.wellFormed (by simp [m]) rfl⟩

end DepLang.Matching
