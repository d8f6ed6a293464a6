import DepLang.Matching.CaseTree
import DepLang.Proofs.Matching.Acceptance

/-!
# How a matrix is compiled

`compile` deals with one column at a time. What it makes of the clauses is well typed again, and what
it makes of a matrix is put together from smaller trees.

* `ClauseMatrix.Fits`: the columns have declared types, and the clauses have the types of the
  columns. Passing over a column keeps this, and so does a split.
* `compile_pass`, `compile_split`: one step of the compiler.
* `compile_induction`: the induction over the compiler that all results about the trees of such
  matrices share.
-/
namespace DepLang.Matching

/-! ## Clauses stay well typed -/

theorem startsOpen_of_indestructible {sig : Signature} (hsig : sig.WellFormed) {ty : DataId}
    {data : DataType} (hd : sig.dataType? ty = some data) (hs : data.shape = .indestructible)
    {tys : List DataId} {c : Clause} (hc : Pattern.HaveTypes sig (ty :: tys) c.patterns) :
    c.startsOpen = true := by
  obtain ⟨id, patterns⟩ := c
  cases patterns with
  | nil => simp [Pattern.HaveTypes] at hc
  | cons p ps =>
    cases p with
    | bind name => rfl
    | con k fields =>
      rw [Pattern.HaveTypes, Pattern.HasType] at hc
      obtain ⟨⟨con, hk, hcd, -⟩, -⟩ := hc
      obtain ⟨ks, ⟨data', hd', hs'⟩, -⟩ := hsig.listed k con hk
      rw [hcd, hd] at hd'
      cases hd'
      rw [hs] at hs'
      cases hs'

theorem all_startsOpen_of_splitOn_eq_none {sig : Signature} (hsig : sig.WellFormed) {ty : DataId}
    {data : DataType} (hd : sig.dataType? ty = some data) {tys : List DataId}
    {clauses : List Clause} (hc : ∀ c ∈ clauses, Pattern.HaveTypes sig (ty :: tys) c.patterns)
    (h : splitOn data.shape clauses = none) : clauses.all Clause.startsOpen = true := by
  unfold splitOn at h
  split at h
  · rename_i hs
    exact List.all_eq_true.2 fun c hm => startsOpen_of_indestructible hsig hd hs (hc c hm)
  · split at h
    · assumption
    · cases h

theorem hasConstructors_of_splitOn {sig : Signature} {ty : DataId} {data : DataType}
    (hd : sig.dataType? ty = some data) {clauses : List Clause} {ks : List ConId}
    (h : splitOn data.shape clauses = some ks) : sig.HasConstructors ty ks := by
  unfold splitOn at h
  split at h
  · cases h
  · rename_i ls hs
    split at h
    · cases h
    · cases h
      exact ⟨data, hd, hs⟩

theorem haveTypes_dropColumn {sig : Signature} {ty : DataId} {tys : List DataId}
    {clauses : List Clause} (hc : ∀ c ∈ clauses, Pattern.HaveTypes sig (ty :: tys) c.patterns) :
    ∀ c ∈ dropColumn clauses, Pattern.HaveTypes sig tys c.patterns := by
  intro c hm
  obtain ⟨d, hd, rfl⟩ := List.mem_map.1 hm
  have ht := hc d hd
  obtain ⟨id, patterns⟩ := d
  cases patterns with
  | nil => simp [Pattern.HaveTypes] at ht
  | cons p ps =>
    rw [Pattern.HaveTypes] at ht
    exact ht.2

theorem haveTypes_binders {sig : Signature} {α : Type} (f : α → String) : ∀ {tys : List DataId}
    {is : List α}, is.length = tys.length →
    Pattern.HaveTypes sig tys (is.map fun i => .bind (f i))
  | [], [], _ => by simp [Pattern.HaveTypes]
  | ty :: tys, i :: is, h => by
    rw [List.map_cons, Pattern.HaveTypes, Pattern.HasType]
    exact ⟨trivial, haveTypes_binders f (by simpa using h)⟩
  | [], _ :: _, h => by simp at h
  | _ :: _, [], h => by simp at h

theorem haveTypes_specialize {sig : Signature} {k : ConId} {con : Constructor}
    (hk : sig.constructor? k = some con) {ty : DataId} {tys : List DataId} {clauses : List Clause}
    (hc : ∀ c ∈ clauses, Pattern.HaveTypes sig (ty :: tys) c.patterns) :
    ∀ c ∈ specialize k con.fields.length clauses,
      Pattern.HaveTypes sig (con.fields ++ tys) c.patterns := by
  intro c hm
  obtain ⟨⟨id, patterns⟩, hd, hs⟩ := List.mem_filterMap.1 hm
  have ht := hc _ hd
  unfold Clause.specialize at hs
  split at hs
  · cases hs
  · rename_i name rest e
    cases hs
    simp only at e
    subst e
    rw [Pattern.HaveTypes] at ht
    exact ht.2.append (haveTypes_binders _ (by simp))
  · rename_i l inner rest e
    simp only at e
    subst e
    split at hs
    · rename_i hlk
      cases hs
      subst hlk
      rw [Pattern.HaveTypes, Pattern.HasType] at ht
      obtain ⟨⟨con', hl, -, hi⟩, hr⟩ := ht
      rw [hk] at hl
      cases hl
      exact hr.append hi
    · cases hs

theorem map_ty_parameters (con : Constructor) : con.parameters.map Parameter.ty = con.fields := by
  unfold Constructor.parameters
  rw [List.map_map]
  exact List.zipIdx_map_fst 0 con.fields

theorem isSome_dataType?_parameters {sig : Signature} (hsig : sig.WellFormed) {k : ConId}
    {con : Constructor} (hk : sig.constructor? k = some con) {rest : List Parameter}
    (hrest : ∀ p ∈ rest, (sig.dataType? p.ty).isSome) :
    ∀ p ∈ con.parameters ++ rest, (sig.dataType? p.ty).isSome := by
  intro p hm
  rcases List.mem_append.1 hm with hm | hm
  · have : p.ty ∈ con.parameters.map Parameter.ty := List.mem_map_of_mem hm
    rw [map_ty_parameters] at this
    exact hsig.fields k con hk _ this
  · exact hrest p hm

theorem wellTyped_specialize {sig : Signature} {k : ConId} {con : Constructor}
    (hk : sig.constructor? k = some con) {parameter : Parameter} {rest : List Parameter}
    {clauses : List Clause} (hc : ∀ c ∈ clauses, c.WellTyped sig (parameter :: rest)) :
    ∀ c ∈ specialize k con.fields.length clauses, c.WellTyped sig (con.parameters ++ rest) := by
  intro c hm
  rw [Clause.WellTyped, List.map_append, map_ty_parameters]
  exact haveTypes_specialize hk hc c hm

/-! ## Matrices that fit -/

namespace ClauseMatrix

/-- The columns have declared types, and the clauses have the types of the columns. -/
structure Fits (sig : Signature) (m : ClauseMatrix) : Prop where
  types : ∀ parameter ∈ m.telescope, (sig.dataType? parameter.ty).isSome
  clauses : ∀ c ∈ m.clauses, c.WellTyped sig m.telescope

namespace Fits

variable {sig : Signature} {parameter : Parameter} {rest : List Parameter} {clauses : List Clause}

theorem ofClauses {m : ClauseMatrix} {telescope : List Parameter}
    (h : ClauseMatrix.ofClauses sig telescope clauses = .ok m) : m.Fits sig := by
  obtain ⟨rfl, -, ht, hc⟩ := ofClauses_eq_ok.1 h
  exact ⟨ht, hc⟩

theorem length_patterns {m : ClauseMatrix} (h : m.Fits sig) {c : Clause} (hc : c ∈ m.clauses) :
    c.patterns.length = m.telescope.length := by
  simpa using (h.clauses c hc).length_eq

theorem patterns_ne_nil (h : Fits sig ⟨parameter :: rest, clauses⟩) :
    ∀ c ∈ clauses, c.patterns ≠ [] := by
  intro c hc hnil
  have hlength := h.length_patterns hc
  simp [hnil] at hlength

theorem exists_dataType? (h : Fits sig ⟨parameter :: rest, clauses⟩) :
    ∃ data, sig.dataType? parameter.ty = some data :=
  Option.isSome_iff_exists.1 (h.types parameter List.mem_cons_self)

theorem pass (h : Fits sig ⟨parameter :: rest, clauses⟩) : Fits sig ⟨rest, dropColumn clauses⟩ where
  types p hp := h.types p (List.mem_cons_of_mem _ hp)
  clauses := haveTypes_dropColumn h.clauses

theorem split (hsig : sig.WellFormed) {k : ConId} {con : Constructor}
    (hcon : sig.constructor? k = some con) (h : Fits sig ⟨parameter :: rest, clauses⟩) :
    Fits sig ⟨con.parameters ++ rest, specialize k con.fields.length clauses⟩ where
  types := isSome_dataType?_parameters hsig hcon fun p hp => h.types p (List.mem_cons_of_mem _ hp)
  clauses := wellTyped_specialize hcon h.clauses

/-- A type that is split has a constructor: one of the clauses asks for it. -/
theorem ne_nil_of_splitOn (hsig : sig.WellFormed) (h : Fits sig ⟨parameter :: rest, clauses⟩)
    {data : DataType} {ks : List ConId} (hd : sig.dataType? parameter.ty = some data)
    (hs : splitOn data.shape clauses = some ks) : ks ≠ [] := by
  obtain ⟨c, hc, hopen⟩ : ∃ c ∈ clauses, c.startsOpen = false := by
    simpa using all_startsOpen_of_splitOn hs
  have hwell := h.clauses c hc
  obtain ⟨id, patterns⟩ := c
  cases patterns with
  | nil => simp [Clause.WellTyped, Pattern.HaveTypes] at hwell
  | cons p ps =>
    cases p with
    | bind x => cases hopen
    | con k fields =>
      rw [Clause.WellTyped, List.map_cons, Pattern.HaveTypes, Pattern.HasType] at hwell
      obtain ⟨⟨con, hcon, hdata, -⟩, -⟩ := hwell
      have hty := hasConstructors_of_splitOn hd hs
      exact List.ne_nil_of_mem ((hsig.mem_constructors_iff hty).2 ⟨con, hcon, hdata⟩)

end Fits

end ClauseMatrix

/-! ## One step of the compiler -/

theorem mapM_pair_eq_some {α β : Type} {f : α → Option β} {l : List α} {pairs : List (α × β)} :
    (l.mapM fun a => (f a).map (a, ·)) = some pairs ↔
      pairs.map Prod.fst = l ∧ ∀ a b, (a, b) ∈ pairs → f a = some b := by
  induction l generalizing pairs with
  | nil =>
    simp only [List.mapM_nil, Option.pure_def, Option.some.injEq, List.map_eq_nil_iff]
    constructor
    · rintro rfl
      exact ⟨rfl, by simp⟩
    · exact fun h => h.1.symm
  | cons a l ih =>
    rw [List.mapM_cons]
    simp only [Option.bind_eq_bind, Option.bind_eq_some_iff, Option.map_eq_some_iff, Option.pure_def,
      Option.some.injEq]
    constructor
    · rintro ⟨_, ⟨b, hb, rfl⟩, rest, hrest, rfl⟩
      obtain ⟨hl, hmem⟩ := ih.1 hrest
      refine ⟨by rw [List.map_cons, hl], fun a' b' hm => ?_⟩
      rcases List.mem_cons.1 hm with he | hm
      · cases he
        exact hb
      · exact hmem a' b' hm
    · rintro ⟨hl, hmem⟩
      obtain ⟨⟨a', b⟩, rest, rfl, rfl, rfl⟩ := List.map_eq_cons_iff.1 hl
      exact ⟨_, ⟨b, hmem a' b List.mem_cons_self, rfl⟩, rest,
        ih.2 ⟨rfl, fun a b hm => hmem a b (List.mem_cons_of_mem _ hm)⟩, rfl⟩

theorem exists_pairs_iff {α β : Type} {f : α → Option β} {l : List α} :
    (∃ pairs : List (α × β), pairs.map Prod.fst = l ∧ ∀ a b, (a, b) ∈ pairs → f a = some b) ↔
      ∀ a ∈ l, (f a).isSome := by
  constructor
  · rintro ⟨pairs, rfl, hmem⟩ a ha
    obtain ⟨⟨a, b⟩, hm, rfl⟩ := List.mem_map.1 ha
    rw [hmem a b hm]
    rfl
  · intro h
    induction l with
    | nil => exact ⟨[], rfl, by simp⟩
    | cons a l ih =>
      obtain ⟨ha, hl⟩ := List.forall_mem_cons.1 h
      obtain ⟨b, hb⟩ := Option.isSome_iff_exists.1 ha
      obtain ⟨pairs, rfl, hmem⟩ := ih hl
      refine ⟨(a, b) :: pairs, rfl, fun a' b' hm => ?_⟩
      rcases List.mem_cons.1 hm with he | hm
      · cases he
        exact hb
      · exact hmem a' b' hm

/-- The tree behind a split, for values of a constructor. -/
def branch (sig : Signature) (column : UInt64) (rest : List Parameter) (clauses : List Clause)
    (k : ConId) : Option CaseTree := do
  let con ← sig.constructor? k
  let next ← nextColumn? column
  compile sig next (con.parameters ++ rest) (specialize k con.fields.length clauses)

section Step

variable {sig : Signature} {column : UInt64} {parameter : Parameter} {rest : List Parameter}
  {clauses : List Clause} {data : DataType} {tree : CaseTree}

theorem branch_eq_some {k : ConId} : branch sig column rest clauses k = some tree ↔
    ∃ con next, sig.constructor? k = some con ∧ nextColumn? column = some next ∧
      compile sig next (con.parameters ++ rest) (specialize k con.fields.length clauses) =
        some tree := by
  simp only [branch, Option.bind_eq_bind, Option.bind_eq_some_iff, ← exists_and_left]

theorem compile_pass (hd : sig.dataType? parameter.ty = some data)
    (hs : splitOn data.shape clauses = none) :
    compile sig column (parameter :: rest) clauses = some tree ↔
      ∃ next, nextColumn? column = some next ∧
        compile sig next rest (dropColumn clauses) = some tree := by
  rw [compile, hd, Option.bind_eq_bind, Option.bind_some]
  split
  · exact Option.bind_eq_some_iff
  · rename_i h
    rw [hs] at h
    cases h

theorem compile_split {ks : List ConId} (hd : sig.dataType? parameter.ty = some data)
    (hs : splitOn data.shape clauses = some ks) :
    compile sig column (parameter :: rest) clauses = some tree ↔
      ∃ branches, branches.map Prod.fst = ks ∧
        (∀ k t, (k, t) ∈ branches → branch sig column rest clauses k = some t) ∧
        tree = .node column parameter.name branches := by
  rw [compile, hd, Option.bind_eq_bind, Option.bind_some]
  split
  · rename_i h
    rw [hs] at h
    cases h
  · rename_i ls h
    rw [hs] at h
    cases h
    have hbranch : ∀ k, ((sig.constructor? k).bind fun con => (nextColumn? column).bind fun next =>
        (compile sig next (con.parameters ++ rest) (specialize k con.fields.length clauses)).bind
          fun tree => some (k, tree)) = (branch sig column rest clauses k).map (k, ·) := by
      intro k
      simp only [branch, Option.map_eq_bind, Option.bind_eq_bind, Option.bind_assoc]
      rfl
    simp only [Option.bind_eq_bind, Option.pure_def, hbranch, Option.bind_eq_some_iff,
      mapM_pair_eq_some, Option.some.injEq, and_assoc, @eq_comm _ tree]

theorem isSome_compile_split {ks : List ConId} (hd : sig.dataType? parameter.ty = some data)
    (hs : splitOn data.shape clauses = some ks) :
    (compile sig column (parameter :: rest) clauses).isSome ↔
      ∀ k ∈ ks, (branch sig column rest clauses k).isSome := by
  rw [← exists_pairs_iff, Option.isSome_iff_exists]
  simp only [compile_split hd hs]
  constructor
  · rintro ⟨_, branches, hks, hbranches, -⟩
    exact ⟨branches, hks, hbranches⟩
  · rintro ⟨branches, hks, hbranches⟩
    exact ⟨_, branches, hks, hbranches, rfl⟩

end Step

/-- **Induction over the compiler.** To show something of the tree of a matrix that fits, show it of
a leaf, of a tree behind a column that is passed over, and of a node. -/
theorem compile_induction {sig : Signature} (hsig : sig.WellFormed)
    {motive : UInt64 → List Parameter → List Clause → CaseTree → Prop}
    (done : ∀ column clauses, ClauseMatrix.Fits sig ⟨[], clauses⟩ →
      motive column [] clauses (.leaf (clauses.map Clause.id)))
    (pass : ∀ {column next parameter rest clauses data tree},
      ClauseMatrix.Fits sig ⟨parameter :: rest, clauses⟩ →
      sig.dataType? parameter.ty = some data → splitOn data.shape clauses = none →
      nextColumn? column = some next → compile sig next rest (dropColumn clauses) = some tree →
      motive next rest (dropColumn clauses) tree →
      motive column (parameter :: rest) clauses tree)
    (split : ∀ {column parameter rest clauses data branches},
      ClauseMatrix.Fits sig ⟨parameter :: rest, clauses⟩ →
      sig.dataType? parameter.ty = some data →
      splitOn data.shape clauses = some (branches.map Prod.fst) →
      (∀ k tree, (k, tree) ∈ branches → ∃ con next, sig.constructor? k = some con ∧
        nextColumn? column = some next ∧
        compile sig next (con.parameters ++ rest) (specialize k con.fields.length clauses) =
          some tree ∧
        motive next (con.parameters ++ rest) (specialize k con.fields.length clauses) tree) →
      motive column (parameter :: rest) clauses (.node column parameter.name branches))
    {column : UInt64} {telescope : List Parameter} {clauses : List Clause} {tree : CaseTree}
    (hfits : ClauseMatrix.Fits sig ⟨telescope, clauses⟩)
    (h : compile sig column telescope clauses = some tree) :
    motive column telescope clauses tree := by
  induction column, telescope, clauses using compile.induct generalizing tree with
  | case1 column clauses =>
    rw [compile] at h
    cases h
    exact done column clauses hfits
  | case2 column clauses parameter rest ihpass ihsplit =>
    obtain ⟨data, hd⟩ := hfits.exists_dataType?
    cases hs : splitOn data.shape clauses with
    | none =>
      obtain ⟨next, hnext, htree⟩ := (compile_pass hd hs).1 h
      exact pass hfits hd hs hnext htree (ihpass next hfits.pass htree)
    | some ks =>
      obtain ⟨branches, rfl, hbranches, rfl⟩ := (compile_split hd hs).1 h
      refine split hfits hd hs fun k t hk => ?_
      obtain ⟨con, next, hcon, hnext, ht⟩ := branch_eq_some.1 (hbranches k t hk)
      exact ⟨con, next, hcon, hnext, ht, ihsplit data _ hs k con next (hfits.split hsig hcon) ht⟩

theorem column_le_of_compile {sig : Signature} (hsig : sig.WellFormed) {column : UInt64}
    {telescope : List Parameter} {clauses : List Clause} {tree : CaseTree}
    (hfits : ClauseMatrix.Fits sig ⟨telescope, clauses⟩)
    (h : compile sig column telescope clauses = some tree) :
    ∀ on name branches, tree = .node on name branches → column.toNat ≤ on.toNat := by
  refine compile_induction hsig (motive := fun column _ _ tree =>
    ∀ on name branches, tree = .node on name branches → column.toNat ≤ on.toNat) ?_ ?_ ?_ hfits h
  · intro column clauses _ on name branches he
    cases he
  · intro column next parameter rest clauses data tree _ _ _ hnext _ ih on name branches he
    have hle := ih on name branches he
    rw [nextColumn?_eq_some.1 hnext] at hle
    exact Nat.le_of_succ_le hle
  · intro column parameter rest clauses data branches _ _ _ _ on name bs he
    cases he
    exact Nat.le_refl _

end DepLang.Matching
