import DepLang.Proofs.Matching.Leaves

/-!
# Later declarations do not change what old values match

A matrix is checked against a signature, and may be compiled after more has been declared. A type
may have got constructors that no clause knows, so the tree has branches that it would not have had.
All that is old stays where it was.

* `Signature.Grows`: a type stays indestructible, or lists the constructors that it had before any
  new ones. This is what a declaration keeps (`Signature.grows_declareAll`).
* `compile_restrict`: the tree for the later signature, without the branches of new constructors, is
  the tree for the earlier one.
* `CaseTree.run_restrict`: a row without new constructors never gets into one of those branches.
-/
namespace DepLang.Matching

/-! ## What a type keeps -/

/-- What becomes of a type: only constructors that the signature does not declare are new, and they
come last. -/
inductive DataShape.Grows (sig : Signature) : DataShape → DataShape → Prop where
  | indestructible : Grows sig .indestructible .indestructible
  | destructible {ks new : List ConId} : (∀ k ∈ new, sig.constructor? k = none) →
      Grows sig (.destructible ks) (.destructible (ks ++ new))

namespace DataShape.Grows

variable {sig sig' : Signature} {shape shape' shape'' : DataShape}

theorem refl (sig : Signature) (shape : DataShape) : Grows sig shape shape := by
  cases shape with
  | indestructible => exact .indestructible
  | destructible ks => simpa using @destructible sig ks [] (by simp)

theorem eq_of_indestructible (h : Grows sig .indestructible shape) : shape = .indestructible := by
  cases h
  rfl

theorem trans (h : Grows sig shape shape') (h' : Grows sig' shape' shape'')
    (hsig : sig.Extends sig') : Grows sig shape shape'' := by
  cases h with
  | indestructible =>
    cases h'
    exact .indestructible
  | @destructible ks new hnew =>
    cases h' with
    | @destructible _ more hmore =>
      rw [List.append_assoc]
      refine .destructible fun k hk => ?_
      rcases List.mem_append.1 hk with hk | hk
      · exact hnew k hk
      · cases hcon : sig.constructor? k with
        | none => rfl
        | some con =>
          have hnone := hmore k hk
          rw [hsig.constructors k con hcon] at hnone
          cases hnone

end DataShape.Grows

namespace Signature

/-- Constructors stay what they are, and types keep what they list. -/
structure Grows (sig sig' : Signature) : Prop extends sig.Extends sig' where
  shapes : ∀ ty data, sig.dataType? ty = some data →
    ∃ data', sig'.dataType? ty = some data' ∧ data.shape.Grows sig data'.shape

namespace Grows

variable {sig sig' sig'' : Signature}

theorem refl (sig : Signature) : sig.Grows sig where
  toExtends := .refl sig
  shapes _ data hd := ⟨data, hd, .refl sig data.shape⟩

theorem trans (h : sig.Grows sig') (h' : sig'.Grows sig'') : sig.Grows sig'' where
  toExtends := h.toExtends.trans h'.toExtends
  shapes ty data hd := by
    obtain ⟨data', hd', hshape⟩ := h.shapes ty data hd
    obtain ⟨data'', hd'', hshape'⟩ := h'.shapes ty data' hd'
    exact ⟨data'', hd'', hshape.trans hshape' h.toExtends⟩

end Grows

theorem grows_addData (sig : Signature) (new : DataType) : sig.Grows (sig.addData new).2 where
  toExtends := sig.extends_addData new
  shapes ty data hd := by
    have hlt : ty.index < sig.dataTypes.size := isSome_dataType?_iff.1 (by rw [hd]; rfl)
    refine ⟨data, ?_, .refl sig data.shape⟩
    rw [dataType?_addData, if_neg (Nat.ne_of_lt hlt), hd]

theorem grows_addConstructor {sig sig' : Signature} {data : DataId} {name : String}
    {fields : List DataId} {k : ConId} (h : sig.addConstructor data name fields = .ok (k, sig')) :
    sig.Grows sig' where
  toExtends := extends_addConstructor h
  shapes ty old hold := by
    obtain ⟨declared, ks, hdeclared, hshape, -, hk, rfl⟩ := addConstructor_eq_ok h
    rw [dataType?_set hdeclared]
    by_cases hty : ty = data
    · rw [hty, hdeclared] at hold
      cases hold
      rw [if_pos hty, hshape]
      refine ⟨_, rfl, .destructible fun l hl => ?_⟩
      rw [List.mem_singleton.1 hl, hk]
      simp [constructor?]
    · rw [if_neg hty]
      exact ⟨old, hold, .refl sig old.shape⟩

/-- **Declarations** keep what types list. -/
theorem grows_declareAll (sig : Signature) (declarations : List Declaration) :
    sig.Grows (sig.declareAll declarations) := by
  induction declarations generalizing sig with
  | nil => exact .refl sig
  | cons declaration declarations ih =>
    refine Grows.trans ?_ (ih (sig.declare declaration))
    rcases sig.declare_cases declaration with ⟨name, he⟩ | ⟨name, he⟩ | ⟨_, _, _, _, he⟩ | he
    · exact he ▸ sig.grows_addData _
    · exact he ▸ sig.grows_addData _
    · exact grows_addConstructor he
    · exact he.symm ▸ .refl sig

end Signature

/-! ## Old values -/

namespace Value

mutual

/-- All constructors of the value are declared. -/
def BuiltFrom (sig : Signature) : Value → Prop
  | atom _ => True
  | con k fields => (sig.constructor? k).isSome ∧ AllBuiltFrom sig fields

/-- All constructors of the values are declared. -/
def AllBuiltFrom (sig : Signature) : List Value → Prop
  | [] => True
  | v :: vs => BuiltFrom sig v ∧ AllBuiltFrom sig vs

end

variable {sig sig' : Signature}

theorem AllBuiltFrom.append {vs ws : List Value} (hv : AllBuiltFrom sig vs)
    (hw : AllBuiltFrom sig ws) : AllBuiltFrom sig (vs ++ ws) := by
  induction vs with
  | nil => exact hw
  | cons v vs ih =>
    rw [AllBuiltFrom] at hv
    rw [List.cons_append, AllBuiltFrom]
    exact ⟨hv.1, ih hv.2⟩

theorem AllBuiltFrom.drop {vs : List Value} (hv : AllBuiltFrom sig vs) (n : Nat) :
    AllBuiltFrom sig (vs.drop n) := by
  induction vs generalizing n with
  | nil => simpa using hv
  | cons v vs ih =>
    cases n with
    | zero => exact hv
    | succ n =>
      rw [AllBuiltFrom] at hv
      exact ih hv.2 n

mutual

theorem HasType.builtFrom {ty : DataId} : ∀ {v : Value}, HasType sig ty v → BuiltFrom sig v
  | atom _, _ => by simp [BuiltFrom]
  | con k fields, hv => by
    rw [HasType] at hv
    obtain ⟨declared, hk, -, hf⟩ := hv
    rw [BuiltFrom, hk]
    exact ⟨rfl, HaveTypes.allBuiltFrom hf⟩

theorem HaveTypes.allBuiltFrom : ∀ {tys : List DataId} {vs : List Value},
    HaveTypes sig tys vs → AllBuiltFrom sig vs
  | [], [], _ => by simp [AllBuiltFrom]
  | _ :: _, _ :: _, h => by
    rw [HaveTypes] at h
    rw [AllBuiltFrom]
    exact ⟨HasType.builtFrom h.1, HaveTypes.allBuiltFrom h.2⟩
  | [], _ :: _, h => by simp [HaveTypes] at h
  | _ :: _, [], h => by simp [HaveTypes] at h

end

mutual

theorem HasType.extend (h : sig.Grows sig') {ty : DataId} :
    ∀ {v : Value}, HasType sig ty v → HasType sig' ty v
  | atom _, hv => by
    rw [HasType] at hv ⊢
    obtain ⟨data, hd, hs⟩ := hv
    obtain ⟨data', hd', hgrows⟩ := h.shapes ty data hd
    rw [hs] at hgrows
    exact ⟨data', hd', hgrows.eq_of_indestructible⟩
  | con k fields, hv => by
    rw [HasType] at hv ⊢
    obtain ⟨declared, hk, hd, hf⟩ := hv
    exact ⟨declared, h.constructors k declared hk, hd, HaveTypes.extend h hf⟩

theorem HaveTypes.extend (h : sig.Grows sig') : ∀ {tys : List DataId} {vs : List Value},
    HaveTypes sig tys vs → HaveTypes sig' tys vs
  | [], [], _ => by simp [HaveTypes]
  | ty :: tys, v :: vs, hvs => by
    rw [HaveTypes] at hvs ⊢
    exact ⟨HasType.extend h hvs.1, HaveTypes.extend h hvs.2⟩
  | [], _ :: _, hvs => by simp [HaveTypes] at hvs
  | _ :: _, [], hvs => by simp [HaveTypes] at hvs

end

end Value

/-! ## Trees without new branches -/

namespace CaseTree

mutual

/-- The tree without the branches of constructors that the signature does not declare. -/
def restrict (sig : Signature) : CaseTree → CaseTree
  | leaf clauses => leaf clauses
  | node column name branches => node column name (restrictBranches sig branches)

def restrictBranches (sig : Signature) : List (ConId × CaseTree) → List (ConId × CaseTree)
  | [] => []
  | (k, tree) :: rest =>
    if (sig.constructor? k).isSome then (k, restrict sig tree) :: restrictBranches sig rest
    else restrictBranches sig rest

end

mutual

/-- A row without new constructors does not miss the branches. -/
theorem run_restrict {sig : Signature} (column : Nat) {row : List Value}
    (h : Value.AllBuiltFrom sig row) :
    ∀ tree : CaseTree, (tree.restrict sig).run column row = tree.run column row
  | leaf clauses => by rw [restrict]
  | node on name branches => by
    rw [restrict, run, run]
    have hdrop := h.drop (on.toNat - column)
    cases hrow : row.drop (on.toNat - column) with
    | nil => rfl
    | cons v rest =>
      rw [hrow, Value.AllBuiltFrom] at hdrop
      cases v with
      | atom token => rfl
      | con k fields =>
        obtain ⟨hv, hrest⟩ := hdrop
        rw [Value.BuiltFrom] at hv
        exact runBranches_restrict (on.toNat + 1) hv.1 (hv.2.append hrest) branches

theorem runBranches_restrict {sig : Signature} (column : Nat) {row : List Value} {k : ConId}
    (hk : (sig.constructor? k).isSome) (h : Value.AllBuiltFrom sig row) :
    ∀ branches : List (ConId × CaseTree),
      runBranches column row k (restrictBranches sig branches) = runBranches column row k branches
  | [] => by rw [restrictBranches]
  | (l, tree) :: rest => by
    have ih := runBranches_restrict column hk h rest
    rw [restrictBranches]
    by_cases hl : l = k
    · subst hl
      rw [if_pos hk, runBranches, if_pos rfl, runBranches, if_pos rfl]
      exact run_restrict column h tree
    · split
      · rw [runBranches, if_neg hl, runBranches, if_neg hl, ih]
      · rw [ih, runBranches, if_neg hl]

end

theorem map_fst_restrictBranches (sig : Signature) (branches : List (ConId × CaseTree)) :
    (restrictBranches sig branches).map Prod.fst =
      (branches.map Prod.fst).filter fun k => (sig.constructor? k).isSome := by
  induction branches with
  | nil => rfl
  | cons branch rest ih =>
    obtain ⟨k, tree⟩ := branch
    rw [restrictBranches, List.map_cons, List.filter_cons]
    split
    · rw [List.map_cons, ih]
    · exact ih

theorem mem_restrictBranches {sig : Signature} {branches : List (ConId × CaseTree)} {k : ConId}
    {tree : CaseTree} : (k, tree) ∈ restrictBranches sig branches ↔
      (sig.constructor? k).isSome ∧ ∃ t, (k, t) ∈ branches ∧ tree = t.restrict sig := by
  induction branches with
  | nil => simp [restrictBranches]
  | cons branch rest ih =>
    obtain ⟨l, t⟩ := branch
    rw [restrictBranches]
    split
    · grind
    · grind

end CaseTree

theorem splitOn_eq_none {clauses : List Clause} (h : clauses.all Clause.startsOpen = true)
    (shape : DataShape) : splitOn shape clauses = none := by
  cases shape with
  | indestructible => rfl
  | destructible ks => rw [splitOn, if_pos h]

/-- A type that is split on old and new constructors was split on the old ones. -/
theorem exists_splitOn_of_grows {sig sig' : Signature} (hsig : sig.WellFormed)
    (hgrows : sig.Grows sig') {ty : DataId} {data : DataType} {ks : List ConId}
    {clauses : List Clause} (hd : sig.dataType? ty = some data)
    (hty : sig'.HasConstructors ty ks) (hopen : clauses.all Clause.startsOpen = false) :
    splitOn data.shape clauses = some (ks.filter fun k => (sig.constructor? k).isSome) := by
  obtain ⟨data', hd', hs'⟩ := hty
  obtain ⟨later, hlater, hshape⟩ := hgrows.shapes ty data hd
  obtain rfl := Option.some.inj (hd'.symm.trans hlater)
  rw [hs'] at hshape
  generalize hs : data.shape = shape at hshape
  cases hshape with
  | @destructible old new hnew =>
    have hold : ∀ k ∈ old, (sig.constructor? k).isSome := by
      intro k hk
      obtain ⟨con, hcon, -⟩ := hsig.declared ty old ⟨data, hd, hs⟩ k hk
      rw [hcon]
      rfl
    have hfilter : new.filter (fun k => (sig.constructor? k).isSome) = [] := by
      simpa [List.filter_eq_nil_iff] using hnew
    rw [splitOn, if_neg (by simp [hopen]), List.filter_append, List.filter_eq_self.2 hold, hfilter,
      List.append_nil]

/-- **Compiling later.** The tree for the later signature has the tree for the earlier one in it. -/
theorem compile_restrict {sig sig' : Signature} (hsig : sig.WellFormed) (hsig' : sig'.WellFormed)
    (hgrows : sig.Grows sig') {column : UInt64} {telescope : List Parameter}
    {clauses : List Clause} {tree : CaseTree}
    (hfits : ClauseMatrix.Fits sig ⟨telescope, clauses⟩)
    (h : compile sig' column telescope clauses = some tree) :
    compile sig column telescope clauses = some (tree.restrict sig) := by
  refine compile_induction hsig' (motive := fun column telescope clauses tree =>
    ClauseMatrix.Fits sig ⟨telescope, clauses⟩ →
      compile sig column telescope clauses = some (tree.restrict sig))
    ?_ ?_ ?_ (hfits.extend hgrows.toExtends) h hfits
  · intro column clauses _ _
    rw [compile, CaseTree.restrict]
  · intro column next parameter rest clauses data' tree hfits' hd' hs' hnext _ ih hfits
    obtain ⟨data, hd⟩ := hfits.exists_dataType?
    have hopen := all_startsOpen_of_splitOn_eq_none hsig' hd' hfits'.clauses hs'
    rw [compile_pass hd (splitOn_eq_none hopen data.shape)]
    exact ⟨next, hnext, ih hfits.pass⟩
  · intro column parameter rest clauses data' branches _ hd' hs' ih hfits
    obtain ⟨data, hd⟩ := hfits.exists_dataType?
    have hs := exists_splitOn_of_grows hsig hgrows hd (hasConstructors_of_splitOn hd' hs')
      (all_startsOpen_of_splitOn hs')
    rw [compile_split hd hs]
    refine ⟨CaseTree.restrictBranches sig branches, CaseTree.map_fst_restrictBranches sig branches,
      ?_, by rw [CaseTree.restrict]⟩
    intro k t hm
    obtain ⟨hdeclared, t, hk, rfl⟩ := CaseTree.mem_restrictBranches.1 hm
    obtain ⟨con, hcon⟩ := Option.isSome_iff_exists.1 hdeclared
    obtain ⟨con', next, hcon', hnext, -, ihk⟩ := ih k t hk
    obtain rfl := Option.some.inj (hcon'.symm.trans (hgrows.constructors k con hcon))
    exact branch_eq_some.2 ⟨con', next, hcon, hnext, ihk (hfits.split hsig hcon)⟩

/-! ## Accepted matrices -/

/-- **Later declarations change nothing for old values.** Let a signature accept a matrix, and let
more be declared after that: types, and constructors of old and new types. Then the matrix is still
accepted. It has a case tree for both signatures from every column on that leaves room for the later
one, and the earlier tree is the later one without the branches of new constructors. Both send each
row of values that are built from old constructors, well typed or not, to the same clauses. A row
that was well typed is of this kind, is still well typed, and is sent to the clauses that match
it. -/
theorem later_declarations_keep_leaves {sig : Signature} (hsig : sig.Declared)
    {telescope : List Parameter} {clauses : List Clause} {m : ClauseMatrix}
    (hm : ClauseMatrix.ofClauses sig telescope clauses = .ok m) (later : List Declaration)
    (column : UInt64) :
    let sig' := sig.declareAll later
    ClauseMatrix.ofClauses sig' telescope clauses = .ok m ∧
    (m.HasRoom sig' column → ∃ tree tree',
      m.caseTree? sig column = some tree ∧ m.caseTree? sig' column = some tree' ∧
      tree'.restrict sig = tree ∧
      (∀ row, Value.AllBuiltFrom sig row →
        tree'.run column.toNat row = tree.run column.toNat row) ∧
      ∀ row, Value.HaveTypes sig (telescope.map Parameter.ty) row →
        Value.AllBuiltFrom sig row ∧ Value.HaveTypes sig' (telescope.map Parameter.ty) row ∧
        tree'.run column.toNat row = some (matching clauses row)) := by
  intro sig'
  have hsig' : sig'.Declared := hsig.declareAll later
  have hgrows : sig.Grows sig' := sig.grows_declareAll later
  have hfits := ClauseMatrix.Fits.ofClauses hm
  have hfits' := hfits.extend hgrows.toExtends
  obtain ⟨rfl, hcolumn, -, -⟩ := ClauseMatrix.ofClauses_eq_ok.1 hm
  have hm' : ClauseMatrix.ofClauses sig' telescope clauses = .ok ⟨telescope, clauses⟩ :=
    ClauseMatrix.ofClauses_eq_ok.2 ⟨rfl, hcolumn, hfits'.types, hfits'.clauses⟩
  refine ⟨hm', fun hroom => ?_⟩
  obtain ⟨tree', htree'⟩ := hfits'.exists_caseTree? hsig'.wellFormed hroom
  have htree := compile_restrict hsig.wellFormed hsig'.wellFormed hgrows hfits htree'
  refine ⟨_, tree', htree, htree', rfl,
    fun row hrow => (CaseTree.run_restrict column.toNat hrow tree').symm, fun row hrow => ?_⟩
  have hrow' := hrow.extend hgrows
  obtain ⟨path, hpath⟩ := follow_of_compile hsig' hfits' htree' row hrow'
  exact ⟨hrow.allBuiltFrom, hrow', by rw [CaseTree.run_eq_follow, hpath]; rfl⟩

/-- The type of numbers gets a third constructor after the matrix is accepted. The later tree has a
branch for it at each node, and the number two still matches both clauses. -/
theorem later_declarations_keep_leaves_two :
    let telescope : List Parameter := [⟨"n", ⟨0⟩⟩, ⟨"t", ⟨1⟩⟩]
    let clauses : List Clause :=
      [⟨7, [.con ⟨1⟩ [.con ⟨1⟩ [.bind "k"]], .bind "t"]⟩, ⟨3, [.bind "n", .bind "t"]⟩]
    let m : ClauseMatrix := ⟨telescope, clauses⟩
    let later := peano.declareAll [.destructible "List", .constructor ⟨0⟩ "mark" [⟨2⟩, ⟨0⟩]]
    let row : List Value := [.con ⟨1⟩ [.con ⟨1⟩ [.con ⟨0⟩ []]], .atom 5]
    peano.Declared ∧ ClauseMatrix.ofClauses peano telescope clauses = .ok m ∧
      ClauseMatrix.ofClauses later telescope clauses = .ok m ∧
      Value.HaveTypes peano (telescope.map Parameter.ty) row ∧ m.HasRoom later 2 ∧
      ∃ tree tree', m.caseTree? peano 2 = some tree ∧ m.caseTree? later 2 = some tree' ∧
        tree.leaves.length = 3 ∧ tree'.leaves.length = 5 ∧ tree'.restrict peano = tree ∧
        tree'.run 2 row = tree.run 2 row ∧ tree'.run 2 row = some [7, 3] := by
  intro telescope clauses m later row
  have hm : ClauseMatrix.ofClauses peano telescope clauses = .ok m := rfl
  have hrow : Value.HaveTypes peano (telescope.map Parameter.ty) row := by
    simp [telescope, row, Value.HaveTypes, Value.HasType, peano, Signature.constructor?,
      Signature.dataType?]
  have hroom : m.HasRoom later 2 :=
    ((ClauseMatrix.Fits.ofClauses hm).extend (peano.extends_declareAll _)).hasRoom
      (peano_declared.declareAll _).wellFormed (@Signature.length_fields_le later 2 (by decide))
      (by decide)
  obtain ⟨hm', htrees⟩ := later_declarations_keep_leaves peano_declared hm
    [.destructible "List", .constructor ⟨0⟩ "mark" [⟨2⟩, ⟨0⟩]] 2
  obtain ⟨tree, tree', ht, ht', hrestrict, hruns, htyped⟩ := htrees hroom
  obtain ⟨hbuilt, -, hrun⟩ := htyped row hrow
  have hleaves : (m.caseTree? peano 2).map (·.leaves.length) = some 3 := by cbv
  have hlater : later = {
      dataTypes := #[⟨"Nat", .destructible [⟨0⟩, ⟨1⟩, ⟨2⟩]⟩, ⟨"Tag", .indestructible⟩,
        ⟨"List", .destructible []⟩]
      constructors := #[⟨"zero", ⟨0⟩, []⟩, ⟨"succ", ⟨0⟩, [⟨0⟩]⟩, ⟨"mark", ⟨0⟩, [⟨2⟩, ⟨0⟩]⟩] } := rfl
  have hleaves' : (m.caseTree? later 2).map (·.leaves.length) = some 5 := by
    rw [hlater]
    cbv
  rw [ht, Option.map_some, Option.some_inj] at hleaves
  rw [ht', Option.map_some, Option.some_inj] at hleaves'
  exact ⟨peano_declared, hm, hm', hrow, hroom, tree, tree', ht, ht', hleaves, hleaves', hrestrict,
    hruns row hbuilt, hrun⟩

end DepLang.Matching
