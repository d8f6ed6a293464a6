import DepLang.Proofs.Matching.Shape

/-!
# What stands at the leaves, and how deep they are

A split sends a clause into some branches and drops it from the others, and puts new columns in
front of the old ones. Here is what this comes to along a whole path.

* Nothing is lost. A clause goes into at least one branch of a split (`exists_specialize`), and so
  it stands at some leaf (`exists_mem_leaves`). The others that stand there are in their order
  (`sublist_of_mem_leaves`). No type needs to have a value for this.
* `compile_relabel`: numbers of clauses are only carried along, so two clauses with one number are
  told apart by their positions.
* Nothing goes on forever. A split uses up a constructor pattern in every branch
  (`totalSize_specialize_lt`), so a path has no more nodes than there are constructor patterns
  (`length_le_of_mem_leaves`). Calls that wait for each other are bounded as well
  (`ClauseMatrix.Fits.length_le_of_isChain`).
-/
namespace DepLang.Matching

/-! ## No clause is lost -/

theorem Clause.id_of_specialize {k : ConId} {arity : Nat} {c d : Clause}
    (h : c.specialize k arity = some d) : d.id = c.id := by
  unfold Clause.specialize at h
  split at h
  · cases h
  · cases h
    rfl
  · split at h
    · cases h
      rfl
    · cases h

theorem map_id_dropColumn (clauses : List Clause) :
    (dropColumn clauses).map Clause.id = clauses.map Clause.id := by
  simp [dropColumn, Clause.dropColumn]

theorem sublist_map_id_specialize (k : ConId) (arity : Nat) (clauses : List Clause) :
    ((specialize k arity clauses).map Clause.id).Sublist (clauses.map Clause.id) := by
  unfold specialize
  induction clauses with
  | nil => exact .slnil
  | cons c cs ih =>
    cases hd : c.specialize k arity with
    | none =>
      rw [List.filterMap_cons_none hd]
      exact ih.cons _
    | some d =>
      rw [List.filterMap_cons_some hd, List.map_cons, List.map_cons, Clause.id_of_specialize hd]
      exact ih.cons_cons _

section Survival

variable {sig : Signature} {column : UInt64} {telescope : List Parameter} {clauses : List Clause}
  {tree : CaseTree}

/-- **A split loses no clause.** One that asks for a constructor goes into the branch of it, and one
with a binder into all of them. -/
theorem exists_specialize (hsig : sig.WellFormed) {parameter : Parameter} {rest : List Parameter}
    (hfits : ClauseMatrix.Fits sig ⟨parameter :: rest, clauses⟩) {ks : List ConId}
    (hty : sig.HasConstructors parameter.ty ks) (hne : ks ≠ []) {c : Clause} (hc : c ∈ clauses) :
    ∃ k ∈ ks, ∀ con, sig.constructor? k = some con →
      ∃ d ∈ specialize k con.fields.length clauses, d.id = c.id := by
  have hkeep : ∀ {k : ConId} {arity : Nat} {d : Clause}, c.specialize k arity = some d →
      ∃ d ∈ specialize k arity clauses, d.id = c.id := fun hd =>
    ⟨_, List.mem_filterMap.2 ⟨c, hc, hd⟩, Clause.id_of_specialize hd⟩
  have hwell := hfits.clauses c hc
  obtain ⟨id, patterns⟩ := c
  cases patterns with
  | nil => simp [Clause.WellTyped, Pattern.HaveTypes] at hwell
  | cons p ps =>
    cases p with
    | bind name =>
      obtain ⟨k, hk⟩ := List.exists_mem_of_ne_nil ks hne
      exact ⟨k, hk, fun con _ => hkeep rfl⟩
    | con k fields =>
      rw [Clause.WellTyped, List.map_cons, Pattern.HaveTypes, Pattern.HasType] at hwell
      obtain ⟨⟨con, hcon, hdata, -⟩, -⟩ := hwell
      refine ⟨k, (hsig.mem_constructors_iff hty).2 ⟨con, hcon, hdata⟩, fun con _ => ?_⟩
      exact hkeep (if_pos rfl)

theorem sublist_of_mem_leaves (hsig : sig.WellFormed)
    (hfits : ClauseMatrix.Fits sig ⟨telescope, clauses⟩)
    (h : compile sig column telescope clauses = some tree) :
    ∀ path ids, (path, ids) ∈ tree.leaves → ids.Sublist (clauses.map Clause.id) := by
  refine compile_induction hsig (motive := fun _ _ clauses tree =>
    ∀ path ids, (path, ids) ∈ tree.leaves → ids.Sublist (clauses.map Clause.id))
    ?_ ?_ ?_ hfits h
  · intro column clauses _ path ids hm
    simp only [CaseTree.leaves, List.mem_singleton, Prod.mk.injEq] at hm
    rw [hm.2]
  · intro column next parameter rest clauses data tree _ _ _ _ _ ih path ids hm
    have hids := ih path ids hm
    rwa [map_id_dropColumn] at hids
  · intro column parameter rest clauses data branches _ _ _ ih path ids hm
    rw [CaseTree.leaves, CaseTree.mem_leavesOfBranches] at hm
    obtain ⟨k, t, p, hk, rfl, hp⟩ := hm
    obtain ⟨con, _, -, -, -, ihk⟩ := ih k t hk
    exact (ihk p ids hp).trans (sublist_map_id_specialize k _ clauses)

/-- Every clause stands at some leaf. -/
theorem exists_mem_leaves (hsig : sig.WellFormed)
    (hfits : ClauseMatrix.Fits sig ⟨telescope, clauses⟩)
    (h : compile sig column telescope clauses = some tree) :
    ∀ c ∈ clauses, ∃ path ids, (path, ids) ∈ tree.leaves ∧ c.id ∈ ids := by
  refine compile_induction hsig (motive := fun _ _ clauses tree =>
    ∀ c ∈ clauses, ∃ path ids, (path, ids) ∈ tree.leaves ∧ c.id ∈ ids) ?_ ?_ ?_ hfits h
  · intro column clauses _ c hc
    exact ⟨[], clauses.map Clause.id, by simp [CaseTree.leaves], List.mem_map_of_mem hc⟩
  · intro column next parameter rest clauses data tree _ _ _ _ _ ih c hc
    exact ih c.dropColumn (List.mem_map_of_mem hc)
  · intro column parameter rest clauses data branches hfits hd hs ih c hc
    obtain ⟨k, hk, hkeep⟩ := exists_specialize hsig hfits (hasConstructors_of_splitOn hd hs)
      (hfits.ne_nil_of_splitOn hsig hd hs) hc
    obtain ⟨⟨k, t⟩, hbranch, rfl⟩ := List.mem_map.1 hk
    obtain ⟨con, _, hcon, -, -, ihk⟩ := ih k t hbranch
    obtain ⟨d, hd, hid⟩ := hkeep con hcon
    obtain ⟨path, ids, hm, hmem⟩ := ihk d hd
    refine ⟨k :: path, ids, ?_, hid ▸ hmem⟩
    rw [CaseTree.leaves, CaseTree.mem_leavesOfBranches]
    exact ⟨k, t, path, hbranch, rfl, hm⟩

/-- The least number fires at every leaf that it stands at, so it is not shadowed. -/
theorem not_mem_shadowed (hsig : sig.WellFormed) {m : ClauseMatrix} (hfits : m.Fits sig)
    (h : m.caseTree? sig column = some tree) {c : Clause} (hc : c ∈ m.clauses)
    (hleast : ∀ d ∈ m.clauses, c.id ≤ d.id) : c.id ∉ (tree.coverage m).shadowed := by
  obtain ⟨path, ids, hm, hmem⟩ := exists_mem_leaves hsig hfits h c hc
  have hsub := sublist_of_mem_leaves hsig hfits h path ids hm
  have hfires : firing? ids = some c.id := by
    rw [firing?, List.min?_eq_some_iff]
    refine ⟨hmem, fun i hi => ?_⟩
    obtain ⟨d, hd, rfl⟩ := List.mem_map.1 (hsub.subset hi)
    exact hleast d hd
  have hfired : c.id ∈ tree.fired := CaseTree.mem_fired.2 ⟨path, ids, hm, hfires⟩
  simp [CaseTree.coverage, hfired]

end Survival

/-! ## Numbers are carried along -/

/-- The clause with another number. -/
def Clause.relabel (f : Nat → Nat) (c : Clause) : Clause := { c with id := f c.id }

namespace CaseTree

mutual

/-- The tree with other numbers for the clauses. -/
def relabel (f : Nat → Nat) : CaseTree → CaseTree
  | leaf clauses => leaf (clauses.map f)
  | node column name branches => node column name (relabelBranches f branches)

def relabelBranches (f : Nat → Nat) : List (ConId × CaseTree) → List (ConId × CaseTree)
  | [] => []
  | (con, tree) :: rest => (con, relabel f tree) :: relabelBranches f rest

end

theorem relabelBranches_eq_map (f : Nat → Nat) (branches : List (ConId × CaseTree)) :
    relabelBranches f branches = branches.map fun branch => (branch.1, branch.2.relabel f) := by
  induction branches with
  | nil => rfl
  | cons branch rest ih => rw [relabelBranches, ih, List.map_cons]

end CaseTree

section Relabel

variable (f : Nat → Nat) (clauses : List Clause)

theorem splitOn_relabel (shape : DataShape) :
    splitOn shape (clauses.map (Clause.relabel f)) = splitOn shape clauses := by
  have hopen : Clause.startsOpen ∘ Clause.relabel f = Clause.startsOpen := rfl
  cases shape with
  | indestructible => rfl
  | destructible constructors => rw [splitOn, splitOn, List.all_map, hopen]

theorem dropColumn_relabel :
    dropColumn (clauses.map (Clause.relabel f)) = (dropColumn clauses).map (Clause.relabel f) := by
  simp [dropColumn, Clause.dropColumn, Clause.relabel]

theorem Clause.specialize_relabel (k : ConId) (arity : Nat) (c : Clause) :
    (c.relabel f).specialize k arity = (c.specialize k arity).map (Clause.relabel f) := by
  obtain ⟨id, patterns⟩ := c
  cases patterns with
  | nil => rfl
  | cons p ps =>
    cases p with
    | bind name => rfl
    | con l fields =>
      by_cases hl : l = k
      · simp [Clause.specialize, Clause.relabel, hl]
      · simp [Clause.specialize, Clause.relabel, hl]

theorem specialize_relabel (k : ConId) (arity : Nat) :
    specialize k arity (clauses.map (Clause.relabel f)) =
      (specialize k arity clauses).map (Clause.relabel f) := by
  rw [specialize, specialize, List.filterMap_map, List.map_filterMap]
  exact List.filterMap_congr fun c _ => Clause.specialize_relabel f k arity c

/-- **Numbers are carried along.** They decide nothing, and come out at the leaves as they went
in. -/
theorem compile_relabel {sig : Signature} (hsig : sig.WellFormed) {column : UInt64}
    {telescope : List Parameter} {tree : CaseTree}
    (hfits : ClauseMatrix.Fits sig ⟨telescope, clauses⟩)
    (h : compile sig column telescope clauses = some tree) :
    compile sig column telescope (clauses.map (Clause.relabel f)) = some (tree.relabel f) := by
  refine compile_induction hsig (motive := fun column telescope clauses tree =>
    compile sig column telescope (clauses.map (Clause.relabel f)) = some (tree.relabel f))
    ?_ ?_ ?_ hfits h
  · intro column clauses _
    simp [compile, CaseTree.relabel, Clause.relabel]
  · intro column next parameter rest clauses data tree _ hd hs hnext _ ih
    rw [compile_pass hd ((splitOn_relabel f clauses _).trans hs), dropColumn_relabel]
    exact ⟨next, hnext, ih⟩
  · intro column parameter rest clauses data branches _ hd hs ih
    rw [compile_split hd ((splitOn_relabel f clauses _).trans hs)]
    refine ⟨CaseTree.relabelBranches f branches, ?_, ?_, by rw [CaseTree.relabel]⟩
    · simp [CaseTree.relabelBranches_eq_map, Function.comp_def]
    · intro k t hm
      rw [CaseTree.relabelBranches_eq_map] at hm
      obtain ⟨⟨k, t⟩, hk, he⟩ := List.mem_map.1 hm
      cases he
      obtain ⟨con, next, hcon, hnext, -, ihk⟩ := ih k t hk
      rw [branch_eq_some, ← specialize_relabel] at *
      exact ⟨con, next, hcon, hnext, ihk⟩

end Relabel

/-- The matrix with other numbers for the clauses. -/
def ClauseMatrix.relabel (f : Nat → Nat) (m : ClauseMatrix) : ClauseMatrix :=
  { m with clauses := m.clauses.map (Clause.relabel f) }

theorem Invokes.relabel {sig : Signature} {m m' : ClauseMatrix} (f : Nat → Nat)
    (h : Invokes sig m m') : Invokes sig (m.relabel f) (m'.relabel f) := by
  cases h with
  | @pass parameter rest clauses data hd hs =>
    simp only [ClauseMatrix.relabel, ← dropColumn_relabel]
    exact .pass hd ((splitOn_relabel f clauses _).trans hs)
  | @split parameter rest clauses data ks k con hd hs hk hcon =>
    simp only [ClauseMatrix.relabel, ← specialize_relabel]
    exact .split hd ((splitOn_relabel f clauses _).trans hs) hk hcon

theorem ClauseMatrix.HasRoom.of_relabel {sig : Signature} {m : ClauseMatrix} {f : Nat → Nat}
    {column : UInt64} (h : (m.relabel f).HasRoom sig column) : m.HasRoom sig column := by
  intro chain hchain
  have hmap : ((m :: chain).map (ClauseMatrix.relabel f)).IsChain (Invokes sig) :=
    List.isChain_map_of_isChain (ClauseMatrix.relabel f) (fun _ _ => Invokes.relabel f) hchain
  have hlt := h _ hmap
  rwa [List.length_map] at hlt

/-- The clauses, numbered by their positions. -/
def numbered (clauses : List Clause) : List Clause := clauses.mapIdx fun i c => ⟨i, c.patterns⟩

theorem map_id_numbered (clauses : List Clause) :
    (numbered clauses).map Clause.id = List.range clauses.length := by
  refine List.ext_getElem (by simp [numbered]) fun i hi _ => ?_
  simp [numbered]

/-- The number of the clause at a position puts the numbers back. -/
theorem relabel_numbered (clauses : List Clause) :
    (numbered clauses).map (Clause.relabel fun i => (clauses.map Clause.id).getD i 0) =
      clauses := by
  refine List.ext_getElem (by simp [numbered]) fun i _ hi => ?_
  simp [numbered, Clause.relabel, hi]

theorem ClauseMatrix.ofRows_eq_ofClauses (sig : Signature) (telescope : List Parameter)
    (clauses : List Clause) : ofRows sig telescope (clauses.map Clause.patterns) =
      ofClauses sig telescope (numbered clauses) := by
  rw [ofRows, numbered, List.mapIdx_eq_zipIdx_map, List.zipIdx_map, List.map_map]
  rfl

theorem ClauseMatrix.Fits.numbered {sig : Signature} {telescope : List Parameter}
    {clauses : List Clause} (h : Fits sig ⟨telescope, clauses⟩) :
    Fits sig ⟨telescope, numbered clauses⟩ where
  types := h.types
  clauses c hc := by
    obtain ⟨i, hi, rfl⟩ := List.mem_mapIdx.1 hc
    have hwell : clauses[i].WellTyped sig telescope := h.clauses _ (List.getElem_mem hi)
    exact hwell

/-- **No clause is lost or reordered.** Let a signature accept a matrix, and let more be declared
after that. Then the matrix has a case tree from every column on that leaves it room, also if its
types have no values. Each leaf lists some of the clauses in their order, each clause stands at some
leaf, and a clause with the least number is not shadowed. Clauses may share a number, so number them
by their positions as well: the tree is the same but for the numbers, each of its leaves lists some
of the positions in their order, and each position stands at some leaf. -/
theorem caseTree_keeps_clauses {sig : Signature} (hsig : sig.Declared)
    {telescope : List Parameter} {clauses : List Clause} {m : ClauseMatrix}
    (hm : ClauseMatrix.ofClauses sig telescope clauses = .ok m) (later : List Declaration)
    {column : UInt64} (hroom : m.HasRoom (sig.declareAll later) column) :
    let sig' := sig.declareAll later
    ∃ tree, m.caseTree? sig' column = some tree ∧
      (∀ path ids, (path, ids) ∈ tree.leaves → ids.Sublist (clauses.map Clause.id)) ∧
      (∀ c ∈ clauses, ∃ path ids, (path, ids) ∈ tree.leaves ∧ c.id ∈ ids) ∧
      (∀ c ∈ clauses, (∀ d ∈ clauses, c.id ≤ d.id) → c.id ∉ (tree.coverage m).shadowed) ∧
      ∃ rows base, ClauseMatrix.ofRows sig telescope (clauses.map Clause.patterns) = .ok rows ∧
        rows.caseTree? sig' column = some base ∧
        tree = base.relabel (fun i => (clauses.map Clause.id).getD i 0) ∧
        (∀ path positions, (path, positions) ∈ base.leaves →
          positions.Sublist (List.range clauses.length)) ∧
        ∀ i < clauses.length, ∃ path positions, (path, positions) ∈ base.leaves ∧
          i ∈ positions := by
  intro sig'
  have hwf : sig'.WellFormed := (hsig.declareAll later).wellFormed
  have hfits := (ClauseMatrix.Fits.ofClauses hm).extend (sig.extends_declareAll later)
  obtain ⟨rfl, hcolumn, htypes, hclauses⟩ := ClauseMatrix.ofClauses_eq_ok.1 hm
  have hrows : ClauseMatrix.ofRows sig telescope (clauses.map Clause.patterns) =
      .ok ⟨telescope, numbered clauses⟩ := by
    rw [ClauseMatrix.ofRows_eq_ofClauses, ClauseMatrix.ofClauses_eq_ok]
    exact ⟨rfl, hcolumn, htypes, (ClauseMatrix.Fits.ofClauses hm).numbered.clauses⟩
  have hfits' := hfits.numbered
  have hroom' : ClauseMatrix.HasRoom sig' ⟨telescope, numbered clauses⟩ column := by
    rw [← relabel_numbered clauses] at hroom
    exact hroom.of_relabel
  obtain ⟨base, hbase⟩ := hfits'.exists_caseTree? hwf hroom'
  have htree := compile_relabel (fun i => (clauses.map Clause.id).getD i 0) _ hwf hfits' hbase
  rw [relabel_numbered] at htree
  refine ⟨_, htree, sublist_of_mem_leaves hwf hfits htree, exists_mem_leaves hwf hfits htree,
    fun c hc hleast => not_mem_shadowed hwf hfits htree hc hleast, _, base, hrows, hbase, rfl, ?_,
    fun i hi => ?_⟩
  · have hsub := sublist_of_mem_leaves hwf hfits' hbase
    rwa [map_id_numbered] at hsub
  · have hmem : i ∈ (numbered clauses).map Clause.id := by
      rwa [map_id_numbered, List.mem_range]
    obtain ⟨c, hc, rfl⟩ := List.mem_map.1 hmem
    exact exists_mem_leaves hwf hfits' hbase c hc

/-- A type without constructors, and a type whose constructors need a value of it. -/
def hollow : Signature where
  dataTypes := #[⟨"Void", .destructible []⟩, ⟨"Box", .destructible [⟨0⟩, ⟨1⟩]⟩]
  constructors := #[⟨"box", ⟨1⟩, [⟨0⟩]⟩, ⟨"both", ⟨1⟩, [⟨1⟩, ⟨0⟩]⟩]

theorem hollow_declared : hollow.Declared := by
  have types := (Signature.Declared.empty.destructible "Void").destructible "Box"
  have box : Signature.Declared _ := .constructor types
    (rfl : Signature.addConstructor _ ⟨1⟩ "box" [⟨0⟩] = .ok (⟨0⟩, _))
  exact .constructor box (rfl : Signature.addConstructor _ ⟨1⟩ "both" [⟨1⟩, ⟨0⟩] = .ok (⟨1⟩, _))

/-- The first and the last clause share a number, and no value matches any of the clauses. Still the
position of the last one stands at a leaf, and the clause between them is not shadowed. -/
theorem caseTree_keeps_clauses_hollow :
    let telescope : List Parameter := [⟨"b", ⟨1⟩⟩]
    let clauses : List Clause := [⟨4, [.con ⟨0⟩ [.bind "v"]]⟩, ⟨2, [.bind "b"]⟩,
      ⟨4, [.con ⟨1⟩ [.con ⟨0⟩ [.bind "v"], .bind "w"]]⟩]
    let m : ClauseMatrix := ⟨telescope, clauses⟩
    let sig := hollow.declareAll [.constructor ⟨1⟩ "more" [⟨0⟩]]
    hollow.Declared ∧ ClauseMatrix.ofClauses hollow telescope clauses = .ok m ∧ m.HasRoom sig 0 ∧
      ∃ tree base, m.caseTree? sig 0 = some tree ∧ 2 ∉ (tree.coverage m).shadowed ∧
        (⟨telescope, numbered clauses⟩ : ClauseMatrix).caseTree? sig 0 = some base ∧
        tree = base.relabel (fun i => [4, 2, 4].getD i 0) ∧
        ∃ path positions, (path, positions) ∈ base.leaves ∧ 2 ∈ positions := by
  intro telescope clauses m sig
  have hm : ClauseMatrix.ofClauses hollow telescope clauses = .ok m := rfl
  have hroom : m.HasRoom sig 0 :=
    ((ClauseMatrix.Fits.ofClauses hm).extend (hollow.extends_declareAll _)).hasRoom
      (hollow_declared.declareAll _).wellFormed (@Signature.length_fields_le sig 2 (by decide))
      (by decide)
  obtain ⟨tree, ht, -, -, hleast, rows, base, hrows, hbase, he, -, hpositions⟩ :=
    caseTree_keeps_clauses hollow_declared hm _ hroom
  cases hrows
  refine ⟨hollow_declared, hm, hroom, tree, base, ht, ?_, hbase, he, hpositions 2 (by decide)⟩
  exact hleast ⟨2, [.bind "b"]⟩ (by simp [clauses]) (by decide)

/-! ## Depth -/

/-- A path to a leaf has no more nodes than there are constructor patterns. -/
theorem length_le_of_mem_leaves {sig : Signature} (hsig : sig.WellFormed) {column : UInt64}
    {telescope : List Parameter} {clauses : List Clause} {tree : CaseTree}
    (hfits : ClauseMatrix.Fits sig ⟨telescope, clauses⟩)
    (h : compile sig column telescope clauses = some tree) :
    ∀ path ids, (path, ids) ∈ tree.leaves → path.length ≤ totalSize clauses := by
  refine compile_induction hsig (motive := fun _ _ clauses tree =>
    ∀ path ids, (path, ids) ∈ tree.leaves → path.length ≤ totalSize clauses) ?_ ?_ ?_ hfits h
  · intro column clauses _ path ids hm
    simp only [CaseTree.leaves, List.mem_singleton, Prod.mk.injEq] at hm
    simp [hm.1]
  · intro column next parameter rest clauses data tree _ _ _ _ _ ih path ids hm
    exact Nat.le_trans (ih path ids hm) (totalSize_dropColumn_le clauses)
  · intro column parameter rest clauses data branches hfits _ hs ih path ids hm
    rw [CaseTree.leaves, CaseTree.mem_leavesOfBranches] at hm
    obtain ⟨k, t, p, hk, rfl, hp⟩ := hm
    obtain ⟨con, _, -, -, -, ihk⟩ := ih k t hk
    have hlt := totalSize_specialize_lt k con.fields.length hfits.patterns_ne_nil
      (all_startsOpen_of_splitOn hs)
    have hle := ihk p ids hp
    rw [List.length_cons]
    omega

/-- **Compilation ends, and its depth is bounded.** Let a signature accept a matrix, and let more be
declared after that; types may contain themselves and each other. If no constructor has more fields
than `arity`, then a chain of calls of the compiler, each made by the one before it, has at most as
many calls as there are columns, and `arity` more for each constructor pattern in all clauses
together, at any depth. So there is room from every column on behind which there are that many
numbers. From every column on that leaves it room, the matrix has a case tree, and no path to a leaf
has more nodes than there are constructor patterns. -/
theorem caseTree_depth_bounded {sig : Signature} (hsig : sig.Declared)
    {telescope : List Parameter} {clauses : List Clause} {m : ClauseMatrix}
    (hm : ClauseMatrix.ofClauses sig telescope clauses = .ok m) (later : List Declaration) :
    let sig' := sig.declareAll later
    (∀ arity, (∀ k con, sig'.constructor? k = some con → con.fields.length ≤ arity) →
      (∀ chain, (m :: chain).IsChain (Invokes sig') →
        chain.length ≤ telescope.length + totalSize clauses * arity) ∧
      ∀ column : UInt64,
        column.toNat + (telescope.length + totalSize clauses * arity) < UInt64.size →
        m.HasRoom sig' column) ∧
    ∀ column, m.HasRoom sig' column → ∃ tree, m.caseTree? sig' column = some tree ∧
      ∀ path ids, (path, ids) ∈ tree.leaves → path.length ≤ totalSize clauses := by
  intro sig'
  have hwf : sig'.WellFormed := (hsig.declareAll later).wellFormed
  have hfits := (ClauseMatrix.Fits.ofClauses hm).extend (sig.extends_declareAll later)
  obtain ⟨rfl, -, -, -⟩ := ClauseMatrix.ofClauses_eq_ok.1 hm
  refine ⟨fun arity harity => ⟨fun chain hchain => hfits.length_le_of_isChain hwf harity hchain,
    fun column hcolumn => hfits.hasRoom hwf harity hcolumn⟩, fun column hroom => ?_⟩
  obtain ⟨tree, htree⟩ := hfits.exists_caseTree? hwf hroom
  exact ⟨tree, htree, length_le_of_mem_leaves hwf hfits htree⟩

/-- Trees, which are made of forests, and forests, which are made of trees. -/
def woods : Signature where
  dataTypes := #[⟨"Tree", .destructible [⟨0⟩]⟩, ⟨"Forest", .destructible [⟨1⟩, ⟨2⟩]⟩]
  constructors := #[⟨"node", ⟨0⟩, [⟨1⟩]⟩, ⟨"nil", ⟨1⟩, []⟩, ⟨"cons", ⟨1⟩, [⟨0⟩, ⟨1⟩]⟩]

theorem woods_declared : woods.Declared := by
  have types := (Signature.Declared.empty.destructible "Tree").destructible "Forest"
  have node : Signature.Declared _ := .constructor types
    (rfl : Signature.addConstructor _ ⟨0⟩ "node" [⟨1⟩] = .ok (⟨0⟩, _))
  have nil : Signature.Declared _ := .constructor node
    (rfl : Signature.addConstructor _ ⟨1⟩ "nil" [] = .ok (⟨1⟩, _))
  exact .constructor nil (rfl : Signature.addConstructor _ ⟨1⟩ "cons" [⟨0⟩, ⟨1⟩] = .ok (⟨2⟩, _))

/-- A clause for the forest of one childless tree, and one for all. There are four constructor
patterns, and one path has four nodes. The split on `cons` makes two columns of one, and the chain
of calls still ends. -/
theorem caseTree_depth_bounded_woods :
    let telescope : List Parameter := [⟨"f", ⟨1⟩⟩]
    let clauses : List Clause :=
      [⟨0, [.con ⟨2⟩ [.con ⟨0⟩ [.con ⟨1⟩ []], .con ⟨1⟩ []]]⟩, ⟨1, [.bind "f"]⟩]
    let m : ClauseMatrix := ⟨telescope, clauses⟩
    let next : ClauseMatrix := ⟨[⟨"cons_0", ⟨0⟩⟩, ⟨"cons_1", ⟨1⟩⟩],
      [⟨0, [.con ⟨0⟩ [.con ⟨1⟩ []], .con ⟨1⟩ []]⟩, ⟨1, [.bind "f_0", .bind "f_1"]⟩]⟩
    woods.Declared ∧ ClauseMatrix.ofClauses woods telescope clauses = .ok m ∧
      totalSize clauses = 4 ∧ Invokes woods m next ∧ totalSize next.clauses = 3 ∧
      ∃ tree, m.caseTree? woods 0 = some tree ∧
        ([⟨2⟩, ⟨0⟩, ⟨1⟩, ⟨1⟩], [0, 1]) ∈ tree.leaves ∧
        (∀ path ids, (path, ids) ∈ tree.leaves → path.length ≤ 4) ∧
        ∀ chain, (m :: chain).IsChain (Invokes woods) → chain.length ≤ 1 + 4 * 2 := by
  intro telescope clauses m next
  have hm : ClauseMatrix.ofClauses woods telescope clauses = .ok m := rfl
  obtain ⟨hbound, hdepths⟩ := caseTree_depth_bounded woods_declared hm []
  obtain ⟨hchains, hroom⟩ := hbound 2 (Signature.length_fields_le (by decide))
  obtain ⟨tree, ht, hdepth⟩ := hdepths 0 (hroom 0 (by decide))
  have hcall : Invokes woods m next :=
    @Invokes.split woods ⟨"f", ⟨1⟩⟩ [] clauses ⟨"Forest", .destructible [⟨1⟩, ⟨2⟩]⟩ [⟨1⟩, ⟨2⟩] ⟨2⟩
      ⟨"cons", ⟨1⟩, [⟨0⟩, ⟨1⟩]⟩ rfl rfl (by decide) rfl
  have hleaves : (m.caseTree? woods 0).map CaseTree.leaves = some
      [([⟨1⟩], [1]), ([⟨2⟩, ⟨0⟩, ⟨1⟩, ⟨1⟩], [0, 1]), ([⟨2⟩, ⟨0⟩, ⟨1⟩, ⟨2⟩], [1]),
        ([⟨2⟩, ⟨0⟩, ⟨2⟩], [1])] := by cbv
  refine ⟨woods_declared, hm, rfl, hcall, rfl, tree, ht, ?_, hdepth, hchains⟩
  have hleaf : tree.leaves = _ := Option.some.inj ((congrArg (Option.map _) ht).symm.trans hleaves)
  simp [hleaf]

end DepLang.Matching
