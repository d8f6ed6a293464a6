import DepLang.Proofs.Matching.Lookups

/-!
# The shape of a case tree

A node of a case tree says which column it looks at by a number and a name. Neither is of use
without knowing which columns there are at that point, and these change along a path: columns that
are passed over are gone, and so is the one that is split, but the fields of its constructor come in
front of the others. A **site** is a subtree with the columns that are there. Going down a branch
replays what happens to the columns (`Site.enter`), and a path is many branches (`Site.walk`).

* `exists_split_of_compile`: the column that a node was made for, and what its branches were
  compiled from.
* `Site.Compiled`: the tree at a site is one that was compiled from the columns at the site. This is
  the invariant: a branch keeps it (`Site.Compiled.enter`), and so does a path
  (`Site.Compiled.walk`).
* `compile_shift`: the number of the first column is added to all others.
-/
namespace DepLang.Matching

/-! ## Replaying a path -/

/-- One column for each field of a constructor, named after the constructor. -/
def fieldColumns (sig : Signature) (k : ConId) : List Parameter :=
  match sig.constructor? k with
  | some con => con.fields.mapIdx fun i ty => ⟨con.name ++ "_" ++ toString i, ty⟩
  | none => []

theorem fieldColumns_eq {sig : Signature} {k : ConId} {con : Constructor}
    (hk : sig.constructor? k = some con) : fieldColumns sig k = con.parameters := by
  simp [fieldColumns, hk, Constructor.parameters, List.mapIdx_eq_zipIdx_map]

/-- A tree, and the columns that it is about, the first of them with the number `column`. -/
structure Site where
  column : Nat
  telescope : List Parameter
  tree : CaseTree

namespace Site

/-- Goes down the branch of a constructor. The columns before the one that is split are dropped, and
the fields of the constructor are put in its place. -/
def enter (sig : Signature) (site : Site) (k : ConId) : Option Site :=
  match site.tree with
  | .leaf _ => none
  | .node on _ branches =>
    (branches.lookup k).map fun tree =>
      ⟨on.toNat + 1,
        fieldColumns sig k ++ (site.telescope.drop (on.toNat - site.column)).drop 1, tree⟩

/-- Goes down a path of branches. -/
def walk (sig : Signature) (site : Site) (path : List ConId) : Option Site :=
  path.foldlM (enter sig) site

end Site

/-! ## The column that a node splits -/

/-- **A node.** It was made for the first column of what is left of the telescope after passing over
columns, and its branches were compiled from the columns behind. -/
theorem exists_split_of_compile {sig : Signature} (hsig : sig.WellFormed) {column : UInt64}
    {telescope : List Parameter} {clauses : List Clause} {tree : CaseTree}
    (hfits : ClauseMatrix.Fits sig ⟨telescope, clauses⟩)
    (h : compile sig column telescope clauses = some tree) :
    ∀ on name branches, tree = .node on name branches →
      ∃ parameter rest clauses', telescope.drop (on.toNat - column.toNat) = parameter :: rest ∧
        parameter.name = name ∧ ClauseMatrix.Fits sig ⟨parameter :: rest, clauses'⟩ ∧
        sig.HasConstructors parameter.ty (branches.map Prod.fst) ∧ branches ≠ [] ∧
        ∀ k t, (k, t) ∈ branches → branch sig on rest clauses' k = some t := by
  refine compile_induction hsig (motive := fun column telescope clauses tree =>
    ∀ on name branches, tree = .node on name branches →
      ∃ parameter rest clauses', telescope.drop (on.toNat - column.toNat) = parameter :: rest ∧
        parameter.name = name ∧ ClauseMatrix.Fits sig ⟨parameter :: rest, clauses'⟩ ∧
        sig.HasConstructors parameter.ty (branches.map Prod.fst) ∧ branches ≠ [] ∧
        ∀ k t, (k, t) ∈ branches → branch sig on rest clauses' k = some t) ?_ ?_ ?_ hfits h
  · intro column clauses _ on name branches he
    cases he
  · intro column next parameter rest clauses data tree hfits _ _ hnext hcompile ih on name
      branches he
    have hle := column_le_of_compile hsig hfits.pass hcompile on name branches he
    have hsplit := ih on name branches he
    rw [nextColumn?_eq_some.1 hnext] at hle hsplit
    rw [show on.toNat - column.toNat = on.toNat - (column.toNat + 1) + 1 by omega,
      List.drop_succ_cons]
    exact hsplit
  · intro column parameter rest clauses data branches hfits hd hs hbranches on name bs he
    cases he
    refine ⟨parameter, rest, clauses, by simp, rfl, hfits, hasConstructors_of_splitOn hd hs, ?_, ?_⟩
    · rintro rfl
      exact hfits.ne_nil_of_splitOn hsig hd hs rfl
    · intro k t hk
      obtain ⟨con, next, hcon, hnext, htree, -⟩ := hbranches k t hk
      exact branch_eq_some.2 ⟨con, next, hcon, hnext, htree⟩

/-! ## One branch, and a path -/

namespace Site

variable {sig : Signature} {site site' : Site}

/-- The tree was compiled from the columns at the site. -/
def Compiled (sig : Signature) (site : Site) : Prop :=
  ∃ column clauses, column.toNat = site.column ∧ ClauseMatrix.Fits sig ⟨site.telescope, clauses⟩ ∧
    compile sig column site.telescope clauses = some site.tree

theorem Compiled.enter (hsig : sig.WellFormed) (h : site.Compiled sig) {k : ConId}
    (hk : site.enter sig k = some site') : site'.Compiled sig := by
  obtain ⟨_, telescope, tree⟩ := site
  obtain ⟨column, clauses, rfl, hfits, hcompile⟩ := h
  cases tree with
  | leaf ids => cases hk
  | node on name branches =>
    obtain ⟨tree, hlookup, rfl⟩ := Option.map_eq_some_iff.1 hk
    obtain ⟨parameter, rest, clauses', hdrop, -, hfits', -, -, hbranches⟩ :=
      exists_split_of_compile hsig hfits hcompile on name branches rfl
    have hmem : (k, tree) ∈ branches := by
      obtain ⟨before, after, rfl, -⟩ := List.lookup_eq_some_iff.1 hlookup
      simp
    obtain ⟨con, next, hcon, hnext, htree⟩ := branch_eq_some.1 (hbranches k tree hmem)
    refine ⟨next, specialize k con.fields.length clauses', nextColumn?_eq_some.1 hnext, ?_, ?_⟩
    · simp only [hdrop, List.drop_succ_cons, List.drop_zero, fieldColumns_eq hcon]
      exact hfits'.split hsig hcon
    · simp only [hdrop, List.drop_succ_cons, List.drop_zero, fieldColumns_eq hcon]
      exact htree

theorem Compiled.walk (hsig : sig.WellFormed) {path : List ConId} (h : site.Compiled sig)
    (hpath : site.walk sig path = some site') : site'.Compiled sig := by
  induction path generalizing site with
  | nil =>
    cases hpath
    exact h
  | cons k path ih =>
    rw [Site.walk, List.foldlM_cons, Option.bind_eq_bind, Option.bind_eq_some_iff] at hpath
    obtain ⟨next, hnext, hpath⟩ := hpath
    exact ih (h.enter hsig hnext) hpath

end Site

/-! ## Numbering from another column on -/

namespace CaseTree

mutual

/-- The tree with `k` added to the number of every column. -/
def shift (k : UInt64) : CaseTree → CaseTree
  | leaf clauses => leaf clauses
  | node column name branches => node (column + k) name (shiftBranches k branches)

def shiftBranches (k : UInt64) : List (ConId × CaseTree) → List (ConId × CaseTree)
  | [] => []
  | (con, tree) :: rest => (con, shift k tree) :: shiftBranches k rest

end

theorem shiftBranches_eq_map (k : UInt64) (branches : List (ConId × CaseTree)) :
    shiftBranches k branches = branches.map fun branch => (branch.1, branch.2.shift k) := by
  induction branches with
  | nil => rfl
  | cons branch rest ih => rw [shiftBranches, ih, List.map_cons]

mutual

/-- The numbers of the columns that a tree looks at. -/
def columns : CaseTree → List UInt64
  | leaf _ => []
  | node column _ branches => column :: columnsOfBranches branches

def columnsOfBranches : List (ConId × CaseTree) → List UInt64
  | [] => []
  | (_, tree) :: rest => columns tree ++ columnsOfBranches rest

end

theorem mem_columnsOfBranches {branches : List (ConId × CaseTree)} {on : UInt64} :
    on ∈ columnsOfBranches branches ↔ ∃ k tree, (k, tree) ∈ branches ∧ on ∈ tree.columns := by
  induction branches with
  | nil => simp [columnsOfBranches]
  | cons branch rest ih =>
    obtain ⟨l, t⟩ := branch
    rw [columnsOfBranches, List.mem_append, ih]
    constructor
    · rintro (hon | ⟨k, tree, hk, hon⟩)
      · exact ⟨l, t, List.mem_cons_self, hon⟩
      · exact ⟨k, tree, List.mem_cons_of_mem _ hk, hon⟩
    · rintro ⟨k, tree, hk, hon⟩
      rcases List.mem_cons.1 hk with he | hk
      · cases he
        exact .inl hon
      · exact .inr ⟨k, tree, hk, hon⟩

end CaseTree

theorem add_eq_of_toNat_eq {a b c : UInt64} (h : c.toNat = a.toNat + b.toNat) : a + b = c := by
  have hlt := c.toNat_lt
  rw [← UInt64.toNat_inj, UInt64.toNat_add, ← h, Nat.mod_eq_of_lt hlt]

/-- The numbers of all columns count from that of the first one, and none of them wraps around. -/
theorem compile_shift {sig : Signature} (hsig : sig.WellFormed) (k : UInt64) {column : UInt64}
    {telescope : List Parameter} {clauses : List Clause} {tree : CaseTree}
    (hfits : ClauseMatrix.Fits sig ⟨telescope, clauses⟩)
    (h : compile sig column telescope clauses = some tree) :
    ∀ column', column'.toNat = column.toNat + k.toNat →
      ClauseMatrix.HasRoom sig ⟨telescope, clauses⟩ column' →
      compile sig column' telescope clauses = some (tree.shift k) ∧
        ∀ on ∈ tree.columns, (on + k).toNat = on.toNat + k.toNat := by
  refine compile_induction hsig (motive := fun column telescope clauses tree =>
    ∀ column', column'.toNat = column.toNat + k.toNat →
      ClauseMatrix.HasRoom sig ⟨telescope, clauses⟩ column' →
      compile sig column' telescope clauses = some (tree.shift k) ∧
        ∀ on ∈ tree.columns, (on + k).toNat = on.toNat + k.toNat) ?_ ?_ ?_ hfits h
  · intro column clauses _ column' _ _
    rw [compile, CaseTree.shift, CaseTree.columns]
    exact ⟨rfl, by simp⟩
  · intro column next parameter rest clauses data tree _ hd hs hnext _ ih column' he hroom
    obtain ⟨next', hnext', hroom'⟩ := ClauseMatrix.hasRoom_iff.1 hroom _ (.pass hd hs)
    have hnat := nextColumn?_eq_some.1 hnext
    have hnat' := nextColumn?_eq_some.1 hnext'
    obtain ⟨htree, hcolumns⟩ := ih next' (by omega) hroom'
    exact ⟨(compile_pass hd hs).2 ⟨next', hnext', htree⟩, hcolumns⟩
  · intro column parameter rest clauses data branches _ hd hs ih column' he hroom
    -- What the induction says of a branch.
    have hbranch : ∀ l t, (l, t) ∈ branches →
        branch sig column' rest clauses l = some (t.shift k) ∧
          ∀ on ∈ t.columns, (on + k).toNat = on.toNat + k.toNat := by
      intro l t hl
      obtain ⟨con, next, hcon, hnext, -, ihl⟩ := ih l t hl
      obtain ⟨next', hnext', hroom'⟩ := ClauseMatrix.hasRoom_iff.1 hroom _
        (.split hd hs (List.mem_map_of_mem (f := Prod.fst) hl) hcon)
      have hnat := nextColumn?_eq_some.1 hnext
      have hnat' := nextColumn?_eq_some.1 hnext'
      obtain ⟨htree, hcolumns⟩ := ihl next' (by omega) hroom'
      exact ⟨branch_eq_some.2 ⟨con, next', hcon, hnext', htree⟩, hcolumns⟩
    have hadd : column + k = column' := add_eq_of_toNat_eq he
    refine ⟨(compile_split hd hs).2 ⟨CaseTree.shiftBranches k branches, ?_, ?_, ?_⟩, ?_⟩
    · simp [CaseTree.shiftBranches_eq_map, Function.comp_def]
    · intro l t hm
      rw [CaseTree.shiftBranches_eq_map] at hm
      obtain ⟨⟨l, t⟩, hl, he⟩ := List.mem_map.1 hm
      cases he
      exact (hbranch l t hl).1
    · rw [CaseTree.shift, hadd]
    · intro on hon
      rw [CaseTree.columns, List.mem_cons, CaseTree.mem_columnsOfBranches] at hon
      rcases hon with rfl | ⟨l, t, hl, hon⟩
      · rw [hadd, he]
      · exact (hbranch l t hl).2 on hon

/-! ## Accepted matrices -/

/-- **The shape of a case tree.** Let a signature accept a matrix, and let more be declared after
that. Then the matrix has a case tree from every column on that leaves it room. Replay the columns
along any path to a node. The column that the node looks at is still there, the node has its name,
and its type is destructible. The branches of the node are those of the constructors of this type:
all of them, at least one, each of them once, and in the order of their declaration. If the columns
are numbered from another number on, this number is added to those of all nodes, without wrapping
around, and nothing else changes. -/
theorem caseTree_shape {sig : Signature} (hsig : sig.Declared) {telescope : List Parameter}
    {clauses : List Clause} {m : ClauseMatrix}
    (hm : ClauseMatrix.ofClauses sig telescope clauses = .ok m) (later : List Declaration)
    {column : UInt64} (hroom : m.HasRoom (sig.declareAll later) column) :
    let sig' := sig.declareAll later
    ∃ tree, m.caseTree? sig' column = some tree ∧
      (∀ path current columns on name branches,
        Site.walk sig' ⟨column.toNat, telescope, tree⟩ path =
          some ⟨current, columns, .node on name branches⟩ →
        current ≤ on.toNat ∧
        ∃ split, columns[on.toNat - current]? = some split ∧ name = split.name ∧
          sig'.HasConstructors split.ty (branches.map Prod.fst) ∧ branches ≠ [] ∧
          ((branches.map Prod.fst).Pairwise fun k l => k.index < l.index) ∧
          ∀ k, k ∈ branches.map Prod.fst ↔
            ∃ con, sig'.constructor? k = some con ∧ con.data = split.ty) ∧
      ∃ base, m.caseTree? sig' 0 = some base ∧ tree = base.shift column ∧
        ∀ on ∈ base.columns, (on + column).toNat = on.toNat + column.toNat := by
  intro sig'
  have hsig' : sig'.Declared := hsig.declareAll later
  have hfits := (ClauseMatrix.Fits.ofClauses hm).extend (sig.extends_declareAll later)
  obtain ⟨rfl, -, -, -⟩ := ClauseMatrix.ofClauses_eq_ok.1 hm
  have hzero : ClauseMatrix.HasRoom sig' ⟨telescope, clauses⟩ 0 := hroom.mono (Nat.zero_le _)
  obtain ⟨base, hbase⟩ := hfits.exists_caseTree? hsig'.wellFormed hzero
  obtain ⟨htree, hcolumns⟩ :=
    compile_shift hsig'.wellFormed column hfits hbase column (Nat.zero_add _).symm hroom
  refine ⟨base.shift column, htree, ?_, base, hbase, rfl, hcolumns⟩
  intro path current columns on name branches hwalk
  have hstart : Site.Compiled sig' ⟨column.toNat, telescope, base.shift column⟩ :=
    ⟨column, clauses, rfl, hfits, htree⟩
  obtain ⟨current, clauses', rfl, hfits', hcompile⟩ := hstart.walk hsig'.wellFormed hwalk
  have hle := column_le_of_compile hsig'.wellFormed hfits' hcompile on name branches rfl
  obtain ⟨split, rest, -, hdrop, rfl, -, hty, hne, -⟩ :=
    exists_split_of_compile hsig'.wellFormed hfits' hcompile on name branches rfl
  have hsplit : columns[on.toNat - current.toNat]? = some split := by
    rw [← List.head?_drop, hdrop]
    rfl
  exact ⟨hle, split, hsplit, rfl, hty, hne, hsig'.increasing hty,
    fun k => hsig'.wellFormed.mem_constructors_iff hty⟩

/-- The columns are a tag and two numbers, and the type of numbers gets a third constructor after
the matrix is accepted. Behind the branch of `succ` the tag is gone and a field is new. The clause
binds the field, so the node there passes over it and looks at the last column. -/
theorem caseTree_shape_behind_succ :
    let telescope : List Parameter := [⟨"t", ⟨1⟩⟩, ⟨"n", ⟨0⟩⟩, ⟨"k", ⟨0⟩⟩]
    let clauses : List Clause := [⟨0, [.bind "t", .con ⟨1⟩ [.bind "p"], .con ⟨0⟩ []]⟩]
    let m : ClauseMatrix := ⟨telescope, clauses⟩
    let later : List Declaration := [.constructor ⟨0⟩ "mark" [⟨1⟩, ⟨0⟩]]
    let sig := peano.declareAll later
    peano.Declared ∧ ClauseMatrix.ofClauses peano telescope clauses = .ok m ∧ m.HasRoom sig 2 ∧
      ∃ tree branches, m.caseTree? sig 2 = some tree ∧
        Site.walk sig ⟨2, telescope, tree⟩ [⟨1⟩] =
          some ⟨4, [⟨"succ_0", ⟨0⟩⟩, ⟨"k", ⟨0⟩⟩], .node 5 "k" branches⟩ ∧
        branches.map Prod.fst = [⟨0⟩, ⟨1⟩, ⟨2⟩] ∧ sig.HasConstructors ⟨0⟩ [⟨0⟩, ⟨1⟩, ⟨2⟩] := by
  intro telescope clauses m later sig
  have hm : ClauseMatrix.ofClauses peano telescope clauses = .ok m := rfl
  have hroom : m.HasRoom sig 2 :=
    ((ClauseMatrix.Fits.ofClauses hm).extend (peano.extends_declareAll _)).hasRoom
      (peano_declared.declareAll _).wellFormed (@Signature.length_fields_le sig 2 (by decide))
      (by decide)
  obtain ⟨_, ht, hnodes, -⟩ := caseTree_shape peano_declared hm later hroom
  let branches : List (ConId × CaseTree) := [(⟨0⟩, .leaf [0]), (⟨1⟩, .leaf []), (⟨2⟩, .leaf [])]
  let tree : CaseTree :=
    .node 3 "n" [(⟨0⟩, .leaf []), (⟨1⟩, .node 5 "k" branches), (⟨2⟩, .leaf [])]
  have htree : m.caseTree? sig 2 = some tree := by cbv
  obtain rfl := Option.some.inj (htree.symm.trans ht)
  have hwalk : Site.walk sig ⟨2, telescope, tree⟩ [⟨1⟩] =
      some ⟨4, [⟨"succ_0", ⟨0⟩⟩, ⟨"k", ⟨0⟩⟩], .node 5 "k" branches⟩ := rfl
  obtain ⟨-, split, hsplit, -, hty, -, -, -⟩ := hnodes [⟨1⟩] 4 _ 5 "k" branches hwalk
  cases hsplit
  exact ⟨peano_declared, hm, hroom, tree, branches, htree, hwalk, rfl, hty⟩

/-- A clause that asks for the one value. The number of the only node would be the last one if that
of the first column was added to it, but from the last column on there is no tree. -/
theorem caseTree?_last_column_of_split :
    let m : ClauseMatrix := ⟨[⟨"u", ⟨0⟩⟩], [⟨0, [.con ⟨0⟩ []]⟩]⟩
    let base : CaseTree := .node 0 "u" [(⟨0⟩, .leaf [0])]
    point.Declared ∧ ClauseMatrix.ofClauses point m.telescope m.clauses = .ok m ∧
      m.caseTree? point 0 = some base ∧
      base.shift 18446744073709551615 =
        .node 18446744073709551615 "u" [(⟨0⟩, .leaf [0])] ∧
      m.caseTree? point 18446744073709551615 = none := by
  intro m base
  have hm : ClauseMatrix.ofClauses point m.telescope m.clauses = .ok m := rfl
  have hbase : m.caseTree? point 0 = some base := by cbv
  exact ⟨point_declared, hm, hbase, rfl,
    (ClauseMatrix.Fits.ofClauses hm).caseTree?_eq_none point_declared.wellFormed (by simp [m]) rfl⟩

end DepLang.Matching
