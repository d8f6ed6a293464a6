import DepLang.Proofs.Matching.Compilation
import Mathlib.Data.List.Chain
import Mathlib.Logic.Relation

/-!
# The calls of the compiler

`Invokes` is one call that compiling a matrix makes on another, and `Calls` is everything that is
reached by calls. A call looks up what its matrix mentions, and needs a number for its column. So
there is a tree exactly if every call finds what it looks up (`ClauseMatrix.Finds`) and no chain of
calls runs out of numbers (`ClauseMatrix.HasRoom`); this is `isSome_caseTree?_iff`.

* In a matrix that fits, nothing is looked up in vain, so room is all that it takes
  (`ClauseMatrix.Fits.isSome_caseTree?_iff`).
* A call uses up a column, and only a split makes new ones, which uses up a constructor pattern. This
  bounds the length of a chain of calls (`ClauseMatrix.Fits.length_le_of_isChain`), and so there is
  room from all but the last numbers on (`ClauseMatrix.Fits.hasRoom`).
* From the last number on there is none (`ClauseMatrix.Fits.caseTree?_eq_none`).
-/
namespace DepLang.Matching

/-! ## One call -/

/-- Compiling the first matrix makes a call on the second. -/
inductive Invokes (sig : Signature) : ClauseMatrix → ClauseMatrix → Prop where
  | pass {parameter : Parameter} {rest : List Parameter} {clauses : List Clause}
      {data : DataType} : sig.dataType? parameter.ty = some data →
      splitOn data.shape clauses = none →
      Invokes sig ⟨parameter :: rest, clauses⟩ ⟨rest, dropColumn clauses⟩
  | split {parameter : Parameter} {rest : List Parameter} {clauses : List Clause}
      {data : DataType} {ks : List ConId} {k : ConId} {con : Constructor} :
      sig.dataType? parameter.ty = some data → splitOn data.shape clauses = some ks → k ∈ ks →
      sig.constructor? k = some con →
      Invokes sig ⟨parameter :: rest, clauses⟩
        ⟨con.parameters ++ rest, specialize k con.fields.length clauses⟩

/-- Compiling the first matrix leads to a call on the second. -/
def Calls (sig : Signature) : ClauseMatrix → ClauseMatrix → Prop :=
  Relation.ReflTransGen (Invokes sig)

namespace ClauseMatrix

/-- What a call on the matrix looks up is declared: the type of the first column, and the
constructors that it is split on. -/
def Finds (sig : Signature) (m : ClauseMatrix) : Prop :=
  ∀ parameter rest, m.telescope = parameter :: rest →
    ∃ data, sig.dataType? parameter.ty = some data ∧
      ∀ ks, splitOn data.shape m.clauses = some ks → ∀ k ∈ ks, (sig.constructor? k).isSome

/-- No chain of calls, each made by the one before it, runs out of numbers. -/
def HasRoom (sig : Signature) (m : ClauseMatrix) (column : UInt64) : Prop :=
  ∀ chain, (m :: chain).IsChain (Invokes sig) → column.toNat + chain.length < UInt64.size

variable {sig : Signature} {m : ClauseMatrix} {column : UInt64}

/-- There is room if every call gets a number that leaves it room. -/
theorem hasRoom_iff : m.HasRoom sig column ↔
    ∀ m', Invokes sig m m' → ∃ next, nextColumn? column = some next ∧ m'.HasRoom sig next := by
  constructor
  · intro h m' hcall
    have hlt : column.toNat + 1 < UInt64.size := h [m'] (.cons_cons hcall (.singleton m'))
    refine ⟨column + 1, by rw [nextColumn?, if_pos hlt], fun chain hchain => ?_⟩
    have hnext : (column + 1).toNat = column.toNat + 1 :=
      nextColumn?_eq_some.1 (by rw [nextColumn?, if_pos hlt])
    have hroom := h (m' :: chain) (.cons_cons hcall hchain)
    rw [List.length_cons] at hroom
    omega
  · intro h chain hchain
    cases chain with
    | nil => exact column.toNat_lt
    | cons m' chain =>
      obtain ⟨hcall, hrest⟩ := List.isChain_cons_cons.1 hchain
      obtain ⟨next, hnext, hroom⟩ := h m' hcall
      have hlt := hroom chain hrest
      rw [nextColumn?_eq_some.1 hnext] at hlt
      rw [List.length_cons]
      omega

theorem HasRoom.mono {earlier : UInt64} (h : m.HasRoom sig column)
    (hle : earlier.toNat ≤ column.toNat) : m.HasRoom sig earlier := by
  intro chain hchain
  have hlt := h chain hchain
  omega

end ClauseMatrix

section Inversion

variable {sig : Signature} {parameter : Parameter} {rest : List Parameter} {clauses : List Clause}
  {data : DataType} {m : ClauseMatrix}

theorem invokes_pass_iff (hd : sig.dataType? parameter.ty = some data)
    (hs : splitOn data.shape clauses = none) :
    Invokes sig ⟨parameter :: rest, clauses⟩ m ↔ m = ⟨rest, dropColumn clauses⟩ := by
  constructor
  · intro h
    cases h with
    | pass _ _ => rfl
    | split hd' hs' _ _ =>
      obtain rfl := Option.some.inj (hd.symm.trans hd')
      rw [hs] at hs'
      cases hs'
  · rintro rfl
    exact .pass hd hs

theorem invokes_split_iff {ks : List ConId} (hd : sig.dataType? parameter.ty = some data)
    (hs : splitOn data.shape clauses = some ks) :
    Invokes sig ⟨parameter :: rest, clauses⟩ m ↔
      ∃ k con, k ∈ ks ∧ sig.constructor? k = some con ∧
        m = ⟨con.parameters ++ rest, specialize k con.fields.length clauses⟩ := by
  constructor
  · intro h
    cases h with
    | pass hd' hs' =>
      obtain rfl := Option.some.inj (hd.symm.trans hd')
      rw [hs] at hs'
      cases hs'
    | split hd' hs' hk hcon =>
      obtain rfl := Option.some.inj (hd.symm.trans hd')
      obtain rfl := Option.some.inj (hs.symm.trans hs')
      exact ⟨_, _, hk, hcon, rfl⟩
  · rintro ⟨k, con, hk, hcon, rfl⟩
    exact .split hd hs hk hcon

theorem finds_cons_iff (hd : sig.dataType? parameter.ty = some data) :
    ClauseMatrix.Finds sig ⟨parameter :: rest, clauses⟩ ↔
      ∀ ks, splitOn data.shape clauses = some ks → ∀ k ∈ ks, (sig.constructor? k).isSome := by
  constructor
  · intro h
    obtain ⟨data', hd', hks⟩ := h parameter rest rfl
    obtain rfl := Option.some.inj (hd.symm.trans hd')
    exact hks
  · rintro h _ _ ⟨⟩
    exact ⟨data, hd, h⟩

end Inversion

/-! ## When there is a tree -/

section Returns

variable {sig : Signature} {m : ClauseMatrix} {column : UInt64}

/-- **A call.** It returns a tree if it finds what it looks up, and if there are numbers for the
calls that it makes and these return trees. -/
theorem isSome_caseTree?_iff_invokes : (m.caseTree? sig column).isSome ↔
    m.Finds sig ∧ ∀ m', Invokes sig m m' →
      ∃ next, nextColumn? column = some next ∧ (m'.caseTree? sig next).isSome := by
  obtain ⟨telescope, clauses⟩ := m
  cases telescope with
  | nil =>
    have htree : (compile sig column [] clauses).isSome := by
      rw [compile]
      rfl
    refine ⟨fun _ => ⟨fun _ _ he => ?_, fun _ hcall => ?_⟩, fun _ => htree⟩
    · cases he
    · cases hcall
  | cons parameter rest =>
    cases hd : sig.dataType? parameter.ty with
    | none =>
      have hnone : compile sig column (parameter :: rest) clauses = none := by simp [compile, hd]
      refine ⟨fun h => ?_, fun h => ?_⟩
      · rw [ClauseMatrix.caseTree?, hnone] at h
        cases h
      · obtain ⟨data, hdata, -⟩ := h.1 parameter rest rfl
        rw [hd] at hdata
        cases hdata
    | some data =>
      rw [finds_cons_iff hd]
      cases hs : splitOn data.shape clauses with
      | none =>
        simp only [ClauseMatrix.caseTree?, Option.isSome_iff_exists, compile_pass hd hs,
          invokes_pass_iff hd hs, forall_eq]
        constructor
        · rintro ⟨tree, next, hnext, htree⟩
          refine ⟨fun ks he => ?_, next, hnext, tree, htree⟩
          cases he
        · rintro ⟨-, next, hnext, tree, htree⟩
          exact ⟨tree, next, hnext, htree⟩
      | some ks =>
        rw [ClauseMatrix.caseTree?, isSome_compile_split hd hs]
        simp only [Option.isSome_iff_exists, branch_eq_some, invokes_split_iff hd hs]
        constructor
        · intro h
          refine ⟨?_, ?_⟩
          · rintro _ ⟨⟩ k hk
            obtain ⟨_, con, -, hcon, -⟩ := h k hk
            exact ⟨con, hcon⟩
          · rintro _ ⟨k, con, hk, hcon, rfl⟩
            obtain ⟨tree, con', next, hcon', hnext, htree⟩ := h k hk
            obtain rfl := Option.some.inj (hcon.symm.trans hcon')
            exact ⟨next, hnext, tree, htree⟩
        · rintro ⟨hfinds, hcalls⟩ k hk
          obtain ⟨con, hcon⟩ := hfinds ks rfl k hk
          obtain ⟨next, hnext, tree, htree⟩ := hcalls _ ⟨k, con, hk, hcon, rfl⟩
          exact ⟨tree, con, next, hcon, hnext, htree⟩

/-- What holds of everything that is called holds of the matrix itself and of everything that is
called from a call. -/
theorem forall_calls_iff {p : ClauseMatrix → Prop} : (∀ m', Calls sig m m' → p m') ↔
    p m ∧ ∀ m₁, Invokes sig m m₁ → ∀ m', Calls sig m₁ m' → p m' := by
  constructor
  · intro h
    exact ⟨h m .refl, fun m₁ hcall m' hm' => h m' (.head hcall hm')⟩
  · rintro ⟨hself, hcalls⟩ m' hm'
    rcases hm'.cases_head with rfl | ⟨m₁, hcall, hrest⟩
    · exact hself
    · exact hcalls m₁ hcall m' hrest

/-- If calls return trees exactly when they find everything and have room, so does the one that
makes them. -/
theorem isSome_caseTree?_iff_of_invokes
    (ih : ∀ m' next, Invokes sig m m' → ((m'.caseTree? sig next).isSome ↔
      (∀ m'', Calls sig m' m'' → m''.Finds sig) ∧ m'.HasRoom sig next)) :
    (m.caseTree? sig column).isSome ↔
      (∀ m', Calls sig m m' → m'.Finds sig) ∧ m.HasRoom sig column := by
  rw [isSome_caseTree?_iff_invokes, forall_calls_iff, ClauseMatrix.hasRoom_iff, and_assoc]
  refine and_congr_right fun _ => ?_
  constructor
  · intro h
    refine ⟨fun m' hcall => ?_, fun m' hcall => ?_⟩
    · obtain ⟨next, -, htree⟩ := h m' hcall
      exact ((ih m' next hcall).1 htree).1
    · obtain ⟨next, hnext, htree⟩ := h m' hcall
      exact ⟨next, hnext, ((ih m' next hcall).1 htree).2⟩
  · rintro ⟨hfinds, hroom⟩ m' hcall
    obtain ⟨next, hnext, hm'⟩ := hroom m' hcall
    exact ⟨next, hnext, (ih m' next hcall).2 ⟨hfinds m' hcall, hm'⟩⟩

/-- **When there is a tree**: if every call finds what it looks up, and there is room. -/
theorem isSome_caseTree?_iff : (m.caseTree? sig column).isSome ↔
    (∀ m', Calls sig m m' → m'.Finds sig) ∧ m.HasRoom sig column := by
  obtain ⟨telescope, clauses⟩ := m
  induction column, telescope, clauses using compile.induct with
  | case1 column clauses =>
    refine isSome_caseTree?_iff_of_invokes fun m' next hcall => ?_
    cases hcall
  | case2 column clauses parameter rest ihpass ihsplit =>
    refine isSome_caseTree?_iff_of_invokes fun m' next hcall => ?_
    cases hcall with
    | pass _ _ => exact ihpass next
    | split _ hs _ _ => exact ihsplit _ _ hs _ _ next

end Returns

namespace ClauseMatrix.Fits

variable {sig : Signature} {m m' : ClauseMatrix} {column : UInt64}

theorem invokes (hsig : sig.WellFormed) (h : m.Fits sig) (hcall : Invokes sig m m') :
    m'.Fits sig := by
  cases hcall with
  | pass _ _ => exact h.pass
  | split _ _ _ hcon => exact h.split hsig hcon

theorem calls (hsig : sig.WellFormed) (h : m.Fits sig) (hm : Calls sig m m') : m'.Fits sig := by
  induction hm with
  | refl => exact h
  | tail _ hcall ih => exact ih.invokes hsig hcall

theorem finds (hsig : sig.WellFormed) (h : m.Fits sig) : m.Finds sig := by
  intro parameter rest he
  obtain ⟨data, hd⟩ := Option.isSome_iff_exists.1 (h.types parameter (by simp [he]))
  refine ⟨data, hd, fun ks hks k hk => ?_⟩
  obtain ⟨con, hcon, -⟩ := hsig.declared _ ks (hasConstructors_of_splitOn hd hks) k hk
  rw [hcon]
  rfl

/-- A matrix that fits has a tree exactly from those columns on that leave it room. -/
theorem isSome_caseTree?_iff (hsig : sig.WellFormed) (h : m.Fits sig) :
    (m.caseTree? sig column).isSome ↔ m.HasRoom sig column := by
  rw [Matching.isSome_caseTree?_iff]
  exact and_iff_right fun m' hm' => (h.calls hsig hm').finds hsig

theorem exists_caseTree? (hsig : sig.WellFormed) (h : m.Fits sig) (hroom : m.HasRoom sig column) :
    ∃ tree, m.caseTree? sig column = some tree :=
  Option.isSome_iff_exists.1 ((h.isSome_caseTree?_iff hsig).2 hroom)

theorem exists_invokes (hsig : sig.WellFormed) (h : m.Fits sig) (hcolumn : m.telescope ≠ []) :
    ∃ m', Invokes sig m m' := by
  obtain ⟨telescope, clauses⟩ := m
  cases telescope with
  | nil => exact absurd rfl hcolumn
  | cons parameter rest =>
    obtain ⟨data, hd⟩ := h.exists_dataType?
    cases hs : splitOn data.shape clauses with
    | none => exact ⟨_, .pass hd hs⟩
    | some ks =>
      obtain ⟨k, hk⟩ := List.exists_mem_of_ne_nil ks (h.ne_nil_of_splitOn hsig hd hs)
      obtain ⟨con, hcon, -⟩ := hsig.declared _ ks (hasConstructors_of_splitOn hd hs) k hk
      exact ⟨_, .split hd hs hk hcon⟩

/-- From the last number on there is no tree, since the first column already takes up two. -/
theorem caseTree?_eq_none (hsig : sig.WellFormed) (h : m.Fits sig) (hcolumn : m.telescope ≠ [])
    (hlast : column.toNat + 1 = UInt64.size) : m.caseTree? sig column = none := by
  obtain ⟨m', hcall⟩ := h.exists_invokes hsig hcolumn
  rw [← Option.not_isSome_iff_eq_none, h.isSome_caseTree?_iff hsig]
  intro hroom
  have hlt : column.toNat + 1 < UInt64.size := hroom [m'] (.cons_cons hcall (.singleton m'))
  exact absurd hlast (Nat.ne_of_lt hlt)

end ClauseMatrix.Fits

/-! ## A split uses up a constructor pattern -/

/-- The number of constructors in all patterns of all clauses, at any depth. -/
def totalSize (clauses : List Clause) : Nat := Pattern.sizeAll (clauses.flatMap Clause.patterns)

theorem totalSize_cons (c : Clause) (clauses : List Clause) :
    totalSize (c :: clauses) = Pattern.sizeAll c.patterns + totalSize clauses := by
  rw [totalSize, List.flatMap_cons, Pattern.sizeAll_append, totalSize]

theorem totalSize_dropColumn_le (clauses : List Clause) :
    totalSize (dropColumn clauses) ≤ totalSize clauses := by
  induction clauses with
  | nil => exact Nat.le_refl _
  | cons c cs ih =>
    have hc : Pattern.sizeAll c.dropColumn.patterns ≤ Pattern.sizeAll c.patterns :=
      Nat.le_of_succ_le_succ c.weight_dropColumn_le
    rw [dropColumn, List.map_cons, totalSize_cons, totalSize_cons]
    exact Nat.add_le_add hc ih

theorem Clause.sizeAll_pos_of_specialize {k : ConId} {arity : Nat} {c : Clause}
    (hne : c.patterns ≠ []) (h : c.specialize k arity = none) :
    0 < Pattern.sizeAll c.patterns := by
  obtain ⟨id, patterns⟩ := c
  cases patterns with
  | nil => exact absurd rfl hne
  | cons p ps =>
    cases p with
    | bind name => cases h
    | con l fields =>
      simp only [Pattern.sizeAll, Pattern.size]
      omega

/-- In each branch, every clause that asked for a constructor is gone or asks for one less. -/
theorem totalSize_specialize_add_countP_le (k : ConId) (arity : Nat) {clauses : List Clause}
    (hne : ∀ c ∈ clauses, c.patterns ≠ []) :
    totalSize (specialize k arity clauses) + clauses.countP (fun c => !c.startsOpen) ≤
      totalSize clauses := by
  unfold specialize
  induction clauses with
  | nil => exact Nat.le_refl _
  | cons c cs ih =>
    obtain ⟨hc, hcs⟩ := List.forall_mem_cons.1 hne
    have ih := ih hcs
    rw [List.countP_cons, totalSize_cons]
    cases hd : c.specialize k arity with
    | none =>
      have hpos := Clause.sizeAll_pos_of_specialize hc hd
      rw [List.filterMap_cons_none hd]
      split <;> omega
    | some d =>
      rw [List.filterMap_cons_some hd, totalSize_cons]
      cases ho : c.startsOpen with
      | true =>
        have hle := Clause.weight_specialize_le hd
        simp only [Clause.weight] at hle
        simp only [Bool.not_true, Bool.false_eq_true, if_false]
        omega
      | false =>
        have hlt := Clause.weight_specialize_lt hd ho
        simp only [Clause.weight] at hlt
        simp only [Bool.not_false, if_true]
        omega

/-- **A split uses up a constructor pattern**, also in a branch that keeps binders only. -/
theorem totalSize_specialize_lt (k : ConId) (arity : Nat) {clauses : List Clause}
    (hne : ∀ c ∈ clauses, c.patterns ≠ []) (h : clauses.all Clause.startsOpen = false) :
    totalSize (specialize k arity clauses) < totalSize clauses := by
  have hle := totalSize_specialize_add_countP_le k arity hne
  have hpos : 0 < clauses.countP (fun c => !c.startsOpen) := by
    simpa [List.countP_pos_iff] using h
  omega

/-! ## Calls that wait for each other -/

theorem Signature.length_fields_le {sig : Signature} {arity : Nat}
    (h : ∀ con ∈ sig.constructors, con.fields.length ≤ arity) (k : ConId) (con : Constructor)
    (hk : sig.constructor? k = some con) : con.fields.length ≤ arity :=
  h con (Array.mem_of_getElem? hk)

namespace ClauseMatrix

/-- The columns that are there, and as many as all splits to come can make if each makes `arity`. -/
def budget (arity : Nat) (m : ClauseMatrix) : Nat :=
  m.telescope.length + totalSize m.clauses * arity

namespace Fits

variable {sig : Signature} {m m' : ClauseMatrix} {arity : Nat}

/-- **A call.** It uses up a column, and the columns that a split makes have been counted. -/
theorem budget_lt (h : m.Fits sig)
    (harity : ∀ k con, sig.constructor? k = some con → con.fields.length ≤ arity)
    (hcall : Invokes sig m m') : m'.budget arity < m.budget arity := by
  cases hcall with
  | @pass parameter rest clauses data _ _ =>
    have hle := Nat.mul_le_mul_right arity (totalSize_dropColumn_le clauses)
    simp only [budget, List.length_cons]
    omega
  | @split parameter rest clauses data ks k con _ hs _ hcon =>
    have hlt := totalSize_specialize_lt k con.fields.length h.patterns_ne_nil
      (all_startsOpen_of_splitOn hs)
    have hmul := Nat.mul_le_mul_right arity (Nat.succ_le_of_lt hlt)
    have hfields := harity k con hcon
    simp only [budget, List.length_append, List.length_cons, Constructor.parameters,
      List.length_map, List.length_zipIdx]
    rw [Nat.succ_mul] at hmul
    omega

/-- **A chain of calls**, each made by the one before it. -/
theorem length_le_of_isChain (hsig : sig.WellFormed) (h : m.Fits sig)
    (harity : ∀ k con, sig.constructor? k = some con → con.fields.length ≤ arity)
    {chain : List ClauseMatrix} (hchain : (m :: chain).IsChain (Invokes sig)) :
    chain.length ≤ m.budget arity := by
  induction chain generalizing m with
  | nil => exact Nat.zero_le _
  | cons next chain ih =>
    obtain ⟨hcall, hrest⟩ := List.isChain_cons_cons.1 hchain
    have hlt := h.budget_lt harity hcall
    have hle := ih (h.invokes hsig hcall) hrest
    rw [List.length_cons]
    omega

/-- There is room from every column on behind which there are as many numbers as a chain of calls can
take up. -/
theorem hasRoom (hsig : sig.WellFormed) (h : m.Fits sig)
    (harity : ∀ k con, sig.constructor? k = some con → con.fields.length ≤ arity) {column : UInt64}
    (hcolumn : column.toNat + m.budget arity < UInt64.size) : m.HasRoom sig column := by
  intro chain hchain
  have hle := h.length_le_of_isChain hsig harity hchain
  omega

end Fits

end ClauseMatrix

end DepLang.Matching
