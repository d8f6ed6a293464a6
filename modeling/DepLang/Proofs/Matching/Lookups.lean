import DepLang.Matching.Error
import DepLang.Matching.Printer
import DepLang.Proofs.Matching.Coverage
import DepLang.Proofs.Matching.Listing

/-!
# Every lookup finds something

Types and constructors are looked up by their numbers, far from where the numbers were checked: in
the columns of a matrix, in the fields of fields, in the branches of a tree, and in errors. Once a
signature has accepted a matrix, none of these lookups fails, also not after further declarations.

* `Signature.Extends`: what declarations never take back (`Signature.extends_declareAll`).
* `ClauseMatrix.Fits.extend`: a matrix that fits goes on to do so. So do the matrices of all calls
  that the compiler makes (`ClauseMatrix.Fits.calls`), and that is why these find what they look up.
* `isSome_printAt?_of_compile`: a tree can be printed.
* `MatchingError.isSome_message?_of_ofClauses`: so can the errors of a matrix that is not accepted.
-/
namespace DepLang.Matching

/-! ## What is declared stays declared -/

namespace Signature

/-- Types stay declared, and constructors stay what they are. -/
structure Extends (sig sig' : Signature) : Prop where
  types : ∀ ty, (sig.dataType? ty).isSome → (sig'.dataType? ty).isSome
  constructors : ∀ k con, sig.constructor? k = some con → sig'.constructor? k = some con

namespace Extends

variable {sig sig' sig'' : Signature}

theorem refl (sig : Signature) : sig.Extends sig := ⟨fun _ => id, fun _ _ => id⟩

theorem trans (h : sig.Extends sig') (h' : sig'.Extends sig'') : sig.Extends sig'' :=
  ⟨fun ty hty => h'.types ty (h.types ty hty),
    fun k con hk => h'.constructors k con (h.constructors k con hk)⟩

end Extends

theorem extends_addData (sig : Signature) (new : DataType) : sig.Extends (sig.addData new).2 where
  types ty hty := by
    rw [isSome_dataType?_iff] at hty ⊢
    rw [addData, Array.size_push]
    exact Nat.lt_succ_of_lt hty
  constructors _ _ hk := hk

theorem extends_addConstructor {sig sig' : Signature} {data : DataId} {name : String}
    {fields : List DataId} {k : ConId} (h : sig.addConstructor data name fields = .ok (k, sig')) :
    sig.Extends sig' := by
  obtain ⟨ty, ks, -, -, -, -, rfl⟩ := addConstructor_eq_ok h
  refine ⟨fun ty hty => ?_, fun l con hl => ?_⟩
  · rw [isSome_dataType?_iff] at hty ⊢
    rwa [Array.size_setIfInBounds]
  · obtain ⟨hlt, -⟩ := Array.getElem?_eq_some_iff.1 hl
    have hold : l ≠ ⟨sig.constructors.size⟩ := by
      rintro rfl
      exact Nat.lt_irrefl _ hlt
    rw [constructor?_push, if_neg hold, hl]

theorem extends_declareAll (sig : Signature) (declarations : List Declaration) :
    sig.Extends (sig.declareAll declarations) := by
  induction declarations generalizing sig with
  | nil => exact .refl sig
  | cons declaration declarations ih =>
    refine Extends.trans ?_ (ih (sig.declare declaration))
    rcases sig.declare_cases declaration with ⟨name, he⟩ | ⟨name, he⟩ | ⟨_, _, _, _, he⟩ | he
    · exact he ▸ sig.extends_addData _
    · exact he ▸ sig.extends_addData _
    · exact extends_addConstructor he
    · exact he.symm ▸ .refl sig

end Signature

namespace Pattern

mutual

theorem HasType.extend {sig sig' : Signature} (h : sig.Extends sig') {ty : DataId} :
    ∀ {p : Pattern}, HasType sig ty p → HasType sig' ty p
  | bind _, _ => by simp [HasType]
  | con k fields, hp => by
    rw [HasType] at hp ⊢
    obtain ⟨declared, hk, hd, hf⟩ := hp
    exact ⟨declared, h.constructors k declared hk, hd, HaveTypes.extend h hf⟩

theorem HaveTypes.extend {sig sig' : Signature} (h : sig.Extends sig') :
    ∀ {tys : List DataId} {ps : List Pattern}, HaveTypes sig tys ps → HaveTypes sig' tys ps
  | [], [], _ => by simp [HaveTypes]
  | ty :: tys, p :: ps, hps => by
    rw [HaveTypes] at hps ⊢
    exact ⟨HasType.extend h hps.1, HaveTypes.extend h hps.2⟩
  | [], _ :: _, hps => by simp [HaveTypes] at hps
  | _ :: _, [], hps => by simp [HaveTypes] at hps

end

end Pattern

theorem ClauseMatrix.Fits.extend {sig sig' : Signature} {m : ClauseMatrix} (h : m.Fits sig)
    (hsig : sig.Extends sig') : m.Fits sig' :=
  ⟨fun p hp => hsig.types p.ty (h.types p hp), fun c hc => (h.clauses c hc).extend hsig⟩

/-! ## Trees -/

namespace CaseTree

theorem isSome_printBranches? {sig : Signature} {indent : Nat} {branches : List (ConId × CaseTree)}
    (h : ∀ k tree, (k, tree) ∈ branches →
      (sig.constructor? k).isSome ∧ (printAt? sig (indent + 2) tree).isSome) :
    (printBranches? sig indent branches).isSome := by
  induction branches with
  | nil => simp [printBranches?]
  | cons branch rest ih =>
    obtain ⟨k, tree⟩ := branch
    obtain ⟨hk, ht⟩ := h k tree List.mem_cons_self
    obtain ⟨con, hcon⟩ := Option.isSome_iff_exists.1 hk
    obtain ⟨text, htext⟩ := Option.isSome_iff_exists.1 ht
    obtain ⟨texts, htexts⟩ := Option.isSome_iff_exists.1
      (ih fun l t hl => h l t (List.mem_cons_of_mem _ hl))
    simp [printBranches?, hcon, htext, htexts]

end CaseTree

section Trees

variable {sig : Signature} {column : UInt64} {telescope : List Parameter} {clauses : List Clause}
  {tree : CaseTree}

/-- A tree can be printed, with the signature that it was compiled for or a later one. -/
theorem isSome_printAt?_of_compile (hsig : sig.WellFormed) {later : Signature}
    (hlater : sig.Extends later) (hfits : ClauseMatrix.Fits sig ⟨telescope, clauses⟩)
    (h : compile sig column telescope clauses = some tree) :
    ∀ indent, (tree.printAt? later indent).isSome := by
  refine compile_induction hsig (motive := fun _ _ _ tree =>
    ∀ indent, (tree.printAt? later indent).isSome) ?_ ?_ ?_ hfits h
  · intro column clauses _ indent
    cases clauses <;> simp [CaseTree.printAt?]
  · intro column next parameter rest clauses data tree _ _ _ _ _ ih
    exact ih
  · intro column parameter rest clauses data branches _ _ _ ih indent
    have hbranches : (CaseTree.printBranches? later indent branches).isSome := by
      refine CaseTree.isSome_printBranches? fun k tree hm => ?_
      obtain ⟨con, _, hcon, -, -, ihk⟩ := ih k tree hm
      refine ⟨?_, ihk (indent + 2)⟩
      rw [hlater.constructors k con hcon]
      rfl
    obtain ⟨text, htext⟩ := Option.isSome_iff_exists.1 hbranches
    simp [CaseTree.printAt?, htext]

theorem isSome_constructor?_of_mem_leaves (hsig : sig.WellFormed)
    (hfits : ClauseMatrix.Fits sig ⟨telescope, clauses⟩)
    (h : compile sig column telescope clauses = some tree) :
    ∀ path ids, (path, ids) ∈ tree.leaves → ∀ k ∈ path, (sig.constructor? k).isSome := by
  refine compile_induction hsig (motive := fun _ _ _ tree =>
    ∀ path ids, (path, ids) ∈ tree.leaves → ∀ k ∈ path, (sig.constructor? k).isSome)
    ?_ ?_ ?_ hfits h
  · intro column clauses _ path ids hm k hk
    simp only [CaseTree.leaves, List.mem_singleton, Prod.mk.injEq] at hm
    rw [hm.1] at hk
    cases hk
  · intro column next parameter rest clauses data tree _ _ _ _ _ ih
    exact ih
  · intro column parameter rest clauses data branches _ _ _ ih path ids hm k hk
    rw [CaseTree.leaves, CaseTree.mem_leavesOfBranches] at hm
    obtain ⟨l, t, p, hl, rfl, hp⟩ := hm
    obtain ⟨con, _, hcon, -, -, ihl⟩ := ih l t hl
    rcases List.mem_cons.1 hk with rfl | hk
    · rw [hcon]
      rfl
    · exact ihl p ids hp k hk

end Trees

/-! ## Errors -/

namespace MatchingError

variable {sig : Signature} {e : MatchingError}

theorem isSome_message?_of_dataType {id : DataId} (h : sig.dataType id = .error e) :
    (e.message? sig).isSome := by
  unfold Signature.dataType at h
  split at h
  · cases h
  · cases h
    rfl

theorem isSome_message?_of_constructor {id : ConId} (h : sig.constructor id = .error e) :
    (e.message? sig).isSome := by
  unfold Signature.constructor at h
  split at h
  · cases h
  · cases h
    rfl

theorem isSome_message?_of_requireData {ids : List DataId} (h : sig.requireData ids = .error e) :
    (e.message? sig).isSome := by
  induction ids with
  | nil => cases h
  | cons id ids ih =>
    rw [Signature.requireData, except_bind_eq_error] at h
    rcases h with h | ⟨_, _, h⟩
    · exact isSome_message?_of_dataType h
    · exact ih h

theorem isSome_message?_of_addConstructor {data : DataId} {name : String} {fields : List DataId}
    (h : sig.addConstructor data name fields = .error e) : (e.message? sig).isSome := by
  rcases Signature.addConstructor_eq_error h with h | ⟨_, _, h⟩ | ⟨ty, hty, _, _, rfl⟩
  · exact isSome_message?_of_dataType h
  · exact isSome_message?_of_requireData h
  · simp [message?, Signature.dataType_eq_ok.1 hty]

theorem isSome_message?_patternArity {k : ConId} {con : Constructor}
    (hk : sig.constructor? k = some con) (expected found : Nat) :
    ((patternArity k expected found).message? sig).isSome := by
  simp [message?, hk]

theorem isSome_message?_of_ofConstructor {k : ConId} {fields : List Pattern}
    (h : Pattern.ofConstructor sig k fields = .error e) : (e.message? sig).isSome := by
  rw [Pattern.ofConstructor, except_bind_eq_error] at h
  rcases h with h | ⟨con, hk, h⟩
  · exact isSome_message?_of_constructor h
  · split at h
    · cases h
    · cases h
      exact isSome_message?_patternArity (Signature.constructor_eq_ok.1 hk) _ _

theorem isSome_message?_foreignConstructor (hsig : sig.WellFormed) {k : ConId} {con : Constructor}
    (hk : sig.constructor? k = some con) {ty : DataId} (hty : (sig.dataType? ty).isSome) :
    ((foreignConstructor k ty).message? sig).isSome := by
  obtain ⟨data, hdata⟩ := Option.isSome_iff_exists.1 (hsig.isSome_data hk)
  obtain ⟨expected, hexpected⟩ := Option.isSome_iff_exists.1 hty
  simp [message?, hk, hdata, hexpected]

mutual

theorem isSome_message?_of_check (hsig : sig.WellFormed) {ty : DataId}
    (hty : (sig.dataType? ty).isSome) :
    ∀ {p : Pattern}, Pattern.check sig ty p = .error e → (e.message? sig).isSome
  | .bind _, h => by simp [Pattern.check] at h
  | .con k fields, h => by
    rw [Pattern.check, except_bind_eq_error] at h
    rcases h with h | ⟨con, hk, h⟩
    · exact isSome_message?_of_constructor h
    · rw [Signature.constructor_eq_ok] at hk
      split at h
      · cases h
        exact isSome_message?_foreignConstructor hsig hk hty
      · split at h
        · cases h
          exact isSome_message?_patternArity hk _ _
        · exact isSome_message?_of_checkAll hsig (hsig.fields k con hk) h

/-- Patterns are checked against declared types only: those of the columns, and those of fields. -/
theorem isSome_message?_of_checkAll (hsig : sig.WellFormed) :
    ∀ {tys : List DataId} {ps : List Pattern}, (∀ ty ∈ tys, (sig.dataType? ty).isSome) →
      Pattern.checkAll sig tys ps = .error e → (e.message? sig).isSome
  | ty :: tys, p :: ps, htys, h => by
    rw [List.forall_mem_cons] at htys
    rw [Pattern.checkAll, except_bind_eq_error] at h
    rcases h with h | ⟨_, _, h⟩
    · exact isSome_message?_of_check hsig htys.1 h
    · exact isSome_message?_of_checkAll hsig htys.2 h
  | [], _, _, h => by simp [Pattern.checkAll] at h
  | _ :: _, [], _, h => by simp [Pattern.checkAll] at h

end

theorem isSome_message?_of_forM_check (hsig : sig.WellFormed) {telescope : List Parameter}
    (ht : ∀ parameter ∈ telescope, (sig.dataType? parameter.ty).isSome) {clauses : List Clause}
    (h : clauses.forM (Clause.check sig telescope) = .error e) : (e.message? sig).isSome := by
  induction clauses with
  | nil => cases h
  | cons c cs ih =>
    rcases except_bind_eq_error.1 h with h | ⟨_, _, h⟩
    · unfold Clause.check at h
      split at h
      · exact isSome_message?_of_checkAll hsig (List.forall_mem_map.2 ht) h
      · cases h
        rfl
    · exact ih h

theorem isSome_message?_of_ofClauses (hsig : sig.WellFormed) {telescope : List Parameter}
    {clauses : List Clause} (h : ClauseMatrix.ofClauses sig telescope clauses = .error e) :
    (e.message? sig).isSome := by
  unfold ClauseMatrix.ofClauses at h
  split at h
  · cases h
    rfl
  · rcases except_bind_eq_error.1 h with h | ⟨_, ht, h⟩
    · exact isSome_message?_of_requireData h
    · rcases except_bind_eq_error.1 h with h | ⟨_, _, h⟩
      · exact isSome_message?_of_forM_check hsig
          (List.forall_mem_map.1 (Signature.requireData_eq_ok.1 ht)) h
      · cases h

end MatchingError

/-- **Every lookup finds something.** Let a signature accept a matrix, and let more be declared
after that. Then every call that the compiler makes is given clauses with one pattern for each
column, and finds the types and constructors that it looks up. So there is a tree from every column on
that leaves room for it; the paths that it leaves uncovered are made of declared constructors, and it
can be printed, also after still further declarations. An error of a declaration, a pattern or a
matrix can be printed with the signature that it arose in. -/
theorem matching_lookups_found {sig : Signature} (hsig : sig.Declared) :
    (∀ telescope clauses m, ClauseMatrix.ofClauses sig telescope clauses = .ok m →
      ∀ later,
        (∀ m', Calls (sig.declareAll later) m m' → m'.Finds (sig.declareAll later) ∧
          ∀ c ∈ m'.clauses, c.patterns.length = m'.telescope.length) ∧
        ∀ column, m.HasRoom (sig.declareAll later) column →
          ∃ tree, m.caseTree? (sig.declareAll later) column = some tree ∧
          (∀ path ∈ (tree.coverage m).uncovered, ∀ k ∈ path,
            ((sig.declareAll later).constructor? k).isSome) ∧
          ∀ further, (tree.print? ((sig.declareAll later).declareAll further)).isSome) ∧
    (∀ data name fields e, sig.addConstructor data name fields = .error e →
      (e.message? sig).isSome) ∧
    (∀ k fields e, Pattern.ofConstructor sig k fields = .error e → (e.message? sig).isSome) ∧
    ∀ telescope clauses e, ClauseMatrix.ofClauses sig telescope clauses = .error e →
      (e.message? sig).isSome := by
  refine ⟨fun telescope clauses m hm later => ?_,
    fun _ _ _ _ => MatchingError.isSome_message?_of_addConstructor,
    fun _ _ _ => MatchingError.isSome_message?_of_ofConstructor,
    fun _ _ _ => MatchingError.isSome_message?_of_ofClauses hsig.wellFormed⟩
  have hlater := (hsig.declareAll later).wellFormed
  have hfits := (ClauseMatrix.Fits.ofClauses hm).extend (sig.extends_declareAll later)
  generalize sig.declareAll later = sig' at hlater hfits
  refine ⟨fun m' hm' => ?_, fun column hroom => ?_⟩
  · have hfits' := hfits.calls hlater hm'
    exact ⟨hfits'.finds hlater, fun c => hfits'.length_patterns⟩
  · obtain ⟨tree, ht⟩ := hfits.exists_caseTree? hlater hroom
    refine ⟨tree, ht, fun path hpath k hk => ?_, fun further => ?_⟩
    · obtain ⟨ids, hids, -⟩ := CaseTree.mem_uncovered.1 hpath
      exact isSome_constructor?_of_mem_leaves hlater hfits ht path ids hids k hk
    · exact isSome_printAt?_of_compile hlater (sig'.extends_declareAll further) hfits ht 0

/-- A matrix with a nested pattern is compiled after its type got one more constructor, and printed
after one more type was declared. Then three faults, one for each thing that can be refused. -/
theorem matching_lookups_found_peano :
    let telescope : List Parameter := [⟨"n", ⟨0⟩⟩, ⟨"t", ⟨1⟩⟩]
    let clauses : List Clause :=
      [⟨0, [.con ⟨1⟩ [.con ⟨1⟩ [.bind "k"]], .bind "t"]⟩, ⟨1, [.con ⟨0⟩ [], .bind "t"]⟩]
    let later := peano.declareAll [.constructor ⟨0⟩ "mark" [⟨1⟩, ⟨0⟩]]
    let m : ClauseMatrix := ⟨telescope, clauses⟩
    peano.Declared ∧ ClauseMatrix.ofClauses peano telescope clauses = .ok m ∧ m.HasRoom later 0 ∧
      (∃ tree, m.caseTree? later 0 = some tree ∧
        (tree.print? (later.declareAll [.destructible "List"])).isSome) ∧
      (peano.addConstructor ⟨1⟩ "tag" [] = .error (.indestructibleData ⟨1⟩ "tag") ∧
        ((MatchingError.indestructibleData ⟨1⟩ "tag").message? peano).isSome) ∧
      (Pattern.ofConstructor peano ⟨1⟩ [] = .error (.patternArity ⟨1⟩ 1 0) ∧
        ((MatchingError.patternArity ⟨1⟩ 1 0).message? peano).isSome) ∧
      ClauseMatrix.ofClauses peano [⟨"t", ⟨1⟩⟩] [⟨0, [.con ⟨0⟩ []]⟩] =
        .error (.foreignConstructor ⟨0⟩ ⟨1⟩) ∧
      ((MatchingError.foreignConstructor ⟨0⟩ ⟨1⟩).message? peano).isSome := by
  intro telescope clauses later m
  have hm : ClauseMatrix.ofClauses peano telescope clauses = .ok m := rfl
  have hroom : m.HasRoom later 0 :=
    ((ClauseMatrix.Fits.ofClauses hm).extend (peano.extends_declareAll _)).hasRoom
      (peano_declared.declareAll _).wellFormed (@Signature.length_fields_le later 2 (by decide))
      (by decide)
  obtain ⟨hmatrix, hdeclaration, hpattern, hclauses⟩ := matching_lookups_found peano_declared
  obtain ⟨-, htrees⟩ := hmatrix telescope clauses m hm [.constructor ⟨0⟩ "mark" [⟨1⟩, ⟨0⟩]]
  obtain ⟨tree, ht, -, hprint⟩ := htrees 0 hroom
  have hforeign : ClauseMatrix.ofClauses peano [⟨"t", ⟨1⟩⟩] [⟨0, [.con ⟨0⟩ []]⟩] =
      .error (.foreignConstructor ⟨0⟩ ⟨1⟩) := rfl
  have harity : Pattern.ofConstructor peano ⟨1⟩ [] = .error (.patternArity ⟨1⟩ 1 0) := rfl
  have htag : peano.addConstructor ⟨1⟩ "tag" [] = .error (.indestructibleData ⟨1⟩ "tag") := rfl
  exact ⟨peano_declared, hm, hroom, ⟨tree, ht, hprint _⟩, ⟨htag, hdeclaration _ _ _ _ htag⟩,
    ⟨harity, hpattern _ _ _ harity⟩, hforeign, hclauses _ _ _ hforeign⟩

end DepLang.Matching
