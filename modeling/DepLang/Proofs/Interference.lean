import DepLang.Proofs.Identities

/-!
# Entries that a question does not lead to

Entries are added to a context and to definitions, at any place, and their variables occur neither
in the entries that were there nor in a question. Then the answer is the one without them, whatever
the new entries say: they may be ill typed, go in circles, or mention anything.

An answer depends only on the variables that the question leads to. `Agree P` says that two contexts
and two stores have the same entries for the variables in `P`, and that these entries do not lead
out of `P`; nothing is said of other variables. Runs from there are in lockstep, with each variable
in `P` standing for itself. Both sides have the same part in this, so each answers what the other
does.

Errors may mention variables that were minted on the way, and the supplies may differ. So an error
is the same after a renaming that leaves the variables in `P` alone.
-/
namespace DepLang

/-! ## Tables that agree -/

/-- The tables have the same entries for the variables in `P`, which mention only variables in `P`.
No table has an entry for a variable that is still to be minted. -/
structure Agree (P : Binding → Prop) (Γ Γ' : Context) (s s' : Store) : Prop where
  minted : ∀ b, P b → b.id < s.supply.next ∧ b.id < s'.supply.next
  context : ∀ b, P b → Γ'.lookup b = Γ.lookup b
  types : ∀ b A, P b → Γ.lookup b = some A → A.Over P
  definitions : ∀ b, P b → s'.definitions.lookup b = s.definitions.lookup b
  values : ∀ b d, P b → s.definitions.lookup b = some d → d.ty.Over P ∧ d.value.Over P
  keys : (∀ b A, Γ.lookup b = some A → b.id < s.supply.next) ∧
    ∀ b d, s.definitions.lookup b = some d → b.id < s.supply.next
  keys' : (∀ b A, Γ'.lookup b = some A → b.id < s'.supply.next) ∧
    ∀ b d, s'.definitions.lookup b = some d → b.id < s'.supply.next

/-- Whatever `X` ends in, `X'` ends in with enough fuel. A value is the same; an error is, up to the
identities of variables that are not in `P`. -/
def AnswersLike {α : Type} (P : Binding → Prop) (X X' : Nat → Check α) (s s' : Store) : Prop :=
  ∀ (fuel : Nat) (r : Except ElaborationError α) (t : Store), (X fuel).run s = some (r, t) →
    ∃ ρ : Renaming, (∀ b, P b → ρ b = b) ∧
      ∃ t', Ends X' s' (r.mapError (ElaborationError.rename ρ)) t'

namespace Agree

variable {P : Binding → Prop} {Γ Γ' : Context} {s s' : Store} (h : Agree P Γ Γ' s s')
include h

theorem symm : Agree P Γ' Γ s' s where
  minted b hb := (h.minted b hb).symm
  context b hb := (h.context b hb).symm
  types b A hb hA := h.types b A hb (h.context b hb ▸ hA)
  definitions b hb := (h.definitions b hb).symm
  values b d hb hd := h.values b d hb (h.definitions b hb ▸ hd)
  keys := h.keys'
  keys' := h.keys

theorem holds : World.Holds ⟨.same P, s.supply.next, s'.supply.next⟩ (fun _ => False) 0
    (fun _ => none) s s' where
  twins := by
    refine ⟨.same (fun b hb => (h.minted b hb).1) fun b hb => (h.minted b hb).2, h.keys.2,
      h.keys'.2, fun _ hb => hb.elim, .nothing s, .nothing s', ?_⟩
    rintro b _ ⟨rfl, hb⟩
    rw [h.definitions b hb]
    cases hd : s.definitions.lookup b with
    | none => exact .none
    | some d =>
      obtain ⟨hty, hvalue⟩ := h.values b d hb hd
      exact .some ⟨.refl_same hty, fun _ => .refl_same hvalue⟩
  left := rfl
  right := rfl

theorem alike : Context.Alike ⟨.same P, s.supply.next, s'.supply.next⟩ Γ Γ' where
  left := h.keys.1
  right := h.keys'.1
  types := by
    rintro b _ ⟨rfl, hb⟩
    rw [h.context b hb]
    cases hA : Γ.lookup b with
    | none => exact .none
    | some A => exact .some (.refl_same (h.types b A hb hA))

theorem whnf_like {t u : Term} (ht : t.Over P) {fuel : Nat} {s₁ : Store}
    (hrun : whnf fuel t s = some (u, s₁)) : ∃ fuel s₂, whnf fuel t s' = some (u, s₂) := by
  obtain ⟨u', s₂, hnormal, -, hu⟩ := (normalizes_of_whnf hrun).twin h.holds.twins (.refl_same ht)
  obtain rfl := hu.eq_of_same
  obtain ⟨N, hN⟩ := hnormal.runs
  exact ⟨N, s₂, hN N (Nat.le_refl N)⟩

theorem answers {α : Type} {X X' : Nat → Check α} {Q : Pairs → α → α → Prop}
    (hlockstep : ∀ fuel, Check.Lockstep (fun _ => False) 0 (fun _ => none)
      ⟨.same P, s.supply.next, s'.supply.next⟩ (X fuel) X' Q)
    (hQ : ∀ R a b, Q R a b → b = a) : AnswersLike P X X' s s' := by
  intro fuel r t hrun
  obtain ⟨W, r', t', hW, hends, hholds, hout⟩ := (hlockstep fuel).run h.holds hrun
  obtain ⟨ρ, hρ, rfl⟩ := hout.exists_renaming hholds.pairs fun a b _ hab => hQ _ a b hab
  exact ⟨ρ, fun b hb => (hρ b b (hW.pairs b b ⟨rfl, hb⟩)).symm, t', hends⟩

theorem equate_like {lhs rhs : Term} {ty : Option Term} (hl : lhs.Over P) (hr : rhs.Over P)
    (hty : ∀ T, ty = some T → T.Over P) :
    AnswersLike P (fun fuel => equate fuel Γ lhs rhs ty) (fun fuel => equate fuel Γ' lhs rhs ty)
      s s' := by
  exact h.answers (fun fuel => equate_lockstep _ _ _ fuel h.alike (.refl_same hl) (.refl_same hr)
    (Term.Alike.rel_same hty)) fun _ _ _ hab => hab.symm

theorem lockstep {mode : Mode} {e : Expr} (hmode : Mode.Alike (.same P) mode mode)
    (he : e.All true P) (fuel : Nat) : Check.Lockstep (fun _ => False) 0 (fun _ => none)
      ⟨.same P, s.supply.next, s'.supply.next⟩ (elaborate fuel Γ mode e)
      (fun fuel => elaborate fuel Γ' mode e)
      (World.still ⟨.same P, s.supply.next, s'.supply.next⟩ (Annotated.Alike (.same P))) :=
  elaborate_lockstep he.alike (fun _ _ => id) h.alike hmode fun _ _ hb => hb.elim

theorem inferType_like {e : Expr} (he : e.All true P) :
    AnswersLike P (fun fuel => inferType fuel Γ e) (fun fuel => inferType fuel Γ' e) s s' :=
  h.answers (h.lockstep .infer he) fun _ _ _ hab => hab.2.eq_of_same.symm

theorem elaborateType_like {e : Expr} (he : e.All true P) :
    AnswersLike P (fun fuel => elaborateType fuel Γ e) (fun fuel => elaborateType fuel Γ' e) s s' :=
  h.answers (fun fuel => (h.lockstep .type he fuel).term) fun _ _ _ hab => hab.2.eq_of_same.symm

theorem checkType_like {e : Expr} {ty : Term} (he : e.All true P) (hty : ty.Over P) :
    AnswersLike P (fun fuel => checkType fuel Γ e ty) (fun fuel => checkType fuel Γ' e ty) s s' :=
  h.answers (fun fuel => (h.lockstep (.check (.refl_same hty)) he fuel).term)
    fun _ _ _ hab => hab.2.eq_of_same.symm

end Agree

/-! ## Tables with more entries -/

section Enlarged

variable (Γ Γ' : Context) (s s' : Store)

/-- One of the larger tables has an entry for the variable that the smaller one has not. -/
def Added (b : Binding) : Prop :=
  Γ.lookup b = none ∧ Γ'.lookup b ≠ none ∨
    s.definitions.lookup b = none ∧ s'.definitions.lookup b ≠ none

/-- The variable is not one of those added, and is not one that is still to be minted. -/
def Kept (b : Binding) : Prop :=
  ¬ Added Γ Γ' s s' b ∧ b.id < s.supply.next ∧ b.id < s'.supply.next

/-- The context `Γ'` and the definitions of `s'` have the entries of `Γ` and `s`, in their order,
and others before, between and after them. These are for variables that do not occur in `Γ` and `s`.
-/
structure Enlarges : Prop where
  context : Γ.bindings.Sublist Γ'.bindings
  definitions : s.definitions.bindings.Sublist s'.definitions.bindings
  types : Γ.Over (Kept Γ Γ' s s')
  values : s.Over (Kept Γ Γ' s s')
  minted : ∀ b, Added Γ Γ' s s' b → b.id < s'.supply.next

end Enlarged

theorem Scope.lookup_of_sublist {α : Type} {Γ Γ' : Scope α} (h : Γ.bindings.Sublist Γ'.bindings)
    {b : Binding} {a : α} (ha : Γ.lookup b = some a) : Γ'.lookup b = some a :=
  mem_bindings.1 (h.subset (mem_bindings.2 ha))

theorem Scope.lookup_eq_of_sublist {α : Type} {Γ Γ' : Scope α}
    (h : Γ.bindings.Sublist Γ'.bindings) {b : Binding}
    (hb : ¬ (Γ.lookup b = none ∧ Γ'.lookup b ≠ none)) : Γ'.lookup b = Γ.lookup b := by
  cases ha : Γ.lookup b with
  | some a => exact lookup_of_sublist h ha
  | none => exact Classical.not_not.1 fun hne => hb ⟨ha, hne⟩

theorem Enlarges.agree {Γ Γ' : Context} {s s' : Store} (h : Enlarges Γ Γ' s s') :
    Agree (Kept Γ Γ' s s') Γ Γ' s s' where
  minted _ hb := hb.2
  context b hb := Scope.lookup_eq_of_sublist h.context fun hadded => hb.1 (.inl hadded)
  types b A _ hA := (h.types b A hA).2
  definitions b hb := Scope.lookup_eq_of_sublist h.definitions fun hadded => hb.1 (.inr hadded)
  values b d _ hd := (h.values b d hd).2
  keys := ⟨fun b A hA => (h.types b A hA).1.2.1, fun b d hd => (h.values b d hd).1.2.1⟩
  keys' := by
    refine ⟨fun b A hA => ?_, fun b d hd => ?_⟩
    · cases hold : Γ.lookup b with
      | some B => exact (h.types b B hold).1.2.2
      | none => exact h.minted b (.inl ⟨hold, by simp [hA]⟩)
    · cases hold : s.definitions.lookup b with
      | some e => exact (h.values b e hold).1.2.2
      | none => exact h.minted b (.inr ⟨hold, by simp [hd]⟩)

/-- Each of the computations answers like the other. -/
def SameAnswers {α : Type} (P : Binding → Prop) (X X' : Nat → Check α) (s s' : Store) : Prop :=
  AnswersLike P X X' s s' ∧ AnswersLike P X' X s' s

/-- **Unrelated entries do not interfere.** Entries are added to a context and to definitions, at
any position, for variables that occur neither in the entries that were there nor in a question. The
new entries may say anything. Then a term has the same normal form, two terms compare alike, and an
expression has the same inferred type, is the same type, or checks alike against a type: whatever
one of the two runs ends in, the other one does, and an error is the same but for variables that
were minted on the way. -/
theorem unrelated_entries_do_not_interfere {Γ Γ' : Context} {s s' : Store}
    (h : Enlarges Γ Γ' s s') :
    (∀ t u, t.Over (Kept Γ Γ' s s') →
      ((∃ fuel s₁, whnf fuel t s = some (u, s₁)) ↔ ∃ fuel s₁, whnf fuel t s' = some (u, s₁))) ∧
    (∀ lhs rhs ty, lhs.Over (Kept Γ Γ' s s') → rhs.Over (Kept Γ Γ' s s') →
      (∀ T, ty = some T → T.Over (Kept Γ Γ' s s')) →
      SameAnswers (Kept Γ Γ' s s') (fun fuel => equate fuel Γ lhs rhs ty)
        (fun fuel => equate fuel Γ' lhs rhs ty) s s') ∧
    ∀ e : Expr, e.All true (Kept Γ Γ' s s') →
      SameAnswers (Kept Γ Γ' s s') (fun fuel => inferType fuel Γ e)
        (fun fuel => inferType fuel Γ' e) s s' ∧
      SameAnswers (Kept Γ Γ' s s') (fun fuel => elaborateType fuel Γ e)
        (fun fuel => elaborateType fuel Γ' e) s s' ∧
      ∀ ty, ty.Over (Kept Γ Γ' s s') →
        SameAnswers (Kept Γ Γ' s s') (fun fuel => checkType fuel Γ e ty)
          (fun fuel => checkType fuel Γ' e ty) s s' := by
  have hagree := h.agree
  refine ⟨fun t u ht => ⟨?_, ?_⟩, fun lhs rhs ty hl hr hty => ?_, fun e he => ⟨?_, ?_, ?_⟩⟩
  · rintro ⟨fuel, s₁, hrun⟩
    exact hagree.whnf_like ht hrun
  · rintro ⟨fuel, s₁, hrun⟩
    exact hagree.symm.whnf_like ht hrun
  · exact ⟨hagree.equate_like hl hr hty, hagree.symm.equate_like hl hr hty⟩
  · exact ⟨hagree.inferType_like he, hagree.symm.inferType_like he⟩
  · exact ⟨hagree.elaborateType_like he, hagree.symm.elaborateType_like he⟩
  · exact fun ty hty => ⟨hagree.checkType_like he hty, hagree.symm.checkType_like he hty⟩

/-- Around `f` in the context stand a type with a dangling index and one that mentions its own
variable, and around `k` in the definitions a variable defined as itself and another one shown as
`k`. The questions about `f` and `k` have the answers that they have without. -/
theorem unrelated_entries_do_not_interfere_around :
    let f : Binding := ⟨0, "f"⟩
    let k : Binding := ⟨1, "k"⟩
    let z : Binding := ⟨2, "z"⟩
    let arrow : Term := .pi "_" .boolType .boolType
    let applied : Term := .app (.free f) (.free k)
    let Γ : Context := { inner := [(f, arrow)] }
    let Γ' : Context := { inner := [(⟨3, "f"⟩, .bound 7), (f, arrow), (⟨4, "x"⟩, .free ⟨4, "x"⟩)] }
    let s : Store := ⟨{ inner := [(k, ⟨.bool true, .boolType⟩)] }, ⟨3⟩⟩
    let s' : Store := ⟨{ inner := [(⟨5, "loop"⟩, ⟨.free ⟨5, "loop"⟩, .boolType⟩),
      (k, ⟨.bool true, .boolType⟩), (⟨6, "k"⟩, ⟨.bool false, .free ⟨9, "y"⟩⟩)] }, ⟨7⟩⟩
    Enlarges Γ Γ' s s' ∧
    (∃ fuel s₁, whnf fuel applied s' = some (.app (.free f) (.bool true), s₁)) ∧
    (∃ t, Ends (fun fuel => equate fuel Γ' applied (.app (.free f) (.bool true)) (some .boolType))
      s' (.ok true) t) ∧
    (∃ t, Ends (fun fuel => inferType fuel Γ' (.app (.ref f) (.ref k))) s'
      (.ok ⟨applied, .boolType⟩) t) ∧
    (∃ t, Ends (fun fuel => elaborateType fuel Γ' (.pi z .boolType .boolType)) s'
      (.ok (.pi "z" .boolType .boolType)) t) ∧
    (∃ t, Ends (fun fuel => checkType fuel Γ' (.lam z (.app (.ref f) (.ref z))) arrow) s'
      (.ok (.lam (.app (.free f) (.bound 0)))) t) ∧
    ∃ ρ : Renaming, ρ k = k ∧ ∃ t, Ends (fun fuel => inferType fuel Γ' (.app (.ref k) (.ref f))) s'
      (.error (.notAFunction (.ref (ρ k)) .boolType)) t := by
  intro f k z arrow applied Γ Γ' s s'
  have hΓ : ∀ b A, Γ.lookup b = some A → b = f ∧ A = arrow := fun b A hA =>
    Scope.lookup_singleton hA
  have hs : ∀ b d, s.definitions.lookup b = some d → b = k ∧ d = ⟨.bool true, .boolType⟩ :=
    fun b d hd => Scope.lookup_singleton hd
  have hkept : ∀ b, b = f ∨ b = k ∨ b = z → Kept Γ Γ' s s' b := by
    rintro b (rfl | rfl | rfl) <;> exact ⟨by unfold Added; decide, by decide, by decide⟩
  have hf := hkept f (.inl rfl)
  have hk := hkept k (.inr (.inl rfl))
  have hz := hkept z (.inr (.inr rfl))
  have hminted : ∀ b ∈ Γ'.keys ++ s'.definitions.keys, b.id < 7 := by decide
  have henlarges : Enlarges Γ Γ' s s' := by
    refine ⟨by decide, by decide, fun b A hA => ?_, fun b d hd => ?_, fun b hb => ?_⟩
    · obtain ⟨rfl, rfl⟩ := hΓ b A hA
      exact ⟨hf, trivial, trivial⟩
    · obtain ⟨rfl, rfl⟩ := hs b d hd
      exact ⟨hk, trivial, trivial⟩
    · refine hminted b (List.mem_append.2 ?_)
      exact hb.imp (fun h => Scope.mem_keys.2 (Option.isSome_iff_ne_none.2 h.2))
        fun h => Scope.mem_keys.2 (Option.isSome_iff_ne_none.2 h.2)
  obtain ⟨hwhnf, hequate, helaborate⟩ := unrelated_entries_do_not_interfere henlarges
  have happlied : applied.Over (Kept Γ Γ' s s') := ⟨hf, hk⟩
  have happ : (Expr.app (.ref f) (.ref k)).All true (Kept Γ Γ' s s') := ⟨hf, hk⟩
  have hpi : (Expr.pi z .boolType .boolType).All true (Kept Γ Γ' s s') := ⟨hz, trivial, trivial⟩
  have hlam : (Expr.lam z (.app (.ref f) (.ref z))).All true (Kept Γ Γ' s s') := ⟨hz, hf, hz⟩
  have hwrong : (Expr.app (.ref k) (.ref f)).All true (Kept Γ Γ' s s') := ⟨hk, hf⟩
  refine ⟨henlarges, ?_, ?_, ?_, ?_, ?_, ?_⟩
  · refine (hwhnf applied _ happlied).1 ⟨3, ?_⟩
    have hanswer : (whnf 3 applied s).map Prod.fst = some (.app (.free f) (.bool true)) := by
      decide +kernel
    obtain ⟨⟨_, s₁⟩, hrun, rfl⟩ := Option.map_eq_some_iff.1 hanswer
    exact ⟨s₁, hrun⟩
  · obtain ⟨t, hrun⟩ := Check.answer?_eq_some.1 (show (equate 9 Γ applied
      (.app (.free f) (.bool true)) (some .boolType)).answer? s = some true by decide +kernel)
    have hnormal : (Term.app (.free f) (.bool true)).Over (Kept Γ Γ' s s') := ⟨hf, trivial⟩
    have hty : ∀ T, some Term.boolType = some T → T.Over (Kept Γ Γ' s s') := by
      rintro _ ⟨⟩
      trivial
    obtain ⟨ρ, -, hends⟩ := (hequate _ _ _ happlied hnormal hty).1 9 _ t hrun
    exact hends
  · obtain ⟨t, hrun⟩ := Check.answer?_eq_some.1 (show (inferType 9 Γ (.app (.ref f)
      (.ref k))).answer? s = some ⟨applied, .boolType⟩ by decide +kernel)
    obtain ⟨ρ, -, hends⟩ := (helaborate _ happ).1.1 9 _ t hrun
    exact hends
  · obtain ⟨t, hrun⟩ := Check.answer?_eq_some.1 (show (elaborateType 9 Γ (.pi z .boolType
      .boolType)).answer? s = some (.pi "z" .boolType .boolType) by decide +kernel)
    obtain ⟨ρ, -, hends⟩ := (helaborate _ hpi).2.1.1 9 _ t hrun
    exact hends
  · obtain ⟨t, hrun⟩ := Check.answer?_eq_some.1 (show (checkType 9 Γ (.lam z (.app (.ref f)
      (.ref z))) arrow).answer? s = some (.lam (.app (.free f) (.bound 0))) by decide +kernel)
    obtain ⟨ρ, -, hends⟩ := ((helaborate _ hlam).2.2 arrow ⟨trivial, trivial⟩).1 9 _ t hrun
    exact hends
  · have hfails : ∃ t, (inferType 9 Γ (.app (.ref k) (.ref f))).run s =
        some (.error (.notAFunction (.ref k) .boolType), t) := ⟨_, rfl⟩
    obtain ⟨t, hrun⟩ := hfails
    obtain ⟨ρ, hρ, hends⟩ := (helaborate _ hwrong).1.1 9 _ t hrun
    exact ⟨ρ, hρ k hk, hends⟩

end DepLang
