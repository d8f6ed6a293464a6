import DepLang.Proofs.Elaborates

/-!
# What a run leaves alone

A run mints bindings and remembers normal forms, whether it ends in an answer or in an error. Beyond
that it leaves the store as it is.

* `equate_settles`: a comparison keeps the variables that are defined, their order and their types.
* `elaborate_restores`: an elaboration keeps the definitions as they are, values included.
* `Normalizes.confined`: what normalising a term reads and changes is confined to the variables that
  the term leads to, through the values of definitions. The rest of the store could be anything.

For the first two, `Check.Along I x` says that every run of `x` leads from a store to one that `I`
relates to it. There is one rule for each way to build a computation, so a function gets its lemma
by following its text.
-/
namespace DepLang

open Check

/-! ## How stores may change -/

namespace Store

/-- Identities are used up, and never given back. -/
def Grows (s s' : Store) : Prop := s.supply.next ≤ s'.supply.next

/-- Normal forms may have been remembered. The variables that are defined, their order and their
types are as they were. -/
structure Settles (s s' : Store) : Prop where
  keys : s'.definitions.keys = s.definitions.keys
  ages : s.Ages s'

/-- Only identities have been used up. -/
structure Restores (s s' : Store) : Prop where
  definitions : s'.definitions = s.definitions
  supply : s.supply.next ≤ s'.supply.next

/-- A relation between stores that composes, as the parts of a run do. -/
class Lasting (I : Store → Store → Prop) : Prop where
  refl : ∀ s, I s s
  trans : ∀ {s s₁ s₂}, I s s₁ → I s₁ s₂ → I s s₂

instance : Lasting Grows := ⟨fun _ => Nat.le_refl _, Nat.le_trans⟩

instance : Lasting Settles :=
  ⟨fun s => ⟨rfl, .refl s⟩, fun h₁ h₂ => ⟨h₂.keys.trans h₁.keys, h₁.ages.trans h₂.ages⟩⟩

instance : Lasting Restores :=
  ⟨fun _ => ⟨rfl, Nat.le_refl _⟩, fun h₁ h₂ =>
    ⟨h₂.definitions.trans h₁.definitions, Nat.le_trans h₁.supply h₂.supply⟩⟩

variable {s s' : Store}

theorem Settles.grows (h : s.Settles s') : s.Grows s' := h.ages.supply

theorem Restores.settles (h : s.Restores s') : s.Settles s' :=
  ⟨by rw [h.definitions], h.supply, fun b => by rw [h.definitions]⟩

theorem remember_keys (s : Store) (b : Binding) (value : Term) :
    (s.remember b value).definitions.keys = s.definitions.keys := by
  unfold remember
  split
  · exact Definitions.override_keys ‹_›
  · rfl

end Store

theorem Normalizes.settles {t u : Term} {s s' : Store} (h : Normalizes t s u s') :
    s.Settles s' := by
  refine ⟨?_, h.ages⟩
  induction h using Normalizes.induction with
  | layer _ h =>
    cases h with
    | stable | undefined => rfl
    | defined _ hv => rw [Store.remember_keys, hv.ih]
    | apply hf ha ht => rw [ht.ih, ha.ih, hf.ih]
    | stuck hf ha => rw [ha.ih, hf.ih]
    | letIn hty hv => exact hv.ih.trans hty.ih

/-! ## Computations -/

/-- Every run leads from a store to one that `I` relates to it. -/
structure Check.Along {α : Type} (I : Store → Store → Prop) (x : Check α) : Prop where
  run : ∀ {s u : Store} {r : Except ElaborationError α}, x.run s = some (r, u) → I s u

namespace Check.Along

variable {α β : Type} {I J : Store → Store → Prop} {x : Check α} {f : α → Check β}

theorem mono (h : x.Along I) (hIJ : ∀ {s s' : Store}, I s s' → J s s') : x.Along J :=
  ⟨fun hrun => hIJ (h.run hrun)⟩

theorem lift {y : Reduction α} (h : ∀ {s u : Store} {a : α}, y s = some (a, u) → I s u) :
    (liftM y : Check α).Along I := by
  refine ⟨fun {s u r} hrun => ?_⟩
  replace hrun : (do let a ← y; Pure.pure (.ok a) : Reduction (Except ElaborationError α)) s =
    some (r, u) := hrun
  obtain ⟨a, t, ha, hr⟩ := Reduction.bind_eq_some.1 hrun
  obtain ⟨-, rfl⟩ := Reduction.pure_eq_some.1 hr
  exact h ha

theorem locally (h : x.Along Store.Grows) : (locally x).Along Store.Restores := by
  refine ⟨fun {s u r} hrun => ?_⟩
  obtain ⟨t, ht, rfl⟩ := Reduction.locally_eq_some.1 hrun
  have hgrows := h.run ht
  exact ⟨rfl, hgrows⟩

variable [Store.Lasting I]

theorem pure (a : α) : (pure a : Check α).Along I := by
  refine ⟨fun {s u r} hrun => ?_⟩
  cases hrun
  exact Store.Lasting.refl s

theorem fail (error : ElaborationError) : (fail error : Check α).Along I := by
  refine ⟨fun {s u r} hrun => ?_⟩
  cases hrun
  exact Store.Lasting.refl s

theorem ofScope (result : Except ScopeError α) : (ofScope result).Along I := by
  cases result with
  | ok a => exact .pure a
  | error error => exact .fail _

theorem bind (hx : x.Along I) (hf : ∀ a, (f a).Along I) : (x >>= f).Along I := by
  refine ⟨fun {s u r} hrun => ?_⟩
  rw [bind_apply] at hrun
  cases hxs : x.run s with
  | none => rw [hxs] at hrun; cases hrun
  | some result =>
    obtain ⟨outcome, t⟩ := result
    rw [hxs] at hrun
    have hst := hx.run hxs
    cases outcome with
    | error error =>
      cases hrun
      exact hst
    | ok a => exact Store.Lasting.trans hst ((hf a).run hrun)

theorem typeOf (Γ : Context) (b : Binding) : (typeOf Γ b).Along I := by
  refine bind (lift fun h => ?_) fun d => ?_
  · obtain ⟨-, rfl⟩ := Reduction.definition?_eq_some.1 h
    exact Store.Lasting.refl _
  · split
    · exact .pure _
    · exact .ofScope _

end Check.Along

section Parts

variable (fuel : Nat) (name : String) (t : Term)

theorem mint_settles : (liftM (Reduction.mint name) : Check Binding).Along Store.Settles := by
  refine .lift fun h => ?_
  obtain ⟨-, rfl⟩ := Reduction.mint_eq_some.1 h
  exact ⟨rfl, Nat.le_succ _, fun _ => rfl⟩

theorem whnf_settles : (liftM (whnf fuel t) : Check Term).Along Store.Settles :=
  .lift fun h => (normalizes_of_whnf h).settles

theorem peelLets_grows : (liftM (peelLets fuel t) : Check (Telescope × Term)).Along Store.Grows :=
  .lift fun h => (peels_of_peelLets h).supply_le

theorem headUnderLets_grows : (liftM (headUnderLets fuel t) : Check Term).Along Store.Grows :=
  .lift fun h => (peels_of_headUnderLets h).choose_spec.supply_le

theorem mapM_along {I : Store → Store → Prop} [Store.Lasting I] {f : Term → Reduction Term}
    (hf : ∀ t, (liftM (f t) : Check Term).Along I) (ty : Option Term) :
    (liftM (ty.mapM f : Reduction (Option Term)) : Check (Option Term)).Along I := by
  refine .lift fun {s u a} h => ?_
  cases ty with
  | none =>
    obtain ⟨-, rfl⟩ := Reduction.pure_eq_some.1 h
    exact Store.Lasting.refl s
  | some ty =>
    obtain ⟨ty', h, -⟩ := Reduction.map_eq_some.1 h
    exact (hf ty).run (lift_eq_ok.2 h)

end Parts

/-! ## Comparisons settle -/

/-- Every run of the comparison settles. -/
def Comparison.Settles (equal : Comparison) : Prop :=
  ∀ (Γ : Context) (lhs rhs : Term) (ty : Option Term), (equal Γ lhs rhs ty).Along Store.Settles

namespace Comparison.Settles

variable {equal : Comparison} (hequal : equal.Settles) (fuel : Nat) (Γ : Context) (lhs rhs : Term)
include hequal

theorem locally (ty : Option Term) :
    (Check.locally (equal Γ lhs rhs ty)).Along Store.Settles :=
  (Check.Along.locally ((hequal Γ lhs rhs ty).mono Store.Settles.grows)).mono
    Store.Restores.settles

theorem formations : (compareFormations equal Γ lhs rhs).Along Store.Settles := by
  unfold compareFormations
  split
  · refine .bind (hequal ..) fun same => ?_
    split
    · exact .bind (mint_settles _) fun b => .bind (hequal.locally ..) fun _ => .pure _
    · exact .pure _
  all_goals exact .pure _

theorem arguments (ty argument argument' : Term) :
    (compareArguments fuel equal Γ ty argument argument').Along Store.Settles := by
  refine (Check.Along.locally ?_).mono Store.Restores.settles
  refine .bind (peelLets_grows fuel ty) fun r => ?_
  split
  · exact .bind ((hequal ..).mono Store.Settles.grows) fun _ => .pure _
  · exact .pure _

theorem heads : (compareHeads fuel equal Γ lhs rhs).Along Store.Settles := by
  induction lhs generalizing rhs with
  | pi | boolType | type => exact hequal.formations Γ _ rhs
  | bound | lam | letIn => exact .fail _
  | bool value => exact .pure _
  | free b =>
    rw [compareHeads]
    split
    · exact .bind (.typeOf Γ b) fun A => .bind (whnf_settles fuel A) fun _ => .pure _
    · exact .pure _
  | app f a ihf _ =>
    unfold compareHeads
    split
    · refine .bind (ihf _) fun result => ?_
      split
      · exact hequal.arguments ..
      · exact .pure _
    · exact .pure _

theorem spines : (compareSpines fuel equal Γ lhs rhs).Along Store.Settles := by
  unfold compareSpines
  split
  · split
    · exact hequal.heads ..
    · exact .pure _
  · exact .pure _

theorem bodies (name : String) (A B : Term) (left right : Binding → Term) :
    (compareBodies equal Γ name A B left right).Along Store.Settles :=
  .bind (mint_settles name) fun _ => hequal.locally ..

theorem normal (ty : Option Term) :
    (compareNormal fuel equal Γ lhs rhs ty).Along Store.Settles := by
  have hheads : (do return (← compareHeads fuel equal Γ lhs rhs).isSome : Check Bool).Along
      Store.Settles := .bind (hequal.heads ..) fun _ => .pure _
  unfold compareNormal
  split
  · unfold compareAt
    split
    · split
      · exact hequal.bodies ..
      · exact hequal.bodies ..
      · exact hequal.bodies ..
      · exact hheads
    · exact .fail _
    · exact hheads
    · refine .bind (hequal.heads ..) fun result => ?_
      split
      · exact hequal ..
      · exact .pure _
  · exact hheads

theorem reduced (ty : Option Term) :
    (compareReduced fuel equal Γ lhs rhs ty).Along Store.Settles := by
  refine .bind (whnf_settles fuel lhs) fun lhs => .bind (whnf_settles fuel rhs) fun rhs =>
    .bind (mapM_along (whnf_settles fuel) ty) fun ty => ?_
  split
  · refine (Check.Along.locally ?_).mono Store.Restores.settles
    exact .bind (headUnderLets_grows fuel lhs) fun lhs => .bind (headUnderLets_grows fuel rhs)
      fun rhs => .bind (mapM_along (headUnderLets_grows fuel) ty) fun ty =>
        (hequal.normal fuel Γ lhs rhs ty).mono Store.Settles.grows
  · exact hequal.normal fuel Γ lhs rhs ty

end Comparison.Settles

/-- **Comparing settles.** Whatever the outcome, the same variables are defined afterwards, in the
same order and at the same types. -/
theorem equate_settles (fuel : Nat) : (equate fuel).Settles := by
  induction fuel with
  | zero =>
    intro Γ lhs rhs ty
    exact ⟨fun h => by cases h⟩
  | succ fuel ih =>
    intro Γ lhs rhs ty
    rw [equate]
    refine .bind (ih.spines ..) fun result => ?_
    split
    · exact ih ..
    · exact .pure _
    · exact ih.reduced ..

/-! ## Elaborations restore -/

theorem unify_restores (fuel : Nat) (Γ : Context) (lhs rhs : Term) (ty : Option Term) :
    (unify fuel Γ lhs rhs ty).Along Store.Restores := by
  refine .bind (.locally ((equate_settles fuel Γ lhs rhs ty).mono Store.Settles.grows))
    fun same => ?_
  split
  · exact .pure _
  · exact .fail _

theorem conclude_restores (fuel : Nat) (Γ : Context) (mode : Mode) (inferred : Annotated) :
    (conclude fuel Γ mode inferred).Along Store.Restores := by
  unfold conclude
  split
  · exact .pure _
  · exact .bind (unify_restores ..) fun _ => .pure _

theorem concludeFormation_restores (fuel : Nat) (Γ : Context) (mode : Mode) (former : Term) :
    (concludeFormation fuel Γ mode former).Along Store.Restores := by
  unfold concludeFormation
  split
  · exact .pure _
  · exact conclude_restores ..

/-- **Elaborating restores.** Whatever the outcome, the definitions are as they were. -/
theorem elaborate_restores (fuel : Nat) (Γ : Context) (mode : Mode) (e : Expr) :
    (elaborate fuel Γ mode e).Along Store.Restores := by
  have hgrows : ∀ {α : Type} {x : Check α}, x.Along Store.Restores → x.Along Store.Grows :=
    fun h => h.mono Store.Restores.supply
  cases e with
  | type | boolType => exact concludeFormation_restores ..
  | bool value => exact conclude_restores ..
  | pi b domain codomain =>
    rw [elaborate]
    exact .bind (elaborate_restores fuel Γ .type domain) fun A => .bind (.ofScope _) fun inner =>
      .bind (elaborate_restores fuel inner .type codomain) fun B => concludeFormation_restores ..
  | lam b body =>
    rw [elaborate]
    split
    · exact .fail _
    · refine .locally (.bind (peelLets_grows fuel _) fun r => ?_)
      split
      · exact .bind (.ofScope _) fun inner =>
          .bind (hgrows (elaborate_restores fuel inner _ body)) fun _ => .pure _
      · exact .fail _
  | app function argument =>
    rw [elaborate]
    refine .bind (elaborate_restores fuel Γ .infer function) fun f => .bind (.locally ?_) fun _ =>
      conclude_restores ..
    refine .bind (peelLets_grows fuel _) fun r => ?_
    split
    · exact .bind (hgrows (elaborate_restores fuel Γ _ argument)) fun _ => .pure _
    · exact .fail _
  | ref b =>
    rw [elaborate]
    exact .bind (.typeOf Γ b) fun _ => conclude_restores ..
  | letIn b ty value body =>
    rw [elaborate]
    refine .bind (elaborate_restores fuel Γ .type ty) fun A =>
      .bind (elaborate_restores fuel Γ _ value) fun v => .bind (.locally ?_) fun _ => .pure _
    refine .bind ⟨fun {s u r} h => ?_⟩ fun _ => hgrows (elaborate_restores fuel Γ mode body)
    unfold define at h
    simp only [ExceptT.run, ExceptT.mk] at h
    split at h <;> cases h <;> exact Nat.le_refl _
  | name | sigma | tuple =>
    rw [elaborate]
    exact .fail _

/-! ## What a run can reach -/

/-- The values of variables in `P` mention only variables in `P`. -/
def Store.Encloses (s : Store) (P : Binding → Prop) : Prop :=
  ∀ b d, s.definitions.lookup b = some d → P b → d.value.Over P

/-- `P` still encloses the values of its variables, and a value that mentioned only variables in `P`
still does. -/
structure Store.Confined (P : Binding → Prop) (s s' : Store) : Prop where
  encloses : s'.Encloses P
  values : ∀ b d', s'.definitions.lookup b = some d' →
    ∃ d, s.definitions.lookup b = some d ∧ (d.value.Over P → d'.value.Over P)

namespace Store

variable {P : Binding → Prop} {s s₁ s₂ : Store}

theorem Encloses.refl (h : s.Encloses P) : s.Confined P s :=
  ⟨h, fun _ d' hd => ⟨d', hd, id⟩⟩

theorem Confined.trans (h₁ : s.Confined P s₁) (h₂ : s₁.Confined P s₂) : s.Confined P s₂ := by
  refine ⟨h₂.encloses, fun b d' hd' => ?_⟩
  obtain ⟨d₁, hd₁, hover⟩ := h₂.values b d' hd'
  obtain ⟨d, hd, hover'⟩ := h₁.values b d₁ hd₁
  exact ⟨d, hd, fun h => hover (hover' h)⟩

theorem Encloses.enter (h : s.Encloses P) {name : String} {d : Definition} (hd : d.value.Over P) :
    (s.derive.enter name d).Encloses P := by
  intro b e he hb
  by_cases hbn : b = (s.supply.mint name).1
  · subst hbn
    rw [lookup_let_self] at he
    cases he
    exact hd
  · rw [lookup_let_of_ne s hbn] at he
    exact h b e he hb

theorem Encloses.enter_self (h : s.Encloses P) {name : String} {d : Definition}
    (hd : d.value.Over P) :
    (s.derive.enter name d).Encloses fun c => c = (s.supply.mint name).1 ∨ P c := by
  intro b e he hb
  by_cases hbn : b = (s.supply.mint name).1
  · subst hbn
    rw [lookup_let_self] at he
    cases he
    exact hd.mono fun _ => .inr
  · rw [lookup_let_of_ne s hbn] at he
    exact (h b e he (hb.resolve_left hbn)).mono fun _ => .inr

theorem Confined.remember (h : s.Confined P s₁) (hP : s.Encloses P) {b : Binding} {d : Definition}
    (hd : s.definitions.lookup b = some d) {value : Term}
    (hvalue : d.value.Over P → value.Over P) : s.Confined P (s₁.remember b value) := by
  have hcases : ∀ c e, (s₁.remember b value).definitions.lookup c = some e →
      (c = b ∧ e.value = value) ∨ s₁.definitions.lookup c = some e := by
    intro c e he
    by_cases hcb : c = b
    · subst hcb
      rw [lookup_remember_self] at he
      obtain ⟨_, -, rfl⟩ := Option.map_eq_some_iff.1 he
      exact .inl ⟨rfl, rfl⟩
    · rw [lookup_remember_of_ne _ _ hcb] at he
      exact .inr he
  refine ⟨fun c e he hc => ?_, fun c e he => ?_⟩
  · rcases hcases c e he with ⟨rfl, rfl⟩ | he
    · exact hvalue (hP c d hd hc)
    · exact h.encloses c e he hc
  · rcases hcases c e he with ⟨rfl, rfl⟩ | he
    · exact ⟨d, hd, hvalue⟩
    · exact h.values c e he

end Store

/-- **A run is confined.** If `P` encloses the values of its variables, it goes on to do so whatever
term is normalised. A term that mentions only variables in `P` has a normal form that does, and no
value outside of `P` changes on the way. -/
theorem Normalizes.confined {t u : Term} {s s' : Store} (h : Normalizes t s u s')
    {P : Binding → Prop} (hP : s.Encloses P) :
    s.Confined P s' ∧ (t.Over P →
      u.Over P ∧ ∀ b, ¬ P b → s'.definitions.lookup b = s.definitions.lookup b) := by
  induction h using Normalizes.induction generalizing P with
  | layer _ h =>
    cases h with
    | stable | undefined => exact ⟨hP.refl, fun ht => ⟨ht, fun _ _ => rfl⟩⟩
    | @defined b d _ _ _ hd hv =>
      obtain ⟨hs₁, hv⟩ := hv.ih hP
      refine ⟨hs₁.remember hP hd fun hover => (hv hover).1, fun hb => ?_⟩
      obtain ⟨hover, hsame⟩ := hv (hP b d hd hb)
      refine ⟨hover, fun c hc => ?_⟩
      have hcb : c ≠ b := fun e => hc (e ▸ hb)
      rw [Store.lookup_remember_of_ne _ _ hcb, hsame c hc]
    | apply hf ha ht =>
      obtain ⟨hs₁, hf⟩ := hf.ih hP
      obtain ⟨hs₂, ha⟩ := ha.ih hs₁.encloses
      obtain ⟨hs₃, ht⟩ := ht.ih hs₂.encloses
      refine ⟨(hs₁.trans hs₂).trans hs₃, fun hover => ?_⟩
      obtain ⟨hbody, hsame₁⟩ := hf hover.1
      obtain ⟨ha', hsame₂⟩ := ha hover.2
      obtain ⟨hu, hsame₃⟩ := ht (Term.Over.instantiate hbody ha')
      exact ⟨hu, fun b hb => ((hsame₃ b hb).trans (hsame₂ b hb)).trans (hsame₁ b hb)⟩
    | stuck hf ha =>
      obtain ⟨hs₁, hf⟩ := hf.ih hP
      obtain ⟨hs₂, ha⟩ := ha.ih hs₁.encloses
      refine ⟨hs₁.trans hs₂, fun hover => ?_⟩
      obtain ⟨hf', hsame₁⟩ := hf hover.1
      obtain ⟨ha', hsame₂⟩ := ha hover.2
      exact ⟨⟨hf', ha'⟩, fun b hb => (hsame₂ b hb).trans (hsame₁ b hb)⟩
    | @letIn name b _ _ _ v' _ _ _ _ s₂ s₃ hty hv hb hbody =>
      obtain ⟨hs₁, hty⟩ := hty.ih hP
      obtain ⟨hs₂, hv⟩ := hv.ih hs₁.encloses
      -- Outside, the store is the one before the body was entered.
      have hs := hs₁.trans hs₂
      refine ⟨⟨hs.encloses, hs.values⟩, fun hover => ?_⟩
      obtain ⟨hty', hsame₁⟩ := hty hover.1
      obtain ⟨hv', hsame₂⟩ := hv hover.2.1
      refine ⟨?_, fun c hc => (hsame₂ c hc).trans (hsame₁ c hc)⟩
      subst hb
      -- The value of the `let` stays over `P`, and its body over `P` and the variable.
      have hbody' := ((hbody.ih (hs₂.encloses.enter_self hv')).2
        (.openWith (hover.2.2.mono fun _ => .inr) (.inl rfl))).1
      refine .makeLet hty' ?_ hbody'
      cases hd : s₃.definitions.lookup (s₂.supply.mint name).1 with
      | none => exact hv'
      | some d =>
        obtain ⟨e, he, hstay⟩ := (hbody.ih (hs₂.encloses.enter hv')).1.values _ d hd
        rw [Store.lookup_let_self] at he
        cases he
        exact hstay hv'

end DepLang
