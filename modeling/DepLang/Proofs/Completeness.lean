import DepLang.Proofs.NormalForms

/-!
# Comparing typed terms is complete

`equate` answers `true` only for convertible terms, whatever it is given. Here is the other half:
given two tame terms of one type, it ends in an answer if it ends at all, and it answers `true` if
they are convertible. So it decides convertibility of such terms (`equate_exact`).

Each rule has a lemma, as in the proof of soundness. A rule may answer `false`, or that it finds
nothing, only if the heads of two normal forms are different, or parts of them are. It relies on
typing twice. A comparison of two applications compares the arguments at the domain of the function
on the left, so both have to be of that type; and the type that it finds for the applications has to
be the one that was given, since the answer is `false` otherwise.

Without a type, functions are not compared by their values. Such a comparison is complete at types
that are not function types (`Guides`).

Two consequences close the module: what elaboration returns equals itself, and comparing two
applications as they stand, before they are reduced, changes no answer. Each ends with what happens
outside of its conditions.
-/
namespace DepLang

open Check

namespace Opens

variable {Γ Δ : Environment} {peeled : Telescope} {t : Term}

theorem eq_none (h : Opens Γ peeled Δ) : ∀ entry ∈ peeled, Γ entry.1 = none := by
  induction h with
  | nil => simp
  | @cons Γ Δ b d peeled hb _ _ _ ih =>
    intro entry hentry
    rcases List.mem_cons.1 hentry with rfl | hrest
    · exact hb
    · cases hc : Γ entry.1 with
      | none => rfl
      | some e =>
        have := Environment.le_set hb ⟨d.ty, some d.value⟩ _ e hc
        rw [Environment.define] at ih
        rw [ih entry hrest] at this
        cases this

/-- What is over the variables of the smaller environment uses none of the `let`s. -/
theorem wrap_eq (h : Opens Γ peeled Δ) (ht : t.Over Γ.Binds) : peeled.wrap t = t := by
  refine Telescope.wrap_of_fresh fun entry hentry => ht.mono ?_
  rintro c ⟨e, hc⟩ rfl
  rw [h.eq_none entry hentry] at hc
  cases hc

end Opens

/-! ## What a comparison decides -/

/-- What members of a type are compared at: the type, or nothing if it is not a function type. -/
inductive Guides (Γ : Environment) (T : Term) : Option Term → Prop where
  | given : Tame Γ true T .type → Guides Γ T (some T)
  | headed {U : Term} {head : Head} : Convertible Γ.values T U → U.Over Γ.Binds →
      U.head? Γ.values = some head → head ≠ .pi → Guides Γ T none

/-- A comparison that finds terms to be equal which are convertible. -/
def Comparison.Complete (equal : Comparison) : Prop :=
  ∀ {Γ : Environment} {ctx : Context} {lhs rhs T : Term} {ty : Option Term} {s : Store},
    Represents Γ ctx s → Tame Γ true lhs T → Tame Γ true rhs T → Guides Γ T ty →
    (equal ctx lhs rhs ty).Returns s fun same s' =>
      s.Later s' ∧ (Convertible Γ.values lhs rhs → same = true)

/-- A comparison whose answers are right, positive and negative ones. -/
structure Comparison.Exact (equal : Comparison) : Prop where
  sound : equal.Sound
  complete : equal.Complete

section

variable {Γ : Environment} {ctx : Context} {lhs rhs T : Term} {ty : Option Term} {s : Store}

theorem Tame.type : Tame Γ true .type .type := ⟨.type, .type, .type⟩

theorem Guides.type : Guides Γ .type none :=
  .headed (U := .type) (.refl trivial) trivial rfl (by simp)

theorem Guides.mono {Δ : Environment} (h : Guides Γ T ty) (hle : Γ.Le Δ) : Guides Δ T ty := by
  cases h with
  | given hT => exact .given (hT.mono hle)
  | headed hTU hover hU hne =>
    refine .headed (hle.convertible hTU) (hover.mono fun b ⟨e, he⟩ => ⟨e, hle b e he⟩) ?_ hne
    rwa [hle.head?_eq hover]

theorem Comparison.Exact.decides {equal : Comparison} (h : equal.Exact) (hR : Represents Γ ctx s)
    (hl : Tame Γ true lhs T) (hr : Tame Γ true rhs T) (hty : Guides Γ T ty) :
    (equal ctx lhs rhs ty).Returns s fun same s' =>
      s.Later s' ∧ (same = true ↔ Convertible Γ.values lhs rhs) := by
  have hlt := hl.typed hR.wellTyped
  have hrt := hr.typed hR.wellTyped
  refine (h.complete hR hl hr hty).and_run.mono ?_
  rintro same s' ⟨⟨hlater, hcomplete⟩, hrun⟩
  refine ⟨hlater, fun hsame => ?_, hcomplete⟩
  exact (h.sound hrun).sound hsame hR.models.tracks ⟨hlt.locallyClosed.1, hlt.vars_over⟩
    ⟨hrt.locallyClosed.1, hrt.vars_over⟩

end

/-! ## The rules -/

section Rules

variable {fuel : Nat} {equal : Comparison} {Γ : Environment} {ctx : Context} {lhs rhs T : Term}
  {s : Store}

/-- What a comparison of heads finds out. A type that it returns is one of both terms, and it returns
one if the terms show their heads and are convertible. -/
structure Shares (Γ : Environment) (lhs rhs : Term) (found : Option Term) : Prop where
  typed : ∀ U, found = some U → Typed Γ lhs U ∧ Typed Γ rhs U ∧ Tame Γ true U .type
  isSome : ∀ head head', lhs.head? Γ.values = some head → rhs.head? Γ.values = some head' →
    Convertible Γ.values lhs rhs → found.isSome = true

theorem Shares.none (h : ∀ head head', lhs.head? Γ.values = some head →
    rhs.head? Γ.values = some head' → ¬ Convertible Γ.values lhs rhs) : Shares Γ lhs rhs none :=
  ⟨nofun, fun head head' hl hr hc => absurd hc (h head head' hl hr)⟩

theorem Shares.some {U : Term} (hl : Typed Γ lhs U) (hr : Typed Γ rhs U)
    (hU : Tame Γ true U .type) : Shares Γ lhs rhs (some U) :=
  ⟨fun _ h => by cases h; exact ⟨hl, hr, hU⟩, fun _ _ _ _ _ => rfl⟩

theorem typeOf_returns (hR : Represents Γ ctx s) {b : Binding} {e : Entry} (he : Γ b = some e) :
    (typeOf ctx b).Returns s fun A s' => A = e.ty ∧ s' = s := by
  unfold typeOf
  refine .bind (.lift fun d t h => Reduction.definition?_eq_some.1 h) ?_
  rintro d t ⟨rfl, rfl⟩
  cases hd : t.definitions.lookup b with
  | some d =>
    obtain ⟨v, hv⟩ := hR.models.types b d hd
    cases he.symm.trans hv
    exact .pure ⟨rfl, rfl⟩
  | none =>
    obtain ⟨A, value⟩ := e
    have hvalue : value = none := by
      have := hR.models.tracks.value_eq_none hd
      rwa [Environment.values, he] at this
    subst hvalue
    show (ofScope (ctx.get b)).Returns t _
    rw [Scope.get, hR.found b A he]
    exact .pure ⟨rfl, rfl⟩

theorem Comparison.Exact.underBinder (hequal : equal.Exact) (hR : Represents Γ ctx s) (name : String)
    {A B : Term} (hA : Tame Γ true A .type)
    (hB : Tame (Γ.assume (s.supply.mint name).1 A) true B .type)
    (hl : Tame (Γ.assume (s.supply.mint name).1 A) true lhs B)
    (hr : Tame (Γ.assume (s.supply.mint name).1 A) true rhs B) :
    (locally (equal (ctx.bind (s.supply.mint name).1 A) lhs rhs (some B))).Returns
      { s with supply := (s.supply.mint name).2 } fun same s' =>
        s.Later s' ∧ (same = true ↔ Convertible Γ.values lhs rhs) := by
  refine .locally ((hequal.decides (hR.assume name hA).derive hl hr (.given hB)).mono ?_)
  rintro same u ⟨hlater, hsame⟩
  rw [Environment.values_assume (hR.eq_none name)] at hsame
  exact ⟨(Store.Later.mint s name).trans (.restore hlater.supply_le), hsame⟩

theorem Comparison.Exact.formations (hequal : equal.Exact) (hR : Represents Γ ctx s)
    (hform : lhs.isFormation = true) {outer : Bool} (hl : Tame Γ outer lhs T) {T' : Term}
    (hr : Tame Γ outer rhs T') :
    (compareFormations equal ctx lhs rhs).Returns s fun found s' =>
      s.Later s' ∧ Shares Γ lhs rhs found := by
  have hΓ := hR.wellTyped
  obtain ⟨m, hm⟩ := hΓ.below
  unfold compareFormations
  split
  · rename_i name A B name' A' B'
    obtain ⟨hA, hB⟩ := hl.pi_inv hΓ
    obtain ⟨hA', hB'⟩ := hr.pi_inv hΓ
    refine .bind (hequal.decides hR hA hA' (.given .type)) ?_
    rintro same s₁ ⟨hs₁, hsame⟩
    have hR₁ := hR.later hs₁
    split
    · rename_i htrue
      have hAA' := hsame.1 htrue
      have hnew := hR₁.eq_none name
      obtain ⟨C, hC, htC⟩ := hB' _ hnew
      have hB' := htC.reassume hΓ hnew (hA'.typed hΓ) hAA'.symm
      refine .mint (.bind (hequal.underBinder hR₁ name hA .type (hB _ hnew) ⟨C, hC, hB'⟩) ?_)
      rintro same' s₂ ⟨hs₂, hsame'⟩
      refine .pure ⟨hs₁.trans hs₂, ?_⟩
      cases same' with
      | true =>
        obtain ⟨hA, n, hB⟩ := (hl.typed hΓ).pi_inv
        obtain ⟨hA', n', hB'⟩ := (hr.typed hΓ).pi_inv
        exact .some (.pi n hA hB) (.pi n' hA' hB') .type
      | false =>
        refine .none fun _ _ _ _ hc => ?_
        obtain ⟨-, k, hBB'⟩ := hc.pi_injective hm
        exact absurd (hsame'.2 (.instantiate hBB' (.refl trivial))) (by simp)
    · rename_i hfalse
      exact .pure ⟨hs₁, .none fun _ _ _ _ hc => hfalse (hsame.2 (hc.pi_injective hm).1)⟩
  · exact .pure ⟨.refl s, .some .boolType .boolType .type⟩
  · exact .pure ⟨.refl s, .some .type .type .type⟩
  · rename_i hpi hbool htype
    refine .pure ⟨.refl s, .none fun head head' hhead hhead' hc => ?_⟩
    have hshape := hc.shape hm hhead hhead'
    cases lhs with
    | pi name A B =>
      cases hhead
      obtain ⟨_, _, _, rfl⟩ := hshape
      exact hpi _ _ _ _ _ _ rfl rfl
    | boolType =>
      cases hhead
      exact hbool rfl hshape
    | type =>
      cases hhead
      exact htype rfl hshape
    | bound | free | lam | app | bool | letIn => cases hform

/-- Arguments of two functions are compared at the domain of a type that both functions have. -/
theorem Comparison.Exact.arguments (hequal : equal.Exact) (hR : Represents Γ ctx s)
    {f f' a a' U T T' : Term} {outer : Bool} (hl : Tame Γ outer (.app f a) T)
    (hr : Tame Γ outer (.app f' a') T') (hf : Typed Γ f U) (hf' : Typed Γ f' U)
    (hU : Tame Γ true U .type) (hfr : f.Rigid) (hfr' : f'.Rigid) :
    (compareArguments fuel equal ctx U a a').Returns s fun found s' =>
      s.Later s' ∧
        (∀ V, found = some V →
          Typed Γ (.app f a) V ∧ Typed Γ (.app f' a') V ∧ Tame Γ true V .type) ∧
        (Convertible Γ.values a a' → found.isSome = true) := by
  have hΓ := hR.wellTyped
  obtain ⟨_, A₁, B₁, hf₁, ha₁, -⟩ := hl.app_inv hΓ
  obtain ⟨_, A₂, B₂, hf₂, ha₂, -⟩ := hr.app_inv hΓ
  have hU₁ := hf.unique hΓ hfr (hf₁.typed hΓ)
  have hU₂ := hf'.unique hΓ hfr' (hf₂.typed hΓ)
  unfold compareArguments
  refine .locally (.bind (.lift (P := fun r u => Peels U s.derive r.1 r.2 u)
    fun r u h => peels_of_peelLets h) ?_)
  rintro ⟨peeled, head⟩ u hpeel
  obtain ⟨Δ, hopens, hRΔ, hhead, hconv, hheaded, hwrap⟩ := hpeel.represents hR.derive hU
  have hΔ := hRΔ.wellTyped
  obtain ⟨m, hm⟩ := hΔ.below
  have hle := hopens.le
  have htype := hhead.typed hΔ
  -- The type is a function type behind its `let`s, since the functions are applied.
  have hpi₁ := hconv.symm.trans (hle.convertible hU₁)
  have hpi₂ := hconv.symm.trans (hle.convertible hU₂)
  obtain ⟨name, A, B, rfl⟩ : ∃ name A B, head = .pi name A B := by
    obtain ⟨h, hh⟩ := htype.head_of_not_pi hΔ hheaded (U := .type) (.refl trivial) rfl (by simp)
    exact hpi₁.symm.shape hm rfl hh
  obtain ⟨hA, -⟩ := hhead.pi_inv hΔ
  have hAt := hA.typed hΔ
  have ha : Tame Δ false a A := (ha₁.mono hle).conv hAt (hpi₁.pi_injective hm).1.symm
  have ha' : Tame Δ false a' A := (ha₂.mono hle).conv hAt (hpi₂.pi_injective hm).1.symm
  refine .bind (hequal.decides hRΔ ha.weaken ha'.weaken (.given hA)) ?_
  rintro same u' ⟨hu', hsame⟩
  have hlater : s.Later { u' with definitions := s.definitions } :=
    .restore (Nat.le_trans hpeel.supply_le hu'.supply_le)
  refine .pure ⟨hlater, fun V hV => ?_, fun hc => ?_⟩
  · cases same with
    | false => cases hV
    | true =>
      cases hV
      have happ : Typed Δ (.app f a) (B.instantiate a) :=
        .app ((hf.mono hle).conv htype hconv) (ha.typed hΔ)
      have happ' : Typed Δ (.app f' a') (B.instantiate a) :=
        (Typed.app ((hf'.mono hle).conv htype hconv) (ha'.typed hΔ)).conv (happ.regular hΔ)
          (.instantiate_right htype.locallyClosed.1.2 (hsame.1 rfl).symm)
      have hfa := hopens.wrap hΓ happ
      have hfa' := hopens.wrap hΓ happ'
      rw [hopens.wrap_eq (hl.typed hΓ).vars_over] at hfa
      rw [hopens.wrap_eq (hr.typed hΓ).vars_over] at hfa'
      exact ⟨hfa, hfa', hwrap _ (hhead.codomain hΔ ha)⟩
  · rw [if_pos (hsame.2 (hle.convertible hc))]
    rfl

/-- Terms are compared by their heads. The recursion is on the spine. -/
theorem Comparison.Exact.heads (hequal : equal.Exact) (hR : Represents Γ ctx s) {T T' : Term}
    (hl : Tame Γ false lhs T) (hr : Tame Γ false rhs T') (hlr : lhs.Rigid) (hrr : rhs.Rigid) :
    (compareHeads fuel equal ctx lhs rhs).Returns s fun found s' =>
      s.Later s' ∧ Shares Γ lhs rhs found := by
  have hΓ := hR.wellTyped
  obtain ⟨m, hm⟩ := hΓ.below
  induction lhs generalizing rhs T T' s with
  | pi | boolType | type => exact hequal.formations hR rfl hl hr
  | bound | lam | letIn => exact hlr.elim
  | bool value =>
    rw [compareHeads]
    by_cases hrhs : rhs = .bool value
    · subst hrhs
      rw [if_pos rfl]
      exact .pure ⟨.refl s, .some .bool .bool ⟨.boolType, .boolType, .boolType⟩⟩
    · rw [if_neg hrhs]
      refine .pure ⟨.refl s, .none fun head head' hhead hhead' hc => hrhs ?_⟩
      cases hhead
      exact hc.shape hm rfl hhead'
  | free b =>
    rw [compareHeads]
    by_cases hrhs : rhs = .free b
    · subst hrhs
      rw [if_pos rfl]
      obtain ⟨e, he, -⟩ := (hl.typed hΓ).var_inv
      have hentry := (hR.tame b e he).ty
      refine .bind (typeOf_returns hR he) ?_
      rintro A u ⟨rfl, rfl⟩
      refine .bind (.lift fun A t h => normalizes_of_whnf h) fun A t h => ?_
      obtain ⟨hA, hconv, -⟩ := h.tame hR hentry
      have hvar : Typed Γ (.free b) A :=
        (Typed.var he (hentry.typed hΓ).locallyClosed.1).conv (hA.typed hΓ) hconv
      exact .pure ⟨h.later, .some hvar hvar hA⟩
    · rw [if_neg hrhs]
      refine .pure ⟨.refl s, .none fun head head' hhead hhead' hc => hrhs ?_⟩
      obtain ⟨-, rfl⟩ := Term.head?_free.1 hhead
      exact hc.shape hm hhead hhead'
  | app f a ihf _ =>
    unfold compareHeads
    split
    · rename_i f' a'
      obtain ⟨_, _, _, hf, -⟩ := hl.app_inv hΓ
      obtain ⟨_, _, _, hf', -⟩ := hr.app_inv hΓ
      refine .bind (ihf hR hf hf' hlr hrr) ?_
      rintro found s₁ ⟨hs₁, hfound⟩
      have hR₁ := hR.later hs₁
      cases found with
      | none =>
        refine .pure ⟨hs₁, .none fun head head' hhead hhead' hc => ?_⟩
        obtain ⟨b, n, hb, -⟩ := Term.head?_app.1 hhead
        obtain ⟨b', n', hb', -⟩ := Term.head?_app.1 hhead'
        exact absurd (hfound.isSome _ _ hb hb' (hc.app_injective hm hb hb').1) (by simp)
      | some U =>
        obtain ⟨hfU, hfU', hU⟩ := hfound.typed U rfl
        refine (hequal.arguments hR₁ hl hr hfU hfU' hU hlr hrr).mono ?_
        rintro found s₂ ⟨hs₂, htyped, hsome⟩
        refine ⟨hs₁.trans hs₂, htyped, fun head head' hhead hhead' hc => hsome ?_⟩
        obtain ⟨b, n, hb, -⟩ := Term.head?_app.1 hhead
        obtain ⟨b', n', hb', -⟩ := Term.head?_app.1 hhead'
        exact (hc.app_injective hm hb hb').2
    · rename_i hrhs
      refine .pure ⟨.refl s, .none fun head head' hhead hhead' hc => ?_⟩
      obtain ⟨b, n, hb, rfl⟩ := Term.head?_app.1 hhead
      obtain ⟨f', a', rfl, -⟩ := hc.shape hm hhead hhead'
      exact hrhs f' a' rfl

/-- Whether terms that show their heads are equal is whether a type is found for them. -/
theorem Comparison.Exact.headed (hequal : equal.Exact) (hR : Represents Γ ctx s)
    (hl : Tame Γ true lhs T) (hr : Tame Γ true rhs T) {head head' : Head}
    (hhead : lhs.head? Γ.values = some head) (hhead' : rhs.head? Γ.values = some head') :
    (compareHeads fuel equal ctx lhs rhs).Returns s fun found s' =>
      s.Later s' ∧ (Convertible Γ.values lhs rhs → found.isSome = true) ∧
        ∀ U, found = some U → Tame Γ true U .type ∧ Convertible Γ.values T U := by
  have hΓ := hR.wellTyped
  refine (hequal.heads hR (hl.of_head? hhead) (hr.of_head? hhead') (Term.rigid_of_head? hhead)
    (Term.rigid_of_head? hhead')).mono ?_
  rintro found s' ⟨hs', hfound⟩
  refine ⟨hs', hfound.isSome head head' hhead hhead', fun U hU => ?_⟩
  obtain ⟨hlU, -, htame⟩ := hfound.typed U hU
  exact ⟨htame, (hl.typed hΓ).unique hΓ (Term.rigid_of_head? hhead) hlU⟩

theorem Comparison.Exact.headsOnly (hequal : equal.Exact) (hR : Represents Γ ctx s)
    (hl : Tame Γ true lhs T) (hr : Tame Γ true rhs T) {head head' : Head}
    (hhead : lhs.head? Γ.values = some head) (hhead' : rhs.head? Γ.values = some head') :
    (do return (← compareHeads fuel equal ctx lhs rhs).isSome : Check Bool).Returns s
      fun same s' => s.Later s' ∧ (Convertible Γ.values lhs rhs → same = true) := by
  refine .bind (hequal.headed hR hl hr hhead hhead') ?_
  rintro found s' ⟨hs', hsome, -⟩
  exact .pure ⟨hs', hsome⟩

theorem Comparison.Exact.bodies (hequal : equal.Exact) (hR : Represents Γ ctx s) {name : String}
    {A B : Term} {left right : Binding → Term} (hA : Tame Γ true A .type)
    (hB : ∀ b, Γ b = none → Tame (Γ.assume b A) true (B.openWith b) .type)
    (hl : ∀ b, Γ b = none → Tame (Γ.assume b A) true (left b) (B.openWith b))
    (hr : ∀ b, Γ b = none → Tame (Γ.assume b A) true (right b) (B.openWith b)) :
    (compareBodies equal ctx name A B left right).Returns s fun same s' =>
      s.Later s' ∧ ((∀ b, Convertible Γ.values (left b) (right b)) → same = true) := by
  unfold compareBodies
  have hnew := hR.eq_none name
  refine .mint ((hequal.underBinder hR name hA (hB _ hnew) (hl _ hnew) (hr _ hnew)).mono ?_)
  rintro same s' ⟨hs', hsame⟩
  exact ⟨hs', fun h => hsame.2 (h _)⟩

theorem Convertible.at_argument {E : Values} {t f : Term} (h : Convertible E (.lam t) f)
    (b : Binding) : Convertible E (t.openWith b) (.app f (.free b)) :=
  .trans (.symm (.beta h.locallyClosed.1 trivial)) (.app h (.refl trivial))

theorem Tame.app_open {A B t : Term} {name : String} {b : Binding} (h : Tame Γ true t (.pi name A B))
    (hΓ : Γ.WellTyped) (hb : Γ b = none) (ht : t.Headed Γ.values) (hne : ∀ body, t ≠ .lam body) :
    Tame (Γ.assume b A) true (.app t (.free b)) (B.openWith b) := by
  obtain ⟨head, hhead⟩ := ht.head_of_ne_lam hne
  obtain ⟨u, hu, hut⟩ := h.of_head? hhead
  exact ⟨.app u (.free b), .app hu (.free b), hut.app_open hΓ hb⟩

/-- At a function type, functions are compared by their values and other terms by their heads. -/
theorem Comparison.Exact.atPi (hequal : equal.Exact) (hR : Represents Γ ctx s) {name : String}
    {A B : Term} (hl : Tame Γ true lhs (.pi name A B)) (hr : Tame Γ true rhs (.pi name A B))
    (hlh : lhs.Headed Γ.values) (hrh : rhs.Headed Γ.values)
    (hT : Tame Γ true (.pi name A B) .type) :
    (compareAt fuel equal ctx lhs rhs (.pi name A B)).Returns s fun same s' =>
      s.Later s' ∧ (Convertible Γ.values lhs rhs → same = true) := by
  have hΓ := hR.wellTyped
  obtain ⟨hA, hB⟩ := hT.pi_inv hΓ
  unfold compareAt
  dsimp only
  split
  · rename_i t u
    refine (hequal.bodies hR hA hB (fun b => hl.lam_open hΓ) fun b => hr.lam_open hΓ).mono ?_
    rintro same s' ⟨hs', hsame⟩
    refine ⟨hs', fun hc => hsame fun b => ?_⟩
    exact (hc.at_argument b).trans (.beta hc.locallyClosed.2 trivial)
  · rename_i t hne
    refine (hequal.bodies hR hA hB (fun b => hl.lam_open hΓ)
      fun b hb => hr.app_open hΓ hb hrh hne).mono ?_
    rintro same s' ⟨hs', hsame⟩
    exact ⟨hs', fun hc => hsame hc.at_argument⟩
  · rename_i t hne
    refine (hequal.bodies hR hA hB (fun b => hr.lam_open hΓ)
      fun b hb => hl.app_open hΓ hb hlh hne).mono ?_
    rintro same s' ⟨hs', hsame⟩
    exact ⟨hs', fun hc => hsame hc.symm.at_argument⟩
  · rename_i hne hne' _
    obtain ⟨head, hhead⟩ := hlh.head_of_ne_lam hne
    obtain ⟨head', hhead'⟩ := hrh.head_of_ne_lam hne'
    exact hequal.headsOnly hR hl hr hhead hhead'

theorem Comparison.Exact.atType (hequal : equal.Exact) (hR : Represents Γ ctx s)
    (hl : Tame Γ true lhs T) (hr : Tame Γ true rhs T) (hlh : lhs.Headed Γ.values)
    (hrh : rhs.Headed Γ.values) (hT : Tame Γ true T .type) (hTh : T.Headed Γ.values) :
    (compareAt fuel equal ctx lhs rhs T).Returns s fun same s' =>
      s.Later s' ∧ (Convertible Γ.values lhs rhs → same = true) := by
  have hΓ := hR.wellTyped
  by_cases hpi : ∃ name A B, T = .pi name A B
  · obtain ⟨name, A, B, rfl⟩ := hpi
    exact hequal.atPi hR hl hr hlh hrh hT
  -- At a type with another head than `pi` there are no functions.
  have htype := hT.typed hΓ
  obtain ⟨Thead, hThead⟩ := htype.head_of_not_pi hΓ hTh (U := .type) (.refl trivial) rfl (by simp)
  have hne : Thead ≠ .pi := by
    rintro rfl
    exact hpi (Term.shape_of_head? hThead)
  have hTT : Convertible Γ.values T T := .refl htype.locallyClosed.1
  obtain ⟨head, hhead⟩ := (hl.typed hΓ).head_of_not_pi hΓ hlh hTT hThead hne
  obtain ⟨head', hhead'⟩ := (hr.typed hΓ).head_of_not_pi hΓ hrh hTT hThead hne
  unfold compareAt
  split
  · exact absurd ⟨_, _, _, rfl⟩ hpi
  · cases hThead
  · exact hequal.headsOnly hR hl hr hhead hhead'
  · refine .bind (hequal.headed hR hl hr hhead hhead') ?_
    rintro found s₁ ⟨hs₁, hsome, hfound⟩
    cases found with
    | some U =>
      obtain ⟨hU, hTU⟩ := hfound U rfl
      refine (hequal.complete (hR.later hs₁) hT hU .type).mono ?_
      rintro same s₂ ⟨hs₂, hsame⟩
      exact ⟨hs₁.trans hs₂, fun _ => hsame hTU⟩
    | none => exact .pure ⟨hs₁, fun hc => absurd (hsome hc) (by simp)⟩

theorem Comparison.Exact.normal (hequal : equal.Exact) (hR : Represents Γ ctx s)
    (hl : Tame Γ true lhs T) (hr : Tame Γ true rhs T) (hlh : lhs.Headed Γ.values)
    (hrh : rhs.Headed Γ.values) {ty : Option Term} (hty : Guides Γ T ty)
    (htyh : ∀ U, ty = some U → U.Headed Γ.values) :
    (compareNormal fuel equal ctx lhs rhs ty).Returns s fun same s' =>
      s.Later s' ∧ (Convertible Γ.values lhs rhs → same = true) := by
  have hΓ := hR.wellTyped
  cases hty with
  | given hT => exact hequal.atType hR hl hr hlh hrh hT (htyh T rfl)
  | headed hTU _ hU hne =>
    obtain ⟨head, hhead⟩ := (hl.typed hΓ).head_of_not_pi hΓ hlh hTU hU hne
    obtain ⟨head', hhead'⟩ := (hr.typed hΓ).head_of_not_pi hΓ hrh hTU hU hne
    exact hequal.headsOnly hR hl hr hhead hhead'

/-- A comparison at `T` may as well be guided by `ty`, which is `U` if it is a type. -/
structure Guided (Γ : Environment) (T U : Term) (ty : Option Term) : Prop where
  typed : Typed Γ U .type
  convertible : Convertible Γ.values T U
  guides : Guides Γ U ty

theorem Guided.tame {t U : Term} {ty : Option Term} (h : Guided Γ T U ty) (ht : Tame Γ true t T) :
    Tame Γ true t U :=
  ht.conv h.typed h.convertible

theorem Guides.whnf (hR : Represents Γ ctx s) (hT : Typed Γ T .type) {ty : Option Term}
    (hty : Guides Γ T ty) :
    (liftM (ty.mapM (whnf fuel) : Reduction (Option Term)) : Check (Option Term)).Returns s
      fun ty' s' => s.Later s' ∧ ∃ U, Guided Γ T U ty' ∧
        ∀ V, ty' = some V → V.isLet = true ∨ V.Headed Γ.values := by
  refine .lift fun ty' s' h => ?_
  cases hty with
  | given htame =>
    obtain ⟨U, hrun, rfl⟩ := Reduction.map_eq_some.1 h
    have hnorm := normalizes_of_whnf hrun
    obtain ⟨hU, hconv, hhead⟩ := hnorm.tame hR htame
    exact ⟨hnorm.later, U, ⟨hU.typed hR.wellTyped, hconv, .given hU⟩,
      fun V hV => by cases hV; exact hhead⟩
  | headed hTU hover hU hne =>
    obtain ⟨rfl, rfl⟩ := Reduction.pure_eq_some.1 h
    exact ⟨.refl s, T, ⟨hT, .refl hT.locallyClosed.1, .headed hTU hover hU hne⟩, nofun⟩

theorem headUnderLets_returns (hR : Represents Γ ctx s) {t : Term} (ht : Tame Γ true t T) :
    (liftM (headUnderLets fuel t) : Check Term).Returns s fun u s' =>
      ∃ Δ, Γ.Le Δ ∧ Represents Δ ctx s' ∧ s.supply.next ≤ s'.supply.next ∧ Tame Δ true u T ∧
        Convertible Δ.values t u ∧ u.Headed Δ.values := by
  refine .lift fun u s' h => ?_
  obtain ⟨peeled, hpeel⟩ := peels_of_headUnderLets h
  obtain ⟨Δ, hopens, hRΔ, hu, hconv, hhead, -⟩ := hpeel.represents hR ht
  exact ⟨Δ, hopens.le, hRΔ, hpeel.supply_le, hu, hconv, hhead⟩

theorem Guides.headUnderLets (hR : Represents Γ ctx s) (hT : Typed Γ T .type) {ty : Option Term}
    (hty : Guides Γ T ty) :
    (liftM (ty.mapM (headUnderLets fuel) : Reduction (Option Term)) : Check (Option Term)).Returns s
      fun ty' s' => ∃ Δ, Γ.Le Δ ∧ Represents Δ ctx s' ∧ s.supply.next ≤ s'.supply.next ∧
        ∃ U, Guided Δ T U ty' ∧ ∀ V, ty' = some V → V.Headed Δ.values := by
  refine .lift fun ty' s' h => ?_
  cases hty with
  | given htame =>
    obtain ⟨U, hrun, rfl⟩ := Reduction.map_eq_some.1 h
    obtain ⟨peeled, hpeel⟩ := peels_of_headUnderLets hrun
    obtain ⟨Δ, hopens, hRΔ, hU, hconv, hhead, -⟩ := hpeel.represents hR htame
    exact ⟨Δ, hopens.le, hRΔ, hpeel.supply_le, U, ⟨hU.typed hRΔ.wellTyped, hconv, .given hU⟩,
      fun V hV => by cases hV; exact hhead⟩
  | headed hTU hover hU hne =>
    obtain ⟨rfl, rfl⟩ := Reduction.pure_eq_some.1 h
    exact ⟨Γ, fun _ _ h => h, hR, Nat.le_refl _, T,
      ⟨hT, .refl hT.locallyClosed.1, .headed hTU hover hU hne⟩, nofun⟩

/-- The `let`s around both terms and the type are moved into the store, one after the other. -/
theorem Comparison.Exact.peeled (hequal : equal.Exact) (hR : Represents Γ ctx s)
    (hl : Tame Γ true lhs T) (hr : Tame Γ true rhs T) {ty : Option Term} (hty : Guides Γ T ty) :
    (do
      let lhs ← headUnderLets fuel lhs
      let rhs ← headUnderLets fuel rhs
      let ty ← (ty.mapM (headUnderLets fuel) : Reduction (Option Term))
      compareNormal fuel equal ctx lhs rhs ty : Check Bool).Returns s fun same s' =>
        s.supply.next ≤ s'.supply.next ∧ (Convertible Γ.values lhs rhs → same = true) := by
  refine .bind (headUnderLets_returns hR hl) ?_
  rintro lhs₁ s₁ ⟨Δ, hΔ, hR₁, hs₁, hl₁, hlconv, hlh⟩
  refine .bind (headUnderLets_returns hR₁ (hr.mono hΔ)) ?_
  rintro rhs₁ s₂ ⟨Δ₂, hΔ₂, hR₂, hs₂, hr₁, hrconv, hrh⟩
  have hlt := hl₁.typed hR₁.wellTyped
  have hrt := hr₁.typed hR₂.wellTyped
  refine .bind (Guides.headUnderLets hR₂ (hrt.regular hR₂.wellTyped) ((hty.mono hΔ).mono hΔ₂)) ?_
  rintro ty₁ s₃ ⟨Δ₃, hΔ₃, hR₃, hs₃, U, hU, htyh⟩
  have hlh := (hlh.mono hΔ₂ hlt.vars_over).mono hΔ₃ (hlt.mono hΔ₂).vars_over
  refine (hequal.normal hR₃ (hU.tame ((hl₁.mono hΔ₂).mono hΔ₃)) (hU.tame (hr₁.mono hΔ₃)) hlh
    (hrh.mono hΔ₃ hrt.vars_over) hU.guides htyh).mono ?_
  rintro same s₄ ⟨hs₄, hsame⟩
  refine ⟨by have := hs₄.supply_le; omega, fun hc => hsame ?_⟩
  have hlconv := hΔ₃.convertible (hΔ₂.convertible hlconv)
  have hrconv := hΔ₃.convertible hrconv
  have hc := hΔ₃.convertible (hΔ₂.convertible (hΔ.convertible hc))
  exact (hlconv.symm.trans hc).trans hrconv

theorem Comparison.Exact.reduced (hequal : equal.Exact) (hR : Represents Γ ctx s)
    (hl : Tame Γ true lhs T) (hr : Tame Γ true rhs T) {ty : Option Term} (hty : Guides Γ T ty) :
    (compareReduced fuel equal ctx lhs rhs ty).Returns s fun same s' =>
      s.Later s' ∧ (Convertible Γ.values lhs rhs → same = true) := by
  unfold compareReduced
  refine .bind (.lift fun t u h => normalizes_of_whnf h) fun lhs₁ s₁ hlhs => ?_
  refine .bind (.lift fun t u h => normalizes_of_whnf h) fun rhs₁ s₂ hrhs => ?_
  have hR₁ := hR.later hlhs.later
  have hR₂ := hR₁.later hrhs.later
  obtain ⟨hl₁, hlconv, hlh⟩ := hlhs.tame hR hl
  obtain ⟨hr₁, hrconv, hrh⟩ := hrhs.tame hR₁ hr
  refine .bind (hty.whnf hR₂ ((hl.typed hR.wellTyped).regular hR.wellTyped)) ?_
  rintro ty₁ s₃ ⟨hs₃, U, hU, htyh⟩
  have hR₃ := hR₂.later hs₃
  have hlater := (hlhs.later.trans hrhs.later).trans hs₃
  have hconv : Convertible Γ.values lhs rhs → Convertible Γ.values lhs₁ rhs₁ :=
    fun hc => (hlconv.symm.trans hc).trans hrconv
  split
  · refine .locally ((hequal.peeled hR₃.derive (hU.tame hl₁) (hU.tame hr₁) hU.guides).mono ?_)
    rintro same s₄ ⟨hs₄, hsame⟩
    exact ⟨hlater.trans (.restore hs₄), fun hc => hsame (hconv hc)⟩
  · rename_i hlet
    simp only [Bool.or_eq_true, not_or, Bool.not_eq_true] at hlet
    obtain ⟨⟨hll, hrl⟩, htyl⟩ := hlet
    refine (hequal.normal hR₃ (hU.tame hl₁) (hU.tame hr₁) (hlh.resolve_left (by simp [hll]))
      (hrh.resolve_left (by simp [hrl])) hU.guides fun V hV => ?_).mono ?_
    · subst hV
      exact (htyh V rfl).resolve_left (by simpa using htyl)
    · rintro same s₄ ⟨hs₄, hsame⟩
      exact ⟨hlater.trans hs₄, fun hc => hsame (hconv hc)⟩

/-- Two applications of variables are compared as they stand. What is found is a type of theirs. -/
theorem Comparison.Exact.spines (hequal : equal.Exact) (hR : Represents Γ ctx s)
    (hl : Tame Γ true lhs T) (hr : Tame Γ true rhs T) :
    (compareSpines fuel equal ctx lhs rhs).Returns s fun found s' =>
      s.Later s' ∧ ∀ U, found = some U → Tame Γ true U .type ∧ Convertible Γ.values U T := by
  have hΓ := hR.wellTyped
  have hnone : (pure none : Check (Option Term)).Returns s fun found s' =>
      s.Later s' ∧ ∀ U, found = some U → Tame Γ true U .type ∧ Convertible Γ.values U T :=
    .pure ⟨.refl s, nofun⟩
  unfold compareSpines
  split
  · split
    · rename_i f a f' a' hfree
      obtain ⟨hf, hf'⟩ := Bool.and_eq_true_iff.1 hfree
      have hrigid : (Term.app f a).Rigid := Term.rigid_of_spineHead hf
      refine (hequal.heads hR hl.of_app hr.of_app hrigid (Term.rigid_of_spineHead hf')).mono ?_
      rintro found s' ⟨hs', hfound⟩
      refine ⟨hs', fun U hU => ?_⟩
      obtain ⟨hlU, -, htame⟩ := hfound.typed U hU
      exact ⟨htame, hlU.unique hΓ hrigid (hl.typed hΓ)⟩
    · exact hnone
  · exact hnone

end Rules

/-- **Comparing decides convertibility** of tame terms of one type, with any fuel that lets it end. -/
theorem equate_exact (fuel : Nat) : (equate fuel).Exact := by
  refine ⟨equate_sound fuel, ?_⟩
  induction fuel with
  | zero =>
    intro Γ ctx lhs rhs T ty s _ _ _ _ r u hrun
    cases hrun
  | succ fuel ih =>
    intro Γ ctx lhs rhs T ty s hR hl hr hty
    have hequal : (equate fuel).Exact := ⟨equate_sound fuel, ih⟩
    rw [equate]
    refine .bind (hequal.spines hR hl hr) ?_
    rintro found s₁ ⟨hs₁, hfound⟩
    cases found with
    | none =>
      refine (hequal.reduced (hR.later hs₁) hl hr hty).mono ?_
      rintro same s₂ ⟨hs₂, hsame⟩
      exact ⟨hs₁.trans hs₂, hsame⟩
    | some U =>
      obtain ⟨hU, hUT⟩ := hfound U rfl
      cases hty with
      | given hT =>
        refine (ih (hR.later hs₁) hU hT .type).mono ?_
        rintro same s₂ ⟨hs₂, hsame⟩
        exact ⟨hs₁.trans hs₂, fun _ => hsame hUT⟩
      | headed => exact .pure ⟨hs₁, fun _ => rfl⟩

/-! ## What elaboration returns equals itself -/

/-- Base types can be ascribed to the `let`s of a closed term, as far as tameness asks for it, and
the term keeps its type. -/
def Ascribable (t T : Term) : Prop :=
  ∃ u, Ascribes true t u ∧ (Typed .empty t T → Typed .empty u T)

theorem Ascribable.tame {t T : Term} (h : Ascribable t T) (ht : Typed .empty t T) :
    Tame .empty true t T := by
  obtain ⟨u, hu, htyped⟩ := h
  exact ⟨u, hu, htyped ht⟩

/-- **Comparing is reflexive** on the results of elaboration. If a closed expression elaborates
against a closed type, and every `let` in the term and in the type stands in an outer place or has
the type `boolType` or `type`, then every comparison of the term with itself at the type that ends
answers `true`. It starts without definitions, from any supply and with any fuel. -/
theorem elaborated_equals_itself {fuel fuel' n k : Nat} {e ty : Expr} {r : Annotated}
    {result : Except ElaborationError Bool} {s : Store} (he : e.Below n) (hty : ty.Below n)
    (hed : e.Distinct fun _ => False) (htd : ty.Distinct fun _ => False)
    (h : (elaborateClosed fuel e ty).answer? { supply := ⟨n⟩ } = some r)
    (hterm : Ascribable r.term r.ty) (htype : Ascribable r.ty .type)
    (hrun : (equate fuel' {} r.term r.term (some r.ty)).run { supply := ⟨k⟩ } =
      some (result, s)) : result = .ok true := by
  obtain ⟨s', h⟩ := answer?_eq_some.1 h
  obtain ⟨hT, ht⟩ := typed_of_elaborateClosed he hty hed htd h
  have htame := hterm.tame ht
  obtain ⟨same, rfl, -, hsame⟩ :=
    (equate_exact fuel').decides (.empty ⟨k⟩) htame htame (.given (htype.tame hT)) _ _ hrun
  rw [hsame.2 (.refl ht.locallyClosed.1)]

/-- A function that applies its argument to a `let`, against a type with a `let` around the
codomain. The comparison of the function with itself ends. -/
theorem elaborated_equals_itself_under_lets :
    let arrow : Expr := .pi ⟨0, "_"⟩ .boolType .boolType
    let e : Expr := .lam ⟨1, "f"⟩ (.app (.name "f") (.letIn ⟨2, "y"⟩ .boolType
      (.app (.name "f") (.bool true)) (.app (.name "f") (.name "y"))))
    let ty : Expr := .pi ⟨3, "f"⟩ arrow (.letIn ⟨4, "B"⟩ .type .boolType (.name "B"))
    let t : Term := .lam (.app (.bound 0) (.letIn "y" .boolType (.app (.bound 0) (.bool true))
      (.app (.bound 1) (.bound 0))))
    let T : Term := .pi "f" (.pi "_" .boolType .boolType) (.letIn "B" .type .boolType (.bound 0))
    (elaborateClosed 20 e ty).answer? { supply := ⟨6⟩ } = some ⟨t, T⟩ ∧
      Ascribable t T ∧ Ascribable T .type ∧
      ∃ s, (equate 20 {} t t (some T)).run { supply := ⟨6⟩ } = some (.ok true, s) := by
  intro arrow e ty t T
  have hchecked : (elaborateClosed 20 e ty).answer? { supply := ⟨6⟩ } = some ⟨t, T⟩ := by
    decide +kernel
  have hty : ty.Below 6 := by simp [ty, arrow, Expr.Below, Expr.All]
  have htd : ty.Distinct fun _ => False := by simp [ty, arrow, Expr.Distinct]
  -- With `boolType` ascribed to the argument, the expression elaborates against the same type.
  let e' : Expr := .lam ⟨1, "f"⟩ (.app (.name "f") (.letIn ⟨5, "it"⟩ .boolType
    (.letIn ⟨2, "y"⟩ .boolType (.app (.name "f") (.bool true)) (.app (.name "f") (.name "y")))
    (.name "it")))
  let u : Term := .lam (.app (.bound 0) (.letIn "it" .boolType
    (.letIn "y" .boolType (.app (.bound 0) (.bool true)) (.app (.bound 1) (.bound 0))) (.bound 0)))
  have hchecked' : (elaborateClosed 20 e' ty).answer? { supply := ⟨6⟩ } = some ⟨u, T⟩ := by
    decide +kernel
  obtain ⟨_, hu⟩ := answer?_eq_some.1 hchecked'
  have htyped : Typed .empty u T :=
    (typed_of_elaborateClosed (by simp [e', Expr.Below, Expr.All]) hty (by simp [e', Expr.Distinct])
      htd hu).2
  have hterm : Ascribable t T := by
    refine ⟨u, .lam (.app (.bound 0) (.base trivial ?_)), fun _ => htyped⟩
    exact .letIn .boolType (.app (.bound 0) (.bool true)) (.app (.bound 1) (.bound 0))
  have htype : Ascribable T .type :=
    ⟨T, .pi (.pi .boolType .boolType) (.letIn .type .boolType (.bound 0)), id⟩
  have hends : ((equate 20 {} t t (some T)).run { supply := ⟨6⟩ }).isSome = true := by
    decide +kernel
  obtain ⟨⟨result, s⟩, hrun⟩ := Option.isSome_iff_exists.1 hends
  have hresult := elaborated_equals_itself (by simp [e, Expr.Below, Expr.All]) hty
    (by simp [e, Expr.Distinct]) htd hchecked hterm htype hrun
  exact ⟨hchecked, hterm, htype, s, by rw [hrun, hresult]⟩

/-- Without the condition on `let`s it is not. Here the function of an application is a `let` around
a function that uses its variable; no rule compares such an application with anything. -/
theorem applied_let_differs_from_itself :
    let e : Expr := .app (.letIn ⟨0, "y"⟩ .boolType (.bool true) (.letIn ⟨1, "h"⟩
      (.pi ⟨2, "_"⟩ .boolType .boolType) (.lam ⟨3, "z"⟩ (.name "y")) (.name "h"))) (.bool false)
    let t : Term := .app (.letIn "y" .boolType (.bool true) (.letIn "h"
      (.pi "_" .boolType .boolType) (.lam (.bound 1)) (.bound 0))) (.bool false)
    (elaborateClosed 20 e .boolType).answer? { supply := ⟨4⟩ } = some ⟨t, .boolType⟩ ∧
      ((equate 20 {} t t (some .boolType)).run { supply := ⟨4⟩ }).map (·.1.toOption) =
        some none := by
  decide +kernel

/-! ## Comparing spines first changes no answer -/

theorem Tame.dead_let {Γ : Environment} {t T : Term} (h : Tame Γ true t T) (hΓ : Γ.WellTyped)
    (name : String) : Tame Γ true (.letIn name .boolType (.bool true) t) T := by
  have htyped := h.typed hΓ
  obtain ⟨b, -, hnew, htb⟩ := hΓ.exists_new t 0
  refine .letIn ⟨.boolType, .boolType, .boolType⟩ ⟨.bool true, .bool true, .bool⟩ hΓ hnew htb
    (htyped.regular hΓ) ?_
  rw [Term.openWith, htyped.locallyClosed.1.instantiate_eq]
  exact h.mono (Environment.le_set hnew _)

/-- **Comparing spines first changes no answer.** A `let` that nothing uses, put around the term on
the left, keeps two applications from being compared as they stand. Tame terms of one type, compared
at that type, or at none if it is not a function type, get the same answer with it and without:
whether they are convertible. -/
theorem dead_let_keeps_answer {fuel fuel' : Nat} {Γ : Environment} {ctx : Context}
    {lhs rhs T : Term} {ty : Option Term} {s s₁ s₂ : Store} {name : String}
    {result result' : Except ElaborationError Bool} (hR : Represents Γ ctx s)
    (hl : Tame Γ true lhs T) (hr : Tame Γ true rhs T) (hty : Guides Γ T ty)
    (hrun : (equate fuel ctx (.letIn name .boolType (.bool true) lhs) rhs ty).run s =
      some (result, s₁))
    (hrun' : (equate fuel' ctx lhs rhs ty).run s = some (result', s₂)) :
    ∃ same, result = .ok same ∧ result' = .ok same ∧
      (same = true ↔ Convertible Γ.values lhs rhs) := by
  have hΓ := hR.wellTyped
  have hlet := hl.dead_let hΓ name
  obtain ⟨same, rfl, -, hsame⟩ := (equate_exact fuel).decides hR hlet hr hty _ _ hrun
  obtain ⟨same', rfl, -, hsame'⟩ := (equate_exact fuel').decides hR hl hr hty _ _ hrun'
  have hzeta : Convertible Γ.values (.letIn name .boolType (.bool true) lhs) lhs := by
    have h := Convertible.zeta (E := Γ.values) (hlet.typed hΓ).locallyClosed.1
    rwa [(hl.typed hΓ).locallyClosed.1.instantiate_eq] at h
  have hiff : same = true ↔ same' = true := by
    rw [hsame, hsame']
    exact ⟨fun h => hzeta.symm.trans h, fun h => hzeta.trans h⟩
  exact ⟨same', congrArg _ (Bool.eq_iff_iff.2 hiff), rfl, hsame'⟩

/-- With `g` assumed and `id` defined, `id (g true)` and `g true` are compared. As they stand their
heads differ, and their normal forms are equal. -/
theorem dead_let_keeps_answer_unfolding :
    let arrow : Term := .pi "x" .boolType .boolType
    let g : Binding := ⟨0, "g"⟩
    let id : Binding := ⟨1, "id"⟩
    let Γ : Environment := (Environment.empty.assume g arrow).define id arrow (.lam (.bound 0))
    let ctx : Context := { inner := [(g, arrow)] }
    let s : Store :=
      { definitions := { inner := [(id, ⟨.lam (.bound 0), arrow⟩)] }, supply := ⟨2⟩ }
    let rhs : Term := .app (.free g) (.bool true)
    let lhs : Term := .app (.free id) rhs
    Represents Γ ctx s ∧ Tame Γ true lhs .boolType ∧ Tame Γ true rhs .boolType ∧
      Guides Γ .boolType (some .boolType) ∧
      ∃ s₁ s₂, (equate 9 ctx (.letIn "u" .boolType (.bool true) lhs) rhs (some .boolType)).run s =
          some (.ok true, s₁) ∧
        (equate 9 ctx lhs rhs (some .boolType)).run s = some (.ok true, s₂) := by
  intro arrow g id Γ ctx s rhs lhs
  have harrow : ∀ {Δ : Environment}, Tame Δ true arrow .type :=
    ⟨arrow, .pi .boolType .boolType, .pi 0 .boolType fun _ _ => .boolType⟩
  have hid : ∀ {Δ : Environment}, Tame Δ false (.lam (.bound 0)) arrow :=
    ⟨.lam (.bound 0), .lam (.bound 0),
      .lam 0 .boolType fun b _ => .var (Environment.set_self ..) trivial⟩
  have hR : Represents Γ ctx s := ((Represents.empty ⟨0⟩).assume "g" harrow).enter "id" harrow hid
  have hΓ := hR.wellTyped
  have hvar : ∀ b value, Γ b = some ⟨arrow, value⟩ → Tame Γ false (.free b) arrow :=
    fun b _ hb => ⟨.free b, .free b, .var hb ⟨trivial, trivial⟩⟩
  have hr : Tame Γ false rhs .boolType :=
    .app (hvar g none rfl) ⟨.bool true, .bool true, .bool⟩ hΓ
  have hl : Tame Γ true lhs .boolType := .app (hvar id (some (.lam (.bound 0))) rfl) hr hΓ
  have hty : Guides Γ .boolType (some .boolType) := .given ⟨.boolType, .boolType, .boolType⟩
  have hends : ((equate 9 ctx (.letIn "u" .boolType (.bool true) lhs) rhs (some .boolType)).run
      s).isSome = true := by decide +kernel
  have hends' : ((equate 9 ctx lhs rhs (some .boolType)).run s).isSome = true := by decide +kernel
  obtain ⟨⟨result, s₁⟩, hrun⟩ := Option.isSome_iff_exists.1 hends
  obtain ⟨⟨result', s₂⟩, hrun'⟩ := Option.isSome_iff_exists.1 hends'
  obtain ⟨same, rfl, rfl, hsame⟩ := dead_let_keeps_answer hR hl hr.weaken hty hrun hrun'
  have hdelta : Convertible Γ.values (.free id) (.lam (.bound 0)) := .delta rfl (by decide)
  have hbeta : Convertible Γ.values (.app (.lam (.bound 0)) rhs) rhs :=
    Convertible.beta (by decide) (by decide)
  have hconv : Convertible Γ.values lhs rhs :=
    (Convertible.app hdelta (.refl (by decide))).trans hbeta
  rw [hsame.2 hconv] at hrun hrun'
  exact ⟨hR, hl, hr.weaken, hty, s₁, s₂, hrun, hrun'⟩

/-- Without the conditions the answers differ. Applications that are compared as they stand have to
be of the type that is given, and normal forms that are compared at `type` do not. Partial
applications of `k` are functions, which no rule compares without a type, unless they are compared
as they stand. The last argument of `c` is dropped with its applied `let`, unless the arguments are
compared first. -/
theorem dead_let_changes_answer :
    let arrow : Term := .pi "_" .boolType .boolType
    let g : Binding := ⟨0, "g"⟩
    let k : Binding := ⟨1, "k"⟩
    let c : Binding := ⟨2, "c"⟩
    let ctx : Context := { inner := [(g, arrow)] }
    let s : Store := { supply := ⟨3⟩, definitions := { inner :=
      [(k, ⟨.lam (.lam (.bound 1)), .pi "_" .boolType arrow⟩), (c, ⟨.lam (.bool true), arrow⟩)] } }
    let outcome (t : Term) (ty : Option Term) : Option (Option Bool) :=
      ((equate 20 ctx t t ty).run s).map (·.1.toOption)
    let outcomeUnderLet (t : Term) (ty : Option Term) : Option (Option Bool) :=
      ((equate 20 ctx (.letIn "u" .boolType (.bool true) t) t ty).run s).map (·.1.toOption)
    let ofG : Term := .app (.free g) (.bool true)
    let ofK : Term := .app (.free k) (.bool true)
    let ofC : Term := .app (.free c) (.app (.letIn "y" .boolType (.bool true)
      (.letIn "h" arrow (.lam (.bound 1)) (.bound 0))) (.bool false))
    (outcome ofG (some .type) = some (some false) ∧
        outcomeUnderLet ofG (some .type) = some (some true)) ∧
      (outcome ofK none = some (some true) ∧ outcomeUnderLet ofK none = some none) ∧
      outcome ofC (some .boolType) = some none ∧
        outcomeUnderLet ofC (some .boolType) = some (some true) := by
  decide +kernel

end DepLang
