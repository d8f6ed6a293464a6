import DepLang.Proofs.FirstOrder
import DepLang.Proofs.Heads
import DepLang.Proofs.Lockstep
import DepLang.Proofs.NormalForms
import DepLang.Proofs.ScopeErrors
import DepLang.Proofs.Sessions

/-!
# Comparing first-order terms decides whether they unfold alike

The **unfolding** of a first-order term has no `let`s and no defined variables left, since values
have been put for all of them. `Term.Unfolds E t u` says so as a relation, with one rule for each
former. If definitions are acyclic, every first-order term has an unfolding (`exists_unfolds`), and
two of them are convertible exactly if they are equal up to the names that function types carry for
display (`Unfolded.convertible_iff`).

Comparing first-order terms is total. `equate` ends, without an error, and answers `true` exactly if
the terms are convertible (`equate_succeeds`). No typing is asked for: a comparison that stays away
from functions looks at types only to throw them away. The proof is an induction on the weight of
the two terms. Each rule has a lemma, which says of a run that it succeeds (`Check.Succeeds`).
-/
namespace DepLang

open Check

namespace Term

/-! ## Unfoldings -/

/-- The term with values put for its `let`s and for the variables that `E` defines. A function type
is unfolded under its binder at a new variable. -/
inductive Unfolds (E : Values) : Term → Term → Prop where
  | type : Unfolds E .type .type
  | boolType : Unfolds E .boolType .boolType
  | bool (value : Bool) : Unfolds E (.bool value) (.bool value)
  | undefined {b : Binding} : E b = none → Unfolds E (.free b) (.free b)
  | defined {b : Binding} {v u : Term} : E b = some v → Unfolds E v u → Unfolds E (.free b) u
  | letIn {name : String} {ty v body u : Term} : Unfolds E (body.instantiate v) u →
      Unfolds E (.letIn name ty v body) u
  | pi {name : String} {A A' B B' : Term} {b : Binding} : E.Fresh b → B.Over (· ≠ b) →
      B'.Over (· ≠ b) → Unfolds E A A' → Unfolds E (B.openWith b) (B'.openWith b) →
      Unfolds E (.pi name A B) (.pi name A' B')

/-- Nothing is left to unfold. -/
def Unfolded (E : Values) : Term → Prop
  | free b => E b = none
  | pi _ domain codomain => domain.Unfolded E ∧ codomain.Unfolded E
  | lam _ | app _ _ | letIn _ _ _ _ => False
  | bound _ | bool _ | boolType | type => True

/-- Drops the names that function types carry for display. -/
def eraseNames : Term → Term
  | lam body => lam body.eraseNames
  | pi _ domain codomain => pi "" domain.eraseNames codomain.eraseNames
  | app function argument => app function.eraseNames argument.eraseNames
  | letIn name ty value body => letIn name ty.eraseNames value.eraseNames body.eraseNames
  | bound i => bound i
  | free b => free b
  | bool value => bool value
  | boolType => boolType
  | type => type

theorem eraseNames_replaceAt (b : Binding) (k : Nat) (t : Term) :
    (replaceAt (free b) k t).eraseNames = replaceAt (free b) k t.eraseNames := by
  induction t generalizing k with
  | bound i =>
    simp only [replaceAt, eraseNames]
    split <;> rfl
  | lam _ ih => simp only [replaceAt, eraseNames, ih]
  | pi _ _ _ ihA ihB => simp only [replaceAt, eraseNames, ihA, ihB]
  | app _ _ ihf iha => simp only [replaceAt, eraseNames, ihf, iha]
  | letIn _ _ _ _ ihA ihv ihb => simp only [replaceAt, eraseNames, ihA, ihv, ihb]
  | free | bool | boolType | type => rfl

theorem eraseNames_openWith (t : Term) (b : Binding) :
    (t.openWith b).eraseNames = t.eraseNames.openWith b :=
  eraseNames_replaceAt b 0 t

theorem Over.eraseNames {P : Binding → Prop} {t : Term} (h : t.Over P) : t.eraseNames.Over P := by
  induction t with
  | free => exact h
  | lam _ ih => exact ih h
  | pi _ _ _ ihA ihB => exact ⟨ihA h.1, ihB h.2⟩
  | app _ _ ihf iha => exact ⟨ihf h.1, iha h.2⟩
  | letIn _ _ _ _ ihA ihv ihb => exact ⟨ihA h.1, ihv h.2.1, ihb h.2.2⟩
  | bound | bool | boolType | type => trivial

namespace Unfolded

variable {E : Values} {t u : Term}

theorem replaceAt (h : t.Unfolded E) {b : Binding} (hb : E b = none) (k : Nat) :
    (Term.replaceAt (free b) k t).Unfolded E := by
  induction t generalizing k with
  | bound i =>
    rw [Term.replaceAt]
    split
    · exact hb
    · trivial
  | pi _ _ _ ihA ihB => exact ⟨ihA h.1 k, ihB h.2 (k + 1)⟩
  | lam | app | letIn => exact h.elim
  | free => exact h
  | bool | boolType | type => trivial

theorem openWith (h : t.Unfolded E) {b : Binding} (hb : E b = none) : (t.openWith b).Unfolded E :=
  h.replaceAt hb 0

theorem of_replaceAt {b : Binding} {k : Nat} (h : (Term.replaceAt (free b) k t).Unfolded E) :
    t.Unfolded E := by
  induction t generalizing k with
  | pi _ _ _ ihA ihB => exact ⟨ihA h.1, ihB h.2⟩
  | lam | app | letIn => exact h.elim
  | free => exact h
  | bound | bool | boolType | type => trivial

theorem head (h : t.Unfolded E) (hlc : t.LocallyClosed) : ∃ head, t.head? E = some head := by
  cases t with
  | bound i => exact absurd hlc (Nat.not_lt_zero i)
  | free b => exact ⟨_, head?_free.2 ⟨h, rfl⟩⟩
  | lam | app | letIn => exact h.elim
  | pi | bool | boolType | type => exact ⟨_, rfl⟩

variable {m : Nat} (hE : E.Below m)
include hE

/-- Names for display do not matter. The induction is on the size, since a codomain is opened. -/
theorem convertible_eraseNames (h : t.Unfolded E) (hlc : t.LocallyClosed) :
    Convertible E t t.eraseNames := by
  induction hn : t.size using Nat.strong_induction_on generalizing t with
  | _ n ih =>
  subst hn
  cases t with
  | pi name A B =>
    refine .pi m (ih A.size (by simp only [size]; omega) h.1 hlc.1 rfl) fun b hb => ?_
    rw [← eraseNames_openWith]
    exact ih _ (by rw [size_openWith, size]; omega) (h.2.openWith (hE.fresh hb).1)
      (hlc.2.openWith b) rfl
  | lam | app | letIn => exact h.elim
  | bound | free | bool | boolType | type => exact .refl hlc

theorem eraseNames_eq (ht : t.Unfolded E) (hu : u.Unfolded E) (h : Convertible E t u) :
    t.eraseNames = u.eraseNames := by
  induction hn : t.size using Nat.strong_induction_on generalizing t u with
  | _ n ih =>
  subst hn
  obtain ⟨htc, huc⟩ := h.locallyClosed
  obtain ⟨head, hhead⟩ := ht.head htc
  obtain ⟨head', hhead'⟩ := hu.head huc
  have hshape := h.shape hE hhead hhead'
  cases t with
  | pi name A B =>
    cases hhead
    obtain ⟨name', A', B', rfl⟩ := hshape
    obtain ⟨hA, k, hB⟩ := h.pi_injective hE
    obtain ⟨b, hb, hBb, hBb'⟩ := exists_fresh B B' (max k m)
    have hnone := (hE.fresh (Nat.le_trans (Nat.le_max_right k m) hb)).1
    have hcod := ih _ (by rw [size_openWith, size]; omega) (ht.2.openWith hnone)
      (hu.2.openWith hnone) (hB b (Nat.le_trans (Nat.le_max_left k m) hb)) rfl
    have hcod' : B.eraseNames.openWith b = B'.eraseNames.openWith b := by
      rw [← eraseNames_openWith, ← eraseNames_openWith]
      exact hcod
    simp only [eraseNames]
    rw [ih A.size (by simp only [size]; omega) ht.1 hu.1 hA rfl,
      openWith_injective hBb.eraseNames hBb'.eraseNames hcod']
  | free b =>
    obtain ⟨-, rfl⟩ := head?_free.1 hhead
    cases hshape
    rfl
  | bool | boolType | type =>
    cases hhead
    cases hshape
    rfl
  | bound i => exact absurd htc (Nat.not_lt_zero i)
  | lam | app | letIn => exact ht.elim

/-- **Unfolded terms are convertible exactly if they are equal up to names for display.** -/
theorem convertible_iff (ht : t.Unfolded E) (htc : t.LocallyClosed) (hu : u.Unfolded E)
    (huc : u.LocallyClosed) : Convertible E t u ↔ t.eraseNames = u.eraseNames := by
  refine ⟨ht.eraseNames_eq hE hu, fun h => ?_⟩
  have hright := hu.convertible_eraseNames hE huc
  rw [← h] at hright
  exact (ht.convertible_eraseNames hE htc).trans hright.symm

end Unfolded

namespace Unfolds

variable {E : Values} {t u : Term}

theorem unfolded (h : Unfolds E t u) : u.LocallyClosed ∧ u.Unfolded E := by
  induction h with
  | type | boolType | bool => exact ⟨trivial, trivial⟩
  | undefined hb => exact ⟨trivial, hb⟩
  | defined _ _ ih => exact ih
  | letIn _ ih => exact ih
  | pi _ _ _ _ _ ihA ihB =>
    exact ⟨⟨ihA.1, .of_openWith ihB.1⟩, ihA.2, .of_replaceAt ihB.2⟩

theorem convertible (h : Unfolds E t u) (hE : ∀ b v, E b = some v → v.LocallyClosed)
    (ht : t.LocallyClosed) : Convertible E t u := by
  induction h with
  | type | boolType | bool | undefined => exact .refl ht
  | @defined b v u hv _ ih => exact (Convertible.delta hv (hE b v hv)).trans (ih (hE b v hv))
  | letIn _ ih => exact (Convertible.zeta ht).trans (ih (ht.2.2.instantiate ht.2.1))
  | pi hb hB hB' _ _ ihA ihB =>
    exact .pi 0 (ihA ht.1) fun c _ => (ihB (ht.2.openWith _)).rename hb hB hB' c

end Unfolds

/-- **First-order terms have unfoldings** if values are first-order and variables weigh more than
their values. The induction is on the weight, as it is for normalising. -/
theorem exists_unfolds {E : Values} {m : Nat} (hm : E.Below m) {ω : Binding → Nat}
    (hfo : ∀ b v, E b = some v → v.FirstOrder) (hclosed : ∀ b v, E b = some v → v.LocallyClosed)
    (hω : ∀ b v, E b = some v → v.weight ω < ω b) {t : Term} (ht : t.FirstOrder)
    (hlc : t.LocallyClosed) : ∃ u, Unfolds E t u := by
  induction hn : t.weight ω using Nat.strong_induction_on generalizing ω t with
  | _ n ih =>
  subst hn
  cases t with
  | bound i => exact absurd hlc (Nat.not_lt_zero i)
  | lam | app => exact ht.elim
  | bool value => exact ⟨_, .bool value⟩
  | boolType => exact ⟨_, .boolType⟩
  | type => exact ⟨_, .type⟩
  | free b =>
    cases hb : E b with
    | none => exact ⟨_, .undefined hb⟩
    | some v =>
      obtain ⟨u, hu⟩ := ih _ (hω b v hb) hω (hfo b v hb) (hclosed b v hb) rfl
      exact ⟨u, .defined hb hu⟩
  | letIn name ty v body =>
    have hunder := weightUnder_le ω hlc.2.2 (Nat.le_add_right (v.weight ω) 1)
    have hlt : (body.instantiate v).weight ω < (letIn name ty v body).weight ω := by
      rw [weight_instantiate ω body hlc.2.1, weight_letIn]
      omega
    obtain ⟨u, hu⟩ := ih _ hlt hω (.replaceAt ht.2.1 ht.2.2 0) (hlc.2.2.instantiate hlc.2.1) rfl
    exact ⟨u, .letIn hu⟩
  | pi name A B =>
    have hweight := weight_pi ω name A B
    obtain ⟨A', hA⟩ := ih _ (by omega) hω ht.1 hlc.1 rfl
    -- The codomain is opened with a new variable, which is given no weight.
    obtain ⟨b, hb, hBb, -⟩ := exists_fresh B B m
    have hfresh := hm.fresh hb
    have hω' : ∀ c v, E c = some v →
        v.weight (Function.update ω b 0) < Function.update ω b 0 c := by
      intro c v hv
      have hcb : c ≠ b := by
        rintro rfl
        rw [hfresh.1] at hv
        cases hv
      rw [weight_update ⟨hclosed c v hv, hfresh.2 c v hv⟩, Function.update_of_ne hcb]
      exact hω c v hv
    have hopen := weight_openWith ω hlc.2 hBb 0
    obtain ⟨B', hB⟩ := ih _ (by omega) hω' (ht.2.openWith b) (hlc.2.openWith b) rfl
    refine ⟨_, .pi hfresh hBb (B'.close_over_ne b) hA ?_⟩
    rw [openWith_close hB.unfolded.1]
    exact hB

end Term

/-! ## Runs that succeed -/

namespace Ends

variable {α : Type} {s t : Store}

theorem lift {Y : Nat → Reduction α} {a : α}
    (h : ∃ N, ∀ fuel, N ≤ fuel → Y fuel s = some (a, t)) :
    Ends (fun fuel => liftM (Y fuel)) s (.ok a) t := by
  obtain ⟨N, hN⟩ := h
  exact ⟨N, fun fuel hfuel => lift_eq_ok.2 (hN fuel hfuel)⟩

theorem mint (s : Store) (name : String) : Ends (fun _ => liftM (Reduction.mint name)) s
    (.ok (s.supply.mint name).1) { s with supply := (s.supply.mint name).2 } :=
  lift ⟨0, fun _ _ => rfl⟩

theorem headUnderLets {u v : Term} {peeled : Telescope} (h : Peels u s peeled v t) :
    Ends (fun fuel => liftM (headUnderLets fuel u)) s (.ok v) t := by
  obtain ⟨N, hN⟩ := h.runs
  refine lift ⟨N, fun fuel hfuel => ?_⟩
  exact Reduction.bind_eq_some.2 ⟨_, _, hN fuel hfuel, rfl⟩

theorem whnf {u v : Term} (h : Normalizes u s v t) :
    Ends (fun fuel => liftM (whnf fuel u)) s (.ok v) t :=
  lift h.runs

theorem mapM_some {f : Nat → Term → Reduction Term} {T U : Term}
    (hf : Ends (fun fuel => liftM (f fuel T)) s (.ok U) t) :
    Ends (fun fuel => liftM ((some T).mapM (f fuel) : Reduction (Option Term))) s (.ok (some U))
      t := by
  obtain ⟨N, hN⟩ := hf
  exact lift ⟨N, fun fuel hfuel =>
    Reduction.map_eq_some.2 ⟨U, lift_eq_ok.1 (hN fuel hfuel), rfl⟩⟩

/-- What does not change the universe does not change the type of a comparison at the universe, or
at no type. -/
theorem mapM {f : Nat → Term → Reduction Term} {ty : Option Term}
    (hty : ty = none ∨ ty = some .type)
    (hf : Ends (fun fuel => liftM (f fuel .type)) s (.ok .type) s) :
    Ends (fun fuel => liftM (ty.mapM (f fuel) : Reduction (Option Term))) s (.ok ty) s := by
  rcases hty with rfl | rfl
  · exact lift ⟨0, fun _ _ => rfl⟩
  · exact mapM_some hf

theorem typeOf {Γ : Context} {b : Binding} {A : Term} (hd : s.definitions.lookup b = none)
    (hA : Γ.lookup b = some A) : Ends (fun _ => typeOf Γ b) s (.ok A) s := by
  unfold Check.typeOf
  refine bind_ok (lift ⟨0, fun _ _ => Reduction.definition?_eq_some.2 ⟨hd.symm, rfl⟩⟩) (const ?_)
  rw [Scope.get, hA]
  rfl

end Ends

/-- With enough fuel the computations end in a value, and `Q` holds of it and of the store. -/
def Check.Succeeds {α : Type} (X : Nat → Check α) (s : Store) (Q : α → Store → Prop) : Prop :=
  ∃ a t, Ends X s (.ok a) t ∧ Q a t

namespace Check.Succeeds

variable {α β : Type} {X : Nat → Check α} {F : Nat → α → Check β} {s : Store}
  {P Q : α → Store → Prop} {R : β → Store → Prop}

theorem mono (h : Succeeds X s P) (hPQ : ∀ a t, P a t → Q a t) : Succeeds X s Q := by
  obtain ⟨a, t, hX, hP⟩ := h
  exact ⟨a, t, hX, hPQ a t hP⟩

theorem pure {a : α} (h : Q a s) : Succeeds (fun _ => pure a) s Q :=
  ⟨a, s, .const (pure_eq_ok.2 ⟨rfl, rfl⟩), h⟩

theorem succ (h : Succeeds (fun fuel => X (fuel + 1)) s Q) : Succeeds X s Q := by
  obtain ⟨a, t, hX, hQ⟩ := h
  exact ⟨a, t, hX.succ, hQ⟩

theorem after {a : α} {t : Store} (hX : Ends X s (.ok a) t) (hF : Succeeds (F · a) t R) :
    Succeeds (fun fuel => X fuel >>= F fuel) s R := by
  obtain ⟨b, u, hF, hR⟩ := hF
  exact ⟨b, u, hX.bind_ok hF, hR⟩

theorem bind (hX : Succeeds X s P) (hF : ∀ a t, P a t → Succeeds (F · a) t R) :
    Succeeds (fun fuel => X fuel >>= F fuel) s R := by
  obtain ⟨a, t, hX, hP⟩ := hX
  exact after hX (hF a t hP)

theorem locally (h : Succeeds X s.derive fun a t => Q a { t with definitions := s.definitions }) :
    Succeeds (fun fuel => locally (X fuel)) s Q := by
  obtain ⟨a, t, hX, hQ⟩ := h
  exact ⟨a, _, hX.locally, hQ⟩

end Check.Succeeds

/-! ## What a comparison starts from -/

/-- A first-order term over `S`. -/
structure Term.Elementary (S : Binding → Prop) (t : Term) : Prop extends t.Within S where
  firstOrder : t.FirstOrder

theorem Normalizes.type (s : Store) : Normalizes .type s .type s :=
  .layer (.stable (by simp) (by simp) rfl)

theorem Normalizes.lookup_free {t u : Term} {s s' : Store} (h : Normalizes t s u s') {b : Binding}
    (hu : u = .free b) : s'.definitions.lookup b = none := by
  induction h using Normalizes.induction with
  | @layer _ u _ _ _ h =>
    cases h with
    | stable hfree => exact absurd hu (hfree b)
    | undefined hb =>
      cases hu
      exact hb
    | @defined c _ _ _ s₁ _ hv =>
      have hages : s₁.Ages (s₁.remember c u) := (Store.Ages.refl s₁).remember c u
      exact (Option.isSome_eq_isSome.1 (hages.isSome_lookup b)).2 (hv.ih hu)
    | apply _ _ hv => exact hv.ih hu
    | stuck => cases hu
    | @letIn _ c _ ty' _ v' _ body' _ _ s₂ s₃ _ _ hc hbody =>
      rcases Term.makeLet_cases c ty' ((s₃.definitions.lookup c).elim v' Definition.value) body' with
        ⟨hfresh, hdropped⟩ | hkept
      · rw [hdropped] at hu
        have hbc : b ≠ c := by
          subst hu
          exact hfresh
        have hnone := (Option.isSome_eq_isSome.1 (hbody.run.ages.isSome_lookup b)).1 (hbody.ih hu)
        subst hc
        rwa [Store.lookup_enter_of_ne s₂.derive hbc, Store.lookup_derive] at hnone
      · rw [hkept] at hu
        cases hu

/-- What is left after peeling is no `let`, and if it is a variable, that has no definition. -/
theorem Peels.normal {t u : Term} {peeled : Telescope} {s s' : Store} (h : Peels t s peeled u s') :
    u.isLet = false ∧ ∀ b, u = .free b → s'.definitions.lookup b = none := by
  induction h with
  | head h hlet => exact ⟨hlet, fun _ => h.lookup_free⟩
  | peel _ _ _ ih => exact ih

/-- What a comparison of first-order terms starts from. All variables in `S` are found, types and
values are first-order, and a variable weighs more than its value. -/
structure Comparable (S : Binding → Prop) (E : Values) (ω : Binding → Nat) (Γ : Context)
    (s : Store) : Prop where
  finds : Finds S E Γ s
  weighs : s.Weighs ω
  types : ∀ b A, Γ.lookup b = some A → A.FirstOrder

/-- A comparison can go on from the later store. -/
structure StillComparable (S : Binding → Prop) (E : Values) (ω : Binding → Nat) (Γ : Context)
    (s s' : Store) : Prop where
  comparable : Comparable S E ω Γ s'
  supply : s.supply.next ≤ s'.supply.next

theorem StillComparable.trans {S : Binding → Prop} {E : Values} {ω : Binding → Nat} {Γ : Context}
    {s s₁ s₂ : Store} (h₁ : StillComparable S E ω Γ s s₁) (h₂ : StillComparable S E ω Γ s₁ s₂) :
    StillComparable S E ω Γ s s₂ :=
  ⟨h₂.comparable, Nat.le_trans h₁.supply h₂.supply⟩

namespace Comparable

variable {S : Binding → Prop} {E : Values} {ω : Binding → Nat} {Γ : Context} {s : Store}
  (h : Comparable S E ω Γ s)
include h

theorem refl : StillComparable S E ω Γ s s := ⟨h, Nat.le_refl _⟩

theorem tracks : Tracks S E s := h.finds.records.tracks

theorem derive : Comparable S E ω Γ s.derive := ⟨h.finds.derive, h.weighs.derive, h.types⟩

theorem restore {s' : Store} (hs : s.supply.next ≤ s'.supply.next) :
    StillComparable S E ω Γ s { s' with definitions := s.definitions } :=
  ⟨⟨h.finds.restore hs, h.weighs.of_lookup hs fun _ => rfl, h.types⟩, hs⟩

theorem mint (name : String) {A : Term} (hA : A.Elementary S) :
    Comparable (fun c => c = (s.supply.mint name).1 ∨ S c) E
      (Function.update ω (s.supply.mint name).1 0) (Γ.bind (s.supply.mint name).1 A)
      { s with supply := (s.supply.mint name).2 } := by
  refine ⟨h.finds.mint name hA.toWithin,
    (h.weighs.update name 0).of_lookup (Nat.le_succ _) fun _ => rfl, fun b B hB => ?_⟩
  by_cases hb : b = (s.supply.mint name).1
  · have hnew : ¬ S (s.supply.mint name).1 := fun hS =>
      Nat.lt_irrefl _ (h.tracks.minted _ hS)
    subst hb
    rw [Scope.lookup_bind_self A (h.finds.lookup_eq_none hnew).1] at hB
    cases hB
    exact hA.firstOrder
  · rw [Scope.lookup_bind_of_ne Γ A hb] at hB
    exact h.types b B hB

theorem normalizes {t : Term} (ht : t.Elementary S) :
    ∃ u s', Normalizes t s u s' ∧ StillComparable S E ω Γ s s' ∧ u.Elementary S ∧
      Convertible E t u ∧ u.weight ω ≤ t.weight ω := by
  obtain ⟨u, s', hn, hw, hf, hle⟩ := h.weighs.normalizes ht.firstOrder
    ⟨ht.closed, ht.vars.mono h.tracks.minted⟩
  have hr := hn.reduces h.tracks ht.closed ht.vars
  exact ⟨u, s', hn, ⟨⟨h.finds.of_normalizes hn, hw, h.types⟩, hn.ages.supply⟩,
    ⟨hr.within h.tracks ht.toWithin, hf⟩, hr.convertible h.tracks.below, hle⟩

theorem peels {t : Term} (ht : t.Elementary S) :
    ∃ peeled u s' T ω', Peels t s peeled u s' ∧ Extension S E T (E.enter peeled) ∧
      Comparable T (E.enter peeled) ω' Γ s' ∧ (∀ b, S b → ω' b = ω b) ∧ u.Elementary T ∧
      Convertible (E.enter peeled) t u ∧ u.weight ω' ≤ t.weight ω := by
  obtain ⟨peeled, u, s', ω', hp, hw, hω, hf, hle⟩ := h.weighs.peels ht.firstOrder
    ⟨ht.closed, ht.vars.mono h.tracks.minted⟩
  obtain ⟨T, hleads, hfinds, hu⟩ := hp.finds h.finds ht.toWithin
  obtain ⟨_, hext, -, -, hconv⟩ := hp.extension h.tracks ht.toWithin
  exact ⟨peeled, u, s', T, ω', hp, ⟨hleads.subset, hext.mono, hext.conservative⟩,
    ⟨hfinds, hw, h.types⟩, fun b hb => hω b (h.tracks.minted b hb), ⟨hu, hf⟩, hconv, hle⟩

theorem head {t : Term} (ht : t.Elementary S) (hlet : t.isLet = false)
    (hfree : ∀ b, t = .free b → s.definitions.lookup b = none) :
    ∃ head, t.head? E = some head := by
  cases t with
  | bound i => exact absurd ht.closed (Nat.not_lt_zero i)
  | lam | app => exact ht.firstOrder.elim
  | letIn => cases hlet
  | free b => exact ⟨_, Term.head?_free.2 ⟨h.tracks.value_eq_none (hfree b rfl), rfl⟩⟩
  | pi | bool | boolType | type => exact ⟨_, rfl⟩

theorem typeOf {b : Binding} (hb : S b) (hE : E b = none) :
    Succeeds (fun _ => typeOf Γ b) s fun A s' => A.Elementary S ∧ s' = s := by
  have hnone := h.tracks.undefined b hb hE
  obtain ⟨A, hA⟩ := h.finds.exists_assumed hb hnone
  exact ⟨A, s, .typeOf hnone hA, ⟨(h.finds.records.context b A hA).2, h.types b A hA⟩, rfl⟩

end Comparable

/-! ## The rules -/

/-- Comparing first-order terms that weigh less than `n` together succeeds, and finds them equal if
they are convertible. Comparisons are made at the universe, or at no type. -/
def ComparesBelow (n : Nat) : Prop :=
  ∀ {S : Binding → Prop} {E : Values} {ω : Binding → Nat} {Γ : Context} {s : Store}
    {lhs rhs : Term} {ty : Option Term}, Comparable S E ω Γ s → lhs.Elementary S →
    rhs.Elementary S → ty = none ∨ ty = some .type → lhs.weight ω + rhs.weight ω < n →
    Succeeds (fun fuel => equate fuel Γ lhs rhs ty) s fun same s' =>
      StillComparable S E ω Γ s s' ∧ (Convertible E lhs rhs → same = true)

namespace ComparesBelow

variable {n : Nat} (hequal : ComparesBelow n) {S : Binding → Prop} {E : Values}
  {ω : Binding → Nat} {Γ : Context} {s : Store} (h : Comparable S E ω Γ s) {lhs rhs : Term}
include hequal h

theorem codomains (name : String) {A B B' : Term} (hA : A.Elementary S)
    (hB : (Term.lam B).Within S) (hf : B.FirstOrder) (hB' : (Term.lam B').Within S)
    (hf' : B'.FirstOrder) (hn : B.weightUnder ω 0 + B'.weightUnder ω 0 < n) :
    Succeeds (fun fuel => Check.locally (equate fuel (Γ.bind (s.supply.mint name).1 A)
        (B.openWith (s.supply.mint name).1) (B'.openWith (s.supply.mint name).1) (some .type)))
      { s with supply := (s.supply.mint name).2 } fun same s' => StillComparable S E ω Γ s s' ∧
        (Convertible E (B.openWith (s.supply.mint name).1) (B'.openWith (s.supply.mint name).1) →
          same = true) := by
  have hnew : s.supply.next ≤ (s.supply.mint name).1.id := Nat.le_refl _
  have hw := Term.weight_openWith ω hB.closed (h.tracks.over_ne (t := B) hB.vars hnew) 0
  have hw' := Term.weight_openWith ω hB'.closed (h.tracks.over_ne (t := B') hB'.vars hnew) 0
  have hinner := hequal (h.mint name hA).derive ⟨hB.openWith _, hf.openWith _⟩
    ⟨hB'.openWith _, hf'.openWith _⟩ (.inr rfl) (by rw [hw, hw']; exact hn)
  refine .locally (hinner.mono ?_)
  rintro same s' ⟨hs', hsame⟩
  exact ⟨h.restore (Nat.le_trans (Nat.le_succ _) hs'.supply), hsame⟩

/-- Function types are compared at a lower weight, first the domains and then the codomains. -/
theorem formations {name name' : String} {A A' B B' : Term} (hl : (Term.pi name A B).Elementary S)
    (hr : (Term.pi name' A' B').Elementary S)
    (hn : (Term.pi name A B).weight ω + (Term.pi name' A' B').weight ω ≤ n) :
    Succeeds (fun fuel => compareFormations (equate fuel) Γ (.pi name A B) (.pi name' A' B')) s
      fun found s' => StillComparable S E ω Γ s s' ∧
        (Convertible E (.pi name A B) (.pi name' A' B') → found.isSome = true) := by
  rw [Term.weight_pi, Term.weight_pi] at hn
  obtain ⟨hA, hB⟩ := Term.within_pi.1 hl.toWithin
  obtain ⟨hA', hB'⟩ := Term.within_pi.1 hr.toWithin
  have hE := h.tracks.below
  unfold compareFormations
  refine .bind (hequal h ⟨hA, hl.firstOrder.1⟩ ⟨hA', hr.firstOrder.1⟩ (.inr rfl) (by omega)) ?_
  rintro same s₁ ⟨h₁, hsame⟩
  cases same with
  | false => exact .pure ⟨h₁, fun hc => absurd (hsame (hc.pi_injective hE).1) (by simp)⟩
  | true =>
    refine .after (.mint s₁ name) (.bind (hequal.codomains h₁.comparable name
      ⟨hA, hl.firstOrder.1⟩ hB hl.firstOrder.2 hB' hr.firstOrder.2 (by omega)) ?_)
    rintro same' s₂ ⟨h₂, hsame'⟩
    refine .pure ⟨h₁.trans h₂, fun hc => ?_⟩
    obtain ⟨-, k, hcod⟩ := hc.pi_injective hE
    rw [hsame' (.instantiate hcod (.refl trivial))]
    rfl

theorem heads (hl : lhs.Elementary S) (hr : rhs.Elementary S) {head head' : Head}
    (hhead : lhs.head? E = some head) (hhead' : rhs.head? E = some head')
    (hn : lhs.weight ω + rhs.weight ω ≤ n) :
    Succeeds (fun fuel => compareHeads fuel (equate fuel) Γ lhs rhs) s fun found s' =>
      StillComparable S E ω Γ s s' ∧ (Convertible E lhs rhs → found.isSome = true) := by
  have hE := h.tracks.below
  -- Different heads are not convertible, and a comparison finds nothing.
  have hnone : (∀ fuel, compareHeads fuel (equate fuel) Γ lhs rhs = pure none) →
      ¬ rhs.Shape E head → Succeeds (fun fuel => compareHeads fuel (equate fuel) Γ lhs rhs) s
        fun found s' => StillComparable S E ω Γ s s' ∧
          (Convertible E lhs rhs → found.isSome = true) := by
    intro hnone hshape
    simp only [hnone]
    exact .pure ⟨h.refl, fun hc => absurd (hc.shape hE hhead hhead') hshape⟩
  cases lhs with
  | bound i => exact absurd hl.closed (Nat.not_lt_zero i)
  | lam | app => exact hl.firstOrder.elim
  | letIn => cases hhead
  | pi name A B =>
    cases hhead
    cases rhs with
    | pi name' A' B' => exact hequal.formations h hl hr hn
    | _ => exact hnone (fun _ => rfl) (by rintro ⟨_, _, _, he⟩; cases he)
  | boolType =>
    cases hhead
    cases rhs with
    | boolType => exact .pure ⟨h.refl, fun _ => rfl⟩
    | _ => exact hnone (fun _ => rfl) fun he => by cases he
  | type =>
    cases hhead
    cases rhs with
    | type => exact .pure ⟨h.refl, fun _ => rfl⟩
    | _ => exact hnone (fun _ => rfl) fun he => by cases he
  | bool value =>
    cases hhead
    by_cases he : rhs = .bool value
    · subst he
      simp only [compareHeads, if_true]
      exact .pure ⟨h.refl, fun _ => rfl⟩
    · exact hnone (fun _ => by rw [compareHeads, if_neg he]) he
  | free b =>
    obtain ⟨hb, rfl⟩ := Term.head?_free.1 hhead
    by_cases he : rhs = .free b
    · subst he
      simp only [compareHeads, if_true]
      refine .bind (h.typeOf hl.vars hb) ?_
      rintro A _ ⟨hA, rfl⟩
      obtain ⟨U, s', hU, hs', -⟩ := h.normalizes hA
      exact .after (.whnf hU) (.pure ⟨hs', fun _ => rfl⟩)
    · exact hnone (fun _ => by rw [compareHeads, if_neg he]) he

theorem normal (hl : lhs.Elementary S) (hr : rhs.Elementary S) {head head' : Head}
    (hhead : lhs.head? E = some head) (hhead' : rhs.head? E = some head') {ty : Option Term}
    (hty : ty = none ∨ ty = some .type) (hn : lhs.weight ω + rhs.weight ω ≤ n) :
    Succeeds (fun fuel => compareNormal fuel (equate fuel) Γ lhs rhs ty) s fun same s' =>
      StillComparable S E ω Γ s s' ∧ (Convertible E lhs rhs → same = true) := by
  have hheads : Succeeds (fun fuel => do
      return (← compareHeads fuel (equate fuel) Γ lhs rhs).isSome) s fun same s' =>
      StillComparable S E ω Γ s s' ∧ (Convertible E lhs rhs → same = true) :=
    .bind (hequal.heads h hl hr hhead hhead' hn) fun _ _ hs => .pure hs
  rcases hty with rfl | rfl
  · exact hheads
  · exact hheads

/-- Normal forms under `let`s are compared once the `let`s have been moved into the store, first
those on the left and then those on the right. -/
theorem underLets (hl : lhs.Elementary S) (hr : rhs.Elementary S) {ty : Option Term}
    (hty : ty = none ∨ ty = some .type) (hn : lhs.weight ω + rhs.weight ω ≤ n) :
    Succeeds (fun fuel => do
        let lhs ← headUnderLets fuel lhs
        let rhs ← headUnderLets fuel rhs
        let ty ← (ty.mapM (headUnderLets fuel) : Reduction (Option Term))
        compareNormal fuel (equate fuel) Γ lhs rhs ty) s fun same s' =>
      s.supply.next ≤ s'.supply.next ∧ (Convertible E lhs rhs → same = true) := by
  obtain ⟨p₁, l, s₁, T, ω₁, hp₁, hext₁, h₁, hω₁, hl₁, hlconv, hlle⟩ := h.peels hl
  have hr₁ : rhs.Elementary T := ⟨hr.toWithin.mono hext₁.subset, hr.firstOrder⟩
  have hrw : rhs.weight ω₁ = rhs.weight ω := Term.weight_congr hr.toWithin hω₁
  obtain ⟨p₂, r, s₂, U, ω₂, hp₂, hext₂, h₂, hω₂, hr₂, hrconv, hrle⟩ := h₁.peels hr₁
  have hl₂ : l.Elementary U := ⟨hl₁.toWithin.mono hext₂.subset, hl₁.firstOrder⟩
  have hlw : l.weight ω₂ = l.weight ω₁ := Term.weight_congr hl₁.toWithin hω₂
  -- The head on the left still shows: peeling the right defines new variables only.
  obtain ⟨head, hhead⟩ := h₂.head hl₂ hp₁.normal.1 fun b hb => by
    subst hb
    have hsome := hp₂.isSome_lookup_minted (h₁.tracks.minted b hl₁.vars)
    exact (Option.isSome_eq_isSome.1 hsome).2 (hp₁.normal.2 b rfl)
  obtain ⟨head', hhead'⟩ := h₂.head hr₂ hp₂.normal.1 hp₂.normal.2
  refine .after (.headUnderLets hp₁) (.after (.headUnderLets hp₂)
    (.after (.mapM hty (.headUnderLets (.head (.type s₂) rfl))) ?_))
  refine (hequal.normal h₂ hl₂ hr₂ hhead hhead' hty (by omega)).mono ?_
  rintro same s' ⟨hs', hsame⟩
  refine ⟨Nat.le_trans (Nat.le_trans hp₁.supply_le hp₂.supply_le) hs'.supply, fun hc => hsame ?_⟩
  exact ((hext₂.mono (hlconv.symm.trans (hext₁.mono hc))).trans hrconv)

theorem reduced (hl : lhs.Elementary S) (hr : rhs.Elementary S) {ty : Option Term}
    (hty : ty = none ∨ ty = some .type) (hn : lhs.weight ω + rhs.weight ω ≤ n) :
    Succeeds (fun fuel => compareReduced fuel (equate fuel) Γ lhs rhs ty) s fun same s' =>
      StillComparable S E ω Γ s s' ∧ (Convertible E lhs rhs → same = true) := by
  obtain ⟨l, s₁, hnl, h₁, hl₁, hlconv, hlle⟩ := h.normalizes hl
  obtain ⟨r, s₂, hnr, h₂, hr₁, hrconv, hrle⟩ := h₁.comparable.normalizes hr
  have hs := h₁.trans h₂
  have hconv : Convertible E lhs rhs → Convertible E l r := fun hc =>
    (hlconv.symm.trans hc).trans hrconv
  unfold compareReduced
  refine .after (.whnf hnl) (.after (.whnf hnr) (.after (.mapM hty (.whnf (.type s₂))) ?_))
  have htylet : ty.any Term.isLet = false := by rcases hty with rfl | rfl <;> rfl
  cases hlet : l.isLet || r.isLet with
  | true =>
    simp only [htylet, Bool.true_or, if_true]
    refine .locally ((hequal.underLets h₂.comparable.derive hl₁ hr₁ hty (by omega)).mono ?_)
    rintro same s' ⟨hle, hsame⟩
    exact ⟨hs.trans (h₂.comparable.restore hle), fun hc => hsame (hconv hc)⟩
  | false =>
    obtain ⟨hlet, hlet'⟩ := Bool.or_eq_false_iff.1 hlet
    obtain ⟨head, hhead⟩ := h₂.comparable.head hl₁ hlet fun b hb =>
      (Option.isSome_eq_isSome.1 (hnr.ages.isSome_lookup b)).2 (hnl.lookup_free hb)
    obtain ⟨head', hhead'⟩ := h₂.comparable.head hr₁ hlet' fun b hb => hnr.lookup_free hb
    simp only [htylet, Bool.or_false, Bool.false_eq_true, if_false]
    refine (hequal.normal h₂.comparable hl₁ hr₁ hhead hhead' hty (by omega)).mono ?_
    rintro same s' ⟨hs', hsame⟩
    exact ⟨hs.trans hs', fun hc => hsame (hconv hc)⟩

end ComparesBelow

/-- First-order terms are no applications, so they are reduced right away. -/
theorem comparesBelow (n : Nat) : ComparesBelow n := by
  induction n with
  | zero =>
    intro S E ω Γ s lhs rhs ty _ _ _ _ hn
    exact absurd hn (Nat.not_lt_zero _)
  | succ n ih =>
    intro S E ω Γ s lhs rhs ty h hl hr hty hn
    have hspines : ∀ fuel, compareSpines fuel (equate fuel) Γ lhs rhs = pure none := by
      intro fuel
      cases lhs with
      | app => exact hl.firstOrder.elim
      | _ => rfl
    refine .succ ?_
    simp only [equate, hspines, pure_bind]
    exact ih.reduced h hl hr hty (Nat.le_of_lt_succ hn)

/-- **Comparing first-order terms is total, and decides whether they are convertible.** -/
theorem equate_succeeds {S : Binding → Prop} {E : Values} {ω : Binding → Nat} {Γ : Context}
    {s : Store} {lhs rhs : Term} {ty : Option Term} (h : Comparable S E ω Γ s)
    (hl : lhs.Elementary S) (hr : rhs.Elementary S) (hty : ty = none ∨ ty = some .type) :
    ∃ same s', Ends (fun fuel => equate fuel Γ lhs rhs ty) s (.ok same) s' ∧
      (same = true ↔ Convertible E lhs rhs) := by
  obtain ⟨same, s', hends, -, hcomplete⟩ :=
    comparesBelow _ h hl hr hty (Nat.lt_succ_self _)
  refine ⟨same, s', hends, fun hsame => ?_, hcomplete⟩
  obtain ⟨N, hN⟩ := hends
  exact (equate_sound N (hN N (Nat.le_refl N))).sound hsame h.tracks hl.toWithin hr.toWithin

/-! ## What is decided -/

/-- The types in the context and the values in the store are first-order. -/
structure RecordsFirstOrder (Γ : Context) (s : Store) : Prop where
  assumed : ∀ b A, Γ.lookup b = some A → A.FirstOrder
  values : ∀ b d, s.definitions.lookup b = some d → d.value.FirstOrder

/-- **Comparing first-order terms decides whether their unfoldings are equal.** The terms are built
from the universe, the type of truth values, literals, function types, `let`s and variables, and so
is what the context and the store record. The definitions are acyclic, and nothing that is recorded
leads out of the records. Then both terms have an unfolding, and comparing them, at the universe or
at no type, ends without an error. The answer is `true` exactly if the unfoldings are equal up to
the names that function types carry for display. -/
theorem equate_decides_unfoldings {Γ : Context} {s : Store} (hscope : ScopeClosed Γ s)
    (hfirst : RecordsFirstOrder Γ s) (hacyclic : s.definitions.Acyclic) {lhs rhs : Term}
    (hl : lhs.FirstOrder) (hls : lhs.Within (Recorded Γ s)) (hr : rhs.FirstOrder)
    (hrs : rhs.Within (Recorded Γ s)) :
    (∃ l, lhs.Unfolds s.values l) ∧ (∃ r, rhs.Unfolds s.values r) ∧
      ∀ ty, ty = none ∨ ty = some .type →
        ∃ same s', Ends (fun fuel => equate fuel Γ lhs rhs ty) s (.ok same) s' ∧
          ∀ l r, lhs.Unfolds s.values l → rhs.Unfolds s.values r →
            (same = true ↔ l.eraseNames = r.eraseNames) := by
  have hrecords := hscope.records
  have hclosed : ∀ b v, s.values b = some v → v.LocallyClosed :=
    fun b v hv => (hrecords.tracks.values b v hv).2.1
  have hE := hrecords.tracks.below
  obtain ⟨ω, hω⟩ := hacyclic.exists_weights fun b d hd => (hscope.values b d hd).closed
  have hcomparable : Comparable (Recorded Γ s) s.values ω Γ s :=
    ⟨⟨hrecords, fun _ hb => hb⟩,
      ⟨hrecords.tracks.wellScoped fun b d hd => (hrecords.definitions b d hd).1, hfirst.values, hω⟩,
      hfirst.assumed⟩
  have hunfolds : ∀ {t : Term}, t.FirstOrder → t.LocallyClosed → ∃ u, t.Unfolds s.values u := by
    intro t ht htc
    refine Term.exists_unfolds hE (ω := ω) (fun b v hv => ?_) hclosed (fun b v hv => ?_) ht htc
    · obtain ⟨d, hd, rfl⟩ := Option.map_eq_some_iff.1 hv
      exact hfirst.values b d hd
    · obtain ⟨d, hd, rfl⟩ := Option.map_eq_some_iff.1 hv
      exact hω b d hd
  refine ⟨hunfolds hl hls.closed, hunfolds hr hrs.closed, fun ty hty => ?_⟩
  obtain ⟨same, s', hends, hsame⟩ := equate_succeeds hcomparable ⟨hls, hl⟩ ⟨hrs, hr⟩ hty
  refine ⟨same, s', hends, fun l r hlu hru => ?_⟩
  have hlconv := hlu.convertible hclosed hls.closed
  have hrconv := hru.convertible hclosed hrs.closed
  rw [hsame, ← hlu.unfolded.2.convertible_iff hE hlu.unfolded.1 hru.unfolded.2 hru.unfolded.1]
  exact ⟨fun hc => (hlconv.symm.trans hc).trans hrconv,
    fun hc => (hlconv.trans hc).trans hrconv.symm⟩

/-- A type `x` is assumed. -/
def typeContext : Context := { inner := [(⟨0, "x"⟩, .type)] }

/-- The type of the functions from `x` to `x`. -/
def selfMaps (name : String) : Term := .pi name (.free ⟨0, "x"⟩) (.free ⟨0, "x"⟩)

/-- A `let` around a function type, for the variable `d`. -/
def nestedValue : Term :=
  .letIn "t" .type (.free ⟨1, "d"⟩) (.pi "r" (.bound 0) (.bound 1))

/-- Two definitions, of which the second uses the first in a `let`. -/
def nestedStore : Store where
  definitions := (Scope.bind {} ⟨1, "d"⟩ ⟨selfMaps "p", .type⟩).bind ⟨2, "e"⟩ ⟨nestedValue, .type⟩
  supply := ⟨3⟩

theorem lookup_nestedStore {b : Binding} {d : Definition}
    (h : nestedStore.definitions.lookup b = some d) :
    b = ⟨1, "d"⟩ ∧ d = ⟨selfMaps "p", .type⟩ ∨ b = ⟨2, "e"⟩ ∧ d = ⟨nestedValue, .type⟩ := by
  by_cases he : b = ⟨2, "e"⟩
  · subst he
    cases h
    exact .inr ⟨rfl, rfl⟩
  · by_cases hd : b = ⟨1, "d"⟩
    · subst hd
      cases h
      exact .inl ⟨rfl, rfl⟩
    · rw [nestedStore, Scope.lookup_bind_of_ne _ _ he, Scope.lookup_bind_of_ne _ _ hd] at h
      cases h

theorem nestedStore_scopeClosed : ScopeClosed typeContext nestedStore := by
  have hx : Recorded typeContext nestedStore ⟨0, "x"⟩ := .inl rfl
  have hd : Recorded typeContext nestedStore ⟨1, "d"⟩ := .inr rfl
  refine ⟨fun b hb => ?_, fun b A hA => ?_, fun b d h => ?_, fun b d h => ?_⟩
  · rcases hb with hb | hb
    · obtain ⟨A, hA⟩ := Option.isSome_iff_exists.1 hb
      obtain ⟨rfl, -⟩ := Scope.lookup_singleton hA
      exact Nat.zero_lt_succ _
    · obtain ⟨d, hd⟩ := Option.isSome_iff_exists.1 hb
      rcases lookup_nestedStore hd with ⟨rfl, -⟩ | ⟨rfl, -⟩
      · exact Nat.one_lt_succ_succ _
      · exact Nat.lt_succ_self _
  · obtain ⟨-, rfl⟩ := Scope.lookup_singleton hA
    exact ⟨trivial, trivial⟩
  · rcases lookup_nestedStore h with ⟨-, rfl⟩ | ⟨-, rfl⟩
    · exact ⟨trivial, trivial⟩
    · exact ⟨trivial, trivial⟩
  · rcases lookup_nestedStore h with ⟨-, rfl⟩ | ⟨-, rfl⟩
    · exact ⟨⟨trivial, trivial⟩, hx, hx⟩
    · exact ⟨by decide, trivial, hd, trivial, trivial⟩

theorem nestedStore_acyclic : nestedStore.definitions.Acyclic := by
  refine Definitions.acyclic_of_lt Binding.id fun b c h => ?_
  obtain ⟨d, hd, hc⟩ := h
  rcases lookup_nestedStore hd with ⟨rfl, rfl⟩ | ⟨rfl, rfl⟩
  · by_cases hx : (⟨0, "x"⟩ : Binding) = c
    · subst hx
      exact Nat.zero_lt_one
    · simp [selfMaps, Term.usage, hx] at hc
  · by_cases hx : (⟨1, "d"⟩ : Binding) = c
    · subst hx
      exact Nat.one_lt_two
    · simp [nestedValue, Term.usage, hx] at hc

theorem unfolds_pi {name : String} {A A' B B' : Term} (hB : B.usage ⟨3, ""⟩ = 0)
    (hB' : B'.usage ⟨3, ""⟩ = 0) (hA : A.Unfolds nestedStore.values A')
    (hopen : (B.openWith ⟨3, ""⟩).Unfolds nestedStore.values (B'.openWith ⟨3, ""⟩)) :
    (Term.pi name A B).Unfolds nestedStore.values (.pi name A' B') :=
  .pi (nestedStore_scopeClosed.records.tracks.below.fresh (Nat.le_refl _))
    (Term.usage_eq_zero_iff.1 hB) (Term.usage_eq_zero_iff.1 hB') hA hopen

theorem unfolds_selfMaps (name : String) :
    (selfMaps name).Unfolds nestedStore.values (selfMaps name) :=
  unfolds_pi rfl rfl (.undefined rfl) (.undefined rfl)

theorem unfolds_nested : (Term.free ⟨1, "d"⟩).Unfolds nestedStore.values (selfMaps "p") :=
  .defined rfl (unfolds_selfMaps "p")

/-- A function type with a definition as domain and a `let` under its binder, whose value has
another `let` inside, is found to be the function type that it unfolds to, under other names. -/
theorem equate_decides_unfoldings_nested :
    let lhs : Term := .pi "a" (.free ⟨1, "d"⟩) (.letIn "y" .type (.free ⟨2, "e"⟩) (.bound 0))
    let rhs : Term := .pi "b" (selfMaps "q") (.pi "s" (selfMaps "u") (.free ⟨1, "d"⟩))
    ScopeClosed typeContext nestedStore ∧ RecordsFirstOrder typeContext nestedStore ∧
      nestedStore.definitions.Acyclic ∧ lhs.FirstOrder ∧
      lhs.Within (Recorded typeContext nestedStore) ∧ rhs.FirstOrder ∧
      rhs.Within (Recorded typeContext nestedStore) ∧
      ∃ s', Ends (fun fuel => equate fuel typeContext lhs rhs (some .type)) nestedStore (.ok true)
        s' := by
  intro lhs rhs
  have hx : Recorded typeContext nestedStore ⟨0, "x"⟩ := .inl rfl
  have hd : Recorded typeContext nestedStore ⟨1, "d"⟩ := .inr rfl
  have he : Recorded typeContext nestedStore ⟨2, "e"⟩ := .inr rfl
  have hfirst : RecordsFirstOrder typeContext nestedStore := by
    refine ⟨fun b A hA => ?_, fun b d hd => ?_⟩
    · obtain ⟨-, rfl⟩ := Scope.lookup_singleton hA
      trivial
    · rcases lookup_nestedStore hd with ⟨-, rfl⟩ | ⟨-, rfl⟩
      · exact ⟨trivial, trivial⟩
      · exact ⟨trivial, trivial, trivial, trivial⟩
  have hl : lhs.FirstOrder := ⟨trivial, trivial, trivial, trivial⟩
  have hr : rhs.FirstOrder := ⟨⟨trivial, trivial⟩, ⟨trivial, trivial⟩, trivial⟩
  have hls : lhs.Within (Recorded typeContext nestedStore) :=
    ⟨by decide, hd, trivial, he, trivial⟩
  have hrs : rhs.Within (Recorded typeContext nestedStore) :=
    ⟨by decide, ⟨hx, hx⟩, ⟨hx, hx⟩, hd⟩
  obtain ⟨-, -, hdecides⟩ := equate_decides_unfoldings nestedStore_scopeClosed hfirst
    nestedStore_acyclic hl hls hr hrs
  obtain ⟨same, s', hends, hsame⟩ := hdecides (some .type) (.inr rfl)
  have hlu : lhs.Unfolds nestedStore.values
      (.pi "a" (selfMaps "p") (.pi "r" (selfMaps "p") (selfMaps "p"))) :=
    unfolds_pi rfl rfl unfolds_nested (.letIn (.defined rfl (.letIn
      (unfolds_pi rfl rfl unfolds_nested unfolds_nested))))
  have hru : rhs.Unfolds nestedStore.values
      (.pi "b" (selfMaps "q") (.pi "s" (selfMaps "u") (selfMaps "p"))) :=
    unfolds_pi rfl rfl (unfolds_selfMaps "q")
      (unfolds_pi rfl rfl (unfolds_selfMaps "u") unfolds_nested)
  obtain rfl : same = true := (hsame _ _ hlu hru).2 rfl
  exact ⟨nestedStore_scopeClosed, hfirst, nestedStore_acyclic, hl, hls, hr, hrs, s', hends⟩

end DepLang
