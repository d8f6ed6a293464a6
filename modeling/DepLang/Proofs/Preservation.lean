import DepLang.Proofs.Footprint

/-!
# What normalisation keeps

A term means what its normal form means, and a definition what is remembered in its place. Meaning
is `ComputationallyEqual E`, the congruence generated by beta, delta and zeta. It is `Convertible`
without eta, and it keeps the names that `pi` and `let` carry for display.

* `Reduces.computationallyEqual`: reduction stays in this theory. It is stated under a substitution
  that respects the definitions. In the body of a `let` one more variable is defined, and the
  substitution puts the value in its place, so what is equal inside is equal outside of the `let`.
* `whnf_preserves_meaning`: a run reduces the term, and remembers reducts of the values.

Normalisation also closes what it opens (`whnf_closes_what_it_opens`). The variables of `let`s that
it mints get no further than the derived scopes they are defined in: neither the normal form nor any
value that is left mentions one of them, since both are over variables that were there before.
-/
namespace DepLang

/-! ## Equality by computation -/

/-- A step of computation at the root of a term; `E` gives the definitions. -/
inductive Computes (E : Values) : Term → Term → Prop where
  | beta {body a : Term} : (Term.lam body).LocallyClosed → a.LocallyClosed →
      Computes E (.app (.lam body) a) (body.instantiate a)
  | delta {b : Binding} {v : Term} : E b = some v → v.LocallyClosed → Computes E (.free b) v
  | zeta {name : String} {A v body : Term} : (Term.letIn name A v body).LocallyClosed →
      Computes E (.letIn name A v body) (body.instantiate v)

/-- The least congruence on terms without dangling indices that contains the steps of computation.
Under a binder it speaks of all variables from some identity on. -/
inductive ComputationallyEqual (E : Values) : Term → Term → Prop where
  | step {t u : Term} : Computes E t u → ComputationallyEqual E t u
  | refl {t : Term} : t.LocallyClosed → ComputationallyEqual E t t
  | symm {t u : Term} : ComputationallyEqual E t u → ComputationallyEqual E u t
  | trans {t u v : Term} : ComputationallyEqual E t u → ComputationallyEqual E u v →
      ComputationallyEqual E t v
  | lam {t u : Term} (n : Nat) :
      (∀ b : Binding, n ≤ b.id → ComputationallyEqual E (t.openWith b) (u.openWith b)) →
      ComputationallyEqual E (.lam t) (.lam u)
  | pi {name : String} {A A' B B' : Term} (n : Nat) : ComputationallyEqual E A A' →
      (∀ b : Binding, n ≤ b.id → ComputationallyEqual E (B.openWith b) (B'.openWith b)) →
      ComputationallyEqual E (.pi name A B) (.pi name A' B')
  | app {f f' a a' : Term} : ComputationallyEqual E f f' → ComputationallyEqual E a a' →
      ComputationallyEqual E (.app f a) (.app f' a')
  | letIn {name : String} {A A' v v' t u : Term} (n : Nat) : ComputationallyEqual E A A' →
      ComputationallyEqual E v v' →
      (∀ b : Binding, n ≤ b.id → ComputationallyEqual E (t.openWith b) (u.openWith b)) →
      ComputationallyEqual E (.letIn name A v t) (.letIn name A' v' u)

namespace ComputationallyEqual

variable {E : Values}

instance : Trans (ComputationallyEqual E) (ComputationallyEqual E) (ComputationallyEqual E) :=
  ⟨ComputationallyEqual.trans⟩

theorem instantiate_right {t a a' : Term} (ht : t.ClosedAt 1) (hlc : a.LocallyClosed)
    (hlc' : a'.LocallyClosed) (ha : ComputationallyEqual E a a') :
    ComputationallyEqual E (t.instantiate a) (t.instantiate a') :=
  calc ComputationallyEqual E (t.instantiate a) (.app (.lam t) a) := (step (.beta ht hlc)).symm
    ComputationallyEqual E _ (.app (.lam t) a') := .app (.refl ht) ha
    ComputationallyEqual E _ (t.instantiate a') := .step (.beta ht hlc')

end ComputationallyEqual

/-- **Reduction is computation**, under a substitution that turns defined variables into terms equal
to what it makes of their values. -/
theorem Reduces.computationallyEqual {E : Values} {t u : Term} (h : Reduces E t u) {m : Nat}
    (hE : E.Below m) {F : Values} {σ : Binding → Term} (hlc : ∀ b, (σ b).LocallyClosed)
    (hσ : ∀ b v, E b = some v → v.LocallyClosed → ComputationallyEqual F (σ b) (v.substAll σ)) :
    ComputationallyEqual F (t.substAll σ) (u.substAll σ) := by
  induction h generalizing m σ with
  | refl ht => exact .refl (ht.substAll hlc)
  | trans _ _ ih₁ ih₂ => exact (ih₁ hE hlc hσ).trans (ih₂ hE hlc hσ)
  | delta hb hv => exact hσ _ _ hb hv
  | beta hb ha =>
    rw [Term.substAll_instantiate hlc]
    exact .step (.beta (Term.ClosedAt.substAll hb hlc) (ha.substAll hlc))
  | app _ _ ihf iha => exact .app (ihf hE hlc hσ) (iha hE hlc hσ)
  | @letIn E name A A' v v' t u n hA hv ht ihA ihv iht =>
    have hl := (letIn n hA hv ht : Reduces E (.letIn name A v t) _).locallyClosed
    have hlσ := hl.1.substAll hlc
    have hlσ' := hl.2.substAll hlc
    obtain ⟨k, hk⟩ := v.exists_below
    obtain ⟨b, hb, htb, hub⟩ := t.exists_fresh u (max n (max m k))
    have hvb : v.Over (· ≠ b) := hk.ne (by omega)
    -- The variable of the `let` is replaced by the value, and then the others are.
    have hclosed : ∀ c, ((Term.only b v c).substAll σ).LocallyClosed := fun c =>
      (Term.only_locallyClosed hl.1.2.1 c).substAll hlc
    have hbody := iht b (by omega)
      ((hE.mono (show m ≤ max (b.id + 1) k by omega)).define (by omega) (hk.mono (by omega)))
      hclosed (Values.forall_define (fun hw => by
        rw [← Term.substAll_substAll, Term.only_self, Term.substAll_only_of_fresh hvb]
        exact .refl (hw.substAll hlc)) fun c w hcb hc hw => by
        rw [← Term.substAll_substAll, Term.only_of_ne v hcb,
          Term.substAll_only_of_fresh ((hE.fresh (by omega)).2 c w hc)]
        exact hσ c w hc hw)
    rw [← Term.substAll_substAll, ← Term.substAll_substAll,
      ← Term.instantiate_eq_substAll htb hl.1.2.1, ← Term.instantiate_eq_substAll hub hl.1.2.1,
      Term.substAll_instantiate hlc, Term.substAll_instantiate hlc] at hbody
    have hzeta : ComputationallyEqual F ((Term.letIn name A v t).substAll σ)
        ((t.substAll σ).instantiate (v.substAll σ)) := .step (.zeta hlσ)
    have hzeta' : ComputationallyEqual F ((Term.letIn name A' v' u).substAll σ)
        ((u.substAll σ).instantiate (v'.substAll σ)) := .step (.zeta hlσ')
    calc ComputationallyEqual F _ ((t.substAll σ).instantiate (v.substAll σ)) := hzeta
      ComputationallyEqual F _ ((u.substAll σ).instantiate (v.substAll σ)) := hbody
      ComputationallyEqual F _ ((u.substAll σ).instantiate (v'.substAll σ)) :=
        .instantiate_right hlσ'.2.2 hlσ.2.1 hlσ'.2.1 (ihv hE hlc hσ)
      ComputationallyEqual F _ ((Term.letIn name A' v' u).substAll σ) := hzeta'.symm
  | @drop E name A v t hA hv ht =>
    have hlet : (Term.letIn name A v t).LocallyClosed :=
      ⟨hA, hv, Term.ClosedAt.mono ht (Nat.zero_le 1)⟩
    have hzeta : ComputationallyEqual F ((Term.letIn name A v t).substAll σ)
        ((t.substAll σ).instantiate (v.substAll σ)) := .step (.zeta (hlet.substAll hlc))
    rwa [(ht.substAll hlc).instantiate_eq] at hzeta

/-! ## Runs -/

/-- **Normalisation preserves meaning.** Take a term without dangling indices, and definitions whose
values have none; cyclic ones are allowed, and so are terms without a type. A term that has a normal
form is equal to it by beta, delta and zeta, with the definitions as they were before the run. The
run leaves a definition for each variable that had one, and for no other, with the same type and an
equal value. -/
theorem whnf_preserves_meaning {fuel : Nat} {t u : Term} {s s' : Store} (hs : s.WellScoped)
    (hlc : t.LocallyClosed) (ht : t.Below s.supply.next) (h : whnf fuel t s = some (u, s')) :
    ComputationallyEqual s.values t u ∧
      ∀ b, Option.Rel (fun d d' => d'.ty = d.ty ∧ ComputationallyEqual s.values d.value d'.value)
        (s.definitions.lookup b) (s'.definitions.lookup b) := by
  have hn := normalizes_of_whnf h
  have hequal : ∀ {t u : Term}, Reduces s.values t u → ComputationallyEqual s.values t u := by
    intro t u hr
    have hσ := hr.computationallyEqual hs.tracks.below Term.locallyClosed_free
      (fun b v hb hv => by
        rw [Term.substAll_free]
        exact .step (.delta hb hv))
    rwa [Term.substAll_free, Term.substAll_free] at hσ
  refine ⟨hequal (hn.reduces hs.tracks hlc ht), fun b => ?_⟩
  have htypes := hn.ages.types b
  cases hd : s.definitions.lookup b with
  | none =>
    rw [hd] at htypes
    rw [Option.map_eq_none_iff.1 htypes]
    exact .none
  | some d =>
    obtain ⟨d', hd', hr⟩ := (hn.tracks hs.tracks).defined b d.value (by simp [Store.values, hd])
    rw [hd, hd', Option.map_some, Option.map_some, Option.some_inj] at htypes
    rw [hd']
    exact .some ⟨htypes, hequal hr⟩

/-- `f` is defined by `value`, `loop` by a function that calls `loop`, and `y` has no definition. -/
def loopingStore (value : Term) (next : Nat) : Store where
  definitions := { inner := [
    (⟨0, "f"⟩, ⟨value, .pi "x" .boolType .boolType⟩),
    (⟨1, "loop"⟩, ⟨.lam (.app (.free ⟨1, "loop"⟩) (.bound 0)), .pi "x" .boolType .boolType⟩)] }
  supply := ⟨next⟩

/-- The identity, applied to itself. -/
def selfApplied : Term := .app (.lam (.bound 0)) (.lam (.bound 0))

theorem loopingStore_wellScoped : (loopingStore selfApplied 3).WellScoped := by
  have hentries : ∀ b d, (loopingStore selfApplied 3).definitions.lookup b = some d →
      b.id < 3 ∧ d.value.LocallyClosed ∧ d.value.Below 3 := by
    intro b d hd
    have hmem : (b, d) ∈ (loopingStore selfApplied 3).definitions.inner :=
      Scope.mem_bindings.2 hd
    simp only [loopingStore, List.mem_cons, Prod.mk.injEq, List.not_mem_nil, or_false] at hmem
    rcases hmem with ⟨rfl, rfl⟩ | ⟨rfl, rfl⟩ <;>
      simp [selfApplied, Term.LocallyClosed, Term.ClosedAt, Term.Below, Term.Over]
  exact ⟨fun b d hd => (hentries b d hd).1, fun b d hd => (hentries b d hd).2.1,
    fun b d hd => (hentries b d hd).2.2⟩

/-- `let x : Bool := f true in y (λ. loop x) (let z : Bool := x in f z)`. -/
def nestedLets : Term :=
  .letIn "x" .boolType (.app (.free ⟨0, "f"⟩) (.bool true))
    (.app (.app (.free ⟨2, "y"⟩) (.lam (.app (.free ⟨1, "loop"⟩) (.bound 1))))
      (.letIn "z" .boolType (.bound 0) (.app (.free ⟨0, "f"⟩) (.bound 0))))

theorem nestedLets_minted : nestedLets.LocallyClosed ∧ nestedLets.Below 3 := by
  simp [nestedLets, Term.LocallyClosed, Term.ClosedAt, Term.Below, Term.Over]

/-- `let x : Bool := true in y (λ. loop x) true`. -/
def liveLet : Term :=
  .letIn "x" .boolType (.bool true)
    (.app (.app (.free ⟨2, "y"⟩) (.lam (.app (.free ⟨1, "loop"⟩) (.bound 1)))) (.bool true))

/-- The outer `let` stays for the function that uses its variable. The inner one goes, and `f` is
remembered as the identity. -/
theorem whnf_nestedLets : whnf 6 nestedLets (loopingStore selfApplied 3) =
    some (liveLet, loopingStore (.lam (.bound 0)) 5) := rfl

theorem whnf_preserves_meaning_remembered :
    let s := loopingStore selfApplied 3
    s.WellScoped ∧ nestedLets.LocallyClosed ∧ nestedLets.Below 3 ∧
      whnf 6 nestedLets s = some (liveLet, loopingStore (.lam (.bound 0)) 5) ∧
      ComputationallyEqual s.values nestedLets liveLet ∧
      ComputationallyEqual s.values selfApplied (.lam (.bound 0)) := by
  intro s
  obtain ⟨hlc, ht⟩ := nestedLets_minted
  have hkept := whnf_preserves_meaning loopingStore_wellScoped hlc ht whnf_nestedLets
  exact ⟨loopingStore_wellScoped, hlc, ht, whnf_nestedLets, hkept.1,
    (Option.rel_some_some.1 (hkept.2 ⟨0, "f"⟩)).2⟩

/-- The binding was minted on the way from one store to the other. -/
def Store.Mints (s s' : Store) (b : Binding) : Prop := s.supply.next ≤ b.id ∧ b.id < s'.supply.next

/-- **Normalisation closes what it opens.** The normal form of a term without dangling indices has
none, where the values of definitions have none. Each of its variables occurs in the term or in the
value of a definition. A binding that the run minted occurs neither in the normal form nor in the
value of a definition that is left, and none is left for it. -/
theorem whnf_closes_what_it_opens {fuel : Nat} {t u : Term} {s s' : Store} (hs : s.WellScoped)
    (hlc : t.LocallyClosed) (ht : t.Below s.supply.next) (h : whnf fuel t s = some (u, s')) :
    u.LocallyClosed ∧
      (∀ b, u.usage b ≠ 0 →
        t.usage b ≠ 0 ∨ ∃ c d, s.definitions.lookup c = some d ∧ d.value.usage b ≠ 0) ∧
      ∀ b, s.Mints s' b → u.usage b = 0 ∧ s'.definitions.lookup b = none ∧
        ∀ c d, s'.definitions.lookup c = some d → d.value.usage b = 0 := by
  have hn := normalizes_of_whnf h
  refine ⟨(hs.minted_of_normalizes hn ⟨hlc, ht⟩).closed, fun b hb => ?_, fun b hb => ?_⟩
  · -- What occurs in the term or in a value is closed under looking up values.
    have hvalues : s.Encloses fun b =>
        t.usage b ≠ 0 ∨ ∃ c d, s.definitions.lookup c = some d ∧ d.value.usage b ≠ 0 :=
      fun c d hd _ => d.value.over_usage.mono fun b hb => .inr ⟨c, d, hd, hb⟩
    exact ((hn.confined hvalues).2 (t.over_usage.mono fun _ => .inl)).1.of_usage hb
  · -- So are the bindings that had been minted before.
    have hminted : s.Encloses fun b => b.id < s.supply.next := fun c d hd _ => hs.below c d hd
    obtain ⟨hconfined, hu⟩ := hn.confined hminted
    refine ⟨Term.usage_eq_zero_iff.2 (Term.Below.ne (hu ht).1 hb.1), ?_, fun c d hd => ?_⟩
    · cases hd : s'.definitions.lookup b with
      | none => rfl
      | some d =>
        obtain ⟨e, he, -⟩ := hn.ages.lookup_eq_some hd
        exact absurd (hs.keys b e he) (Nat.not_lt.2 hb.1)
    · obtain ⟨e, he, hstay⟩ := hconfined.values c d hd
      exact Term.usage_eq_zero_iff.2 (Term.Below.ne (hstay (hs.below c e he)) hb.1)

/-- The bindings of both `let`s are gone. -/
theorem whnf_closes_what_it_opens_nested :
    let s := loopingStore selfApplied 3
    let s' := loopingStore (.lam (.bound 0)) 5
    s.WellScoped ∧ nestedLets.LocallyClosed ∧ nestedLets.Below 3 ∧
      whnf 6 nestedLets s = some (liveLet, s') ∧ liveLet.LocallyClosed ∧
      (∀ b, liveLet.usage b ≠ 0 → nestedLets.usage b ≠ 0 ∨
        ∃ c d, s.definitions.lookup c = some d ∧ d.value.usage b ≠ 0) ∧
      ∀ b ∈ [(⟨3, "x"⟩ : Binding), ⟨4, "z"⟩], liveLet.usage b = 0 ∧
        s'.definitions.lookup b = none ∧
        ∀ c d, s'.definitions.lookup c = some d → d.value.usage b = 0 := by
  intro s s'
  obtain ⟨hlc, ht⟩ := nestedLets_minted
  obtain ⟨hclosed, hvars, hminted⟩ :=
    whnf_closes_what_it_opens loopingStore_wellScoped hlc ht whnf_nestedLets
  refine ⟨loopingStore_wellScoped, hlc, ht, whnf_nestedLets, hclosed, hvars, fun b hb => ?_⟩
  apply hminted
  simp only [List.mem_cons, List.not_mem_nil, or_false] at hb
  rcases hb with rfl | rfl <;> simp [Store.Mints, loopingStore]

end DepLang
