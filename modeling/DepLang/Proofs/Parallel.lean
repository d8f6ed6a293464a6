import DepLang.Proofs.Convertible

/-!
# Parallel reduction

`Par E t u` contracts any number of beta, delta, zeta and eta redexes that stand in `t` side by side
or nested, all at once. It lies between one step of reduction and many, and unlike both it has the
diamond property: two parallel steps from one term can be brought together by one more step each
(`Par.diamond`). The next module turns that into the theorem of Church and Rosser.

Display names may change in a step, since convertibility ignores them.

The proof of the diamond property is by induction on the size of the term, which opening a binder
does not change (`Term.size_openWith`). Only two pairs of rules overlap.

* A function that is an eta redex may also be reduced inside. Then the step inside is one in the
  function that eta leaves, or else it contracts a beta redex that eta leaves a copy of
  (`Par.expansion_cases`).
* A function that is applied may be reduced on its own, or together with the application. If it is
  reduced by eta, the same case analysis applies once more.
-/
namespace DepLang

namespace Term

/-- The number of nodes. -/
def size : Term → Nat
  | lam body => size body + 1
  | pi _ domain codomain => size domain + size codomain + 1
  | app function argument => size function + size argument + 1
  | letIn _ ty value body => size ty + size value + size body + 1
  | bound _ | free _ | bool _ | boolType | type => 1

theorem size_replaceAt_free (t : Term) (b : Binding) (k : Nat) :
    (replaceAt (free b) k t).size = t.size := by
  induction t generalizing k with
  | bound i => unfold replaceAt; split <;> rfl
  | free | bool | boolType | type => rfl
  | lam _ ih => simp [replaceAt, size, ih]
  | pi _ _ _ ihd ihc => simp [replaceAt, size, ihd, ihc]
  | app _ _ ihf iha => simp [replaceAt, size, ihf, iha]
  | letIn _ _ _ _ iht ihv ihb => simp [replaceAt, size, iht, ihv, ihb]

@[simp] theorem size_openWith (t : Term) (b : Binding) : (t.openWith b).size = t.size :=
  size_replaceAt_free t b 0

end Term

/-- One step that contracts any number of redexes at once. -/
inductive Par (E : Values) : Term → Term → Prop where
  | free {b : Binding} : Par E (.free b) (.free b)
  | bool {value : Bool} : Par E (.bool value) (.bool value)
  | boolType : Par E .boolType .boolType
  | type : Par E .type .type
  | lam {t u : Term} (n : Nat) :
      (∀ b : Binding, n ≤ b.id → Par E (t.openWith b) (u.openWith b)) → Par E (.lam t) (.lam u)
  | pi {name name' : String} {A A' B B' : Term} (n : Nat) : Par E A A' →
      (∀ b : Binding, n ≤ b.id → Par E (B.openWith b) (B'.openWith b)) →
      Par E (.pi name A B) (.pi name' A' B')
  | app {f f' a a' : Term} : Par E f f' → Par E a a' → Par E (.app f a) (.app f' a')
  | letIn {name name' : String} {A A' v v' t u : Term} (n : Nat) : Par E A A' → Par E v v' →
      (∀ b : Binding, n ≤ b.id → Par E (t.openWith b) (u.openWith b)) →
      Par E (.letIn name A v t) (.letIn name' A' v' u)
  | beta {t u a a' : Term} (n : Nat) :
      (∀ b : Binding, n ≤ b.id → Par E (t.openWith b) (u.openWith b)) → Par E a a' →
      Par E (.app (.lam t) a) (u.instantiate a')
  | delta {b : Binding} {v : Term} : E b = some v → v.LocallyClosed → Par E (.free b) v
  | zeta {name : String} {A v v' t u : Term} (n : Nat) : A.LocallyClosed → Par E v v' →
      (∀ b : Binding, n ≤ b.id → Par E (t.openWith b) (u.openWith b)) →
      Par E (.letIn name A v t) (u.instantiate v')
  | eta {f f' : Term} : Par E f f' → Par E (.lam (.app f (.bound 0))) f'

namespace Par

variable {E : Values}

theorem locallyClosed {t u : Term} (h : Par E t u) : t.LocallyClosed ∧ u.LocallyClosed := by
  induction h with
  | free | bool | boolType | type => exact ⟨trivial, trivial⟩
  | lam n _ ih =>
    have := ih ⟨n, ""⟩ (Nat.le_refl n)
    exact ⟨.of_openWith this.1, .of_openWith this.2⟩
  | pi n _ _ ihA ihB =>
    have := ihB ⟨n, ""⟩ (Nat.le_refl n)
    exact ⟨⟨ihA.1, .of_openWith this.1⟩, ⟨ihA.2, .of_openWith this.2⟩⟩
  | app _ _ ihf iha => exact ⟨⟨ihf.1, iha.1⟩, ⟨ihf.2, iha.2⟩⟩
  | letIn n _ _ _ ihA ihv iht =>
    have := iht ⟨n, ""⟩ (Nat.le_refl n)
    exact ⟨⟨ihA.1, ihv.1, .of_openWith this.1⟩, ⟨ihA.2, ihv.2, .of_openWith this.2⟩⟩
  | @beta t u a a' n _ _ iht iha =>
    have := iht ⟨n, ""⟩ (Nat.le_refl n)
    exact ⟨⟨.of_openWith (t := t) this.1, iha.1⟩, .instantiate (.of_openWith this.2) iha.2⟩
  | delta _ hv => exact ⟨trivial, hv⟩
  | zeta n hA _ _ ihv iht =>
    have := iht ⟨n, ""⟩ (Nat.le_refl n)
    exact ⟨⟨hA, ihv.1, .of_openWith this.1⟩, .instantiate (.of_openWith this.2) ihv.2⟩
  | eta _ ih => exact ⟨⟨Term.ClosedAt.mono ih.1 (Nat.zero_le 1), Nat.zero_lt_one⟩, ih.2⟩

theorem refl {t : Term} (ht : t.LocallyClosed) : Par E t t := by
  induction hk : t.size using Nat.strongRecOn generalizing t with
  | ind k ih =>
    subst hk
    have under : ∀ {t' : Term}, t'.size < t.size → t'.ClosedAt 1 →
        ∀ b : Binding, 0 ≤ b.id → Par E (t'.openWith b) (t'.openWith b) :=
      fun hlt hc b _ => ih _ (by rwa [Term.size_openWith]) (hc.openWith b) rfl
    cases t with
    | bound i => exact absurd ht (Nat.not_lt_zero i)
    | free => exact .free
    | bool => exact .bool
    | boolType => exact .boolType
    | type => exact .type
    | lam body => exact .lam 0 (under (by simp [Term.size]) ht)
    | pi name A B =>
      exact .pi 0 (ih _ (by simp only [Term.size]; omega) ht.1 rfl)
        (under (by simp only [Term.size]; omega) ht.2)
    | app f a =>
      exact .app (ih _ (by simp only [Term.size]; omega) ht.1 rfl)
        (ih _ (by simp only [Term.size]; omega) ht.2 rfl)
    | letIn name A v body =>
      exact .letIn 0 (ih _ (by simp only [Term.size]; omega) ht.1 rfl)
        (ih _ (by simp only [Term.size]; omega) ht.2.1 rfl)
        (under (by simp only [Term.size]; omega) ht.2.2)

theorem convertible {t u : Term} (h : Par E t u) : Convertible E t u := by
  induction h with
  | free | bool | boolType | type => exact .refl trivial
  | lam n _ ih => exact .lam n ih
  | pi n _ _ ihA ihB => exact .pi n ihA ihB
  | app _ _ ihf iha => exact .app ihf iha
  | letIn n _ _ _ ihA ihv iht => exact .letIn n ihA ihv iht
  | @beta t u a a' n _ _ iht iha =>
    have hlam : Convertible E (.lam t) (.lam u) := .lam n iht
    exact (Convertible.app hlam iha).trans (.beta hlam.locallyClosed.2 iha.locallyClosed.2)
  | delta hb hv => exact .delta hb hv
  | @zeta name A v v' t u n hA _ _ ihv iht =>
    have hlet : Convertible E (.letIn name A v t) (.letIn name A v' u) :=
      .letIn n (.refl hA) ihv iht
    exact hlet.trans (.zeta hlet.locallyClosed.2)
  | eta _ ih => exact (Convertible.eta ih.locallyClosed.1).trans ih

/-! ## Substitution -/

/-- **Substitution.** Parallel steps in a term and in what is put for its variables are one parallel
step. -/
theorem substAll {t u : Term} (h : Par E t u) {σ τ : Binding → Term} {m : Nat}
    (hστ : ∀ b, Par E (σ b) (τ b)) (hσ : ∀ b : Binding, m ≤ b.id → σ b = .free b)
    (hτ : ∀ b : Binding, m ≤ b.id → τ b = .free b)
    (hE : ∀ b v, E b = some v → v.LocallyClosed → Par E (σ b) (v.substAll τ)) :
    Par E (t.substAll σ) (u.substAll τ) := by
  have hσlc : ∀ b, (σ b).LocallyClosed := fun b => (hστ b).locallyClosed.1
  have hτlc : ∀ b, (τ b).LocallyClosed := fun b => (hστ b).locallyClosed.2
  have under : ∀ {t u : Term} {n : Nat},
      (∀ b : Binding, n ≤ b.id → Par E ((t.openWith b).substAll σ) ((u.openWith b).substAll τ)) →
      ∀ b : Binding, max n m ≤ b.id →
        Par E ((t.substAll σ).openWith b) ((u.substAll τ).openWith b) := by
    intro t u n ih b hb
    rw [← Term.substAll_openWith hσlc t (hσ b (by omega)),
      ← Term.substAll_openWith hτlc u (hτ b (by omega))]
    exact ih b (by omega)
  induction h with
  | @free b => exact hστ b
  | bool => exact .bool
  | boolType => exact .boolType
  | type => exact .type
  | lam n _ ih => exact .lam (max n m) (under ih)
  | pi n _ _ ihA ihB => exact .pi (max n m) ihA (under ihB)
  | app _ _ ihf iha => exact .app ihf iha
  | letIn n _ _ _ ihA ihv iht => exact .letIn (max n m) ihA ihv (under iht)
  | beta n _ _ iht iha =>
    rw [Term.substAll_instantiate hτlc]
    exact .beta (max n m) (under iht) iha
  | delta hb hv => exact hE _ _ hb hv
  | zeta n hA _ _ ihv iht =>
    rw [Term.substAll_instantiate hτlc]
    exact .zeta (max n m) (hA.substAll hσlc) ihv (under iht)
  | eta _ ih => exact .eta ih

/-- Bodies that step at one new variable step at arguments that step. -/
theorem instantiate_of_fresh {t u a a' : Term} {b : Binding}
    (h : Par E (t.openWith b) (u.openWith b)) (ha : Par E a a') (hb : E.Fresh b)
    (ht : t.Over (· ≠ b)) (hu : u.Over (· ≠ b)) : Par E (t.instantiate a) (u.instantiate a') := by
  rw [Term.instantiate_eq_substAll ht ha.locallyClosed.1,
    Term.instantiate_eq_substAll hu ha.locallyClosed.2]
  refine h.substAll (m := b.id + 1) ?_ ?_ ?_ ?_
  · intro c
    by_cases hc : c = b
    · subst hc
      rwa [Term.only_self, Term.only_self]
    · rw [Term.only_of_ne _ hc, Term.only_of_ne _ hc]
      exact .free
  · exact fun c hc => Term.only_of_ne _ fun e => by subst e; omega
  · exact fun c hc => Term.only_of_ne _ fun e => by subst e; omega
  · intro c v hc hv
    have hcb : c ≠ b := by
      rintro rfl
      rw [hb.1] at hc
      cases hc
    rw [Term.only_of_ne _ hcb, Term.substAll_only_of_fresh (hb.2 c v hc)]
    exact .delta hc hv

theorem instantiate {t u a a' : Term} {n m : Nat} (hE : E.Below m)
    (h : ∀ b : Binding, n ≤ b.id → Par E (t.openWith b) (u.openWith b)) (ha : Par E a a') :
    Par E (t.instantiate a) (u.instantiate a') := by
  obtain ⟨b, hb, ht, hu⟩ := Term.exists_fresh t u (max n m)
  exact (h b (by omega)).instantiate_of_fresh ha (hE.fresh (by omega)) ht hu

theorem close {t u : Term} (h : Par E t u) {b : Binding} (hb : E.Fresh b) (c : Binding) :
    Par E ((t.close b).openWith c) ((u.close b).openWith c) := by
  rw [← Term.openWith_close h.locallyClosed.1 b, ← Term.openWith_close h.locallyClosed.2 b] at h
  exact h.instantiate_of_fresh .free hb (t.close_over_ne b) (u.close_over_ne b)

/-- A step invents no variable, unless a definition does. -/
theorem over_ne {t u : Term} (h : Par E t u) {b : Binding} (hb : E.Fresh b)
    (ht : t.Over (· ≠ b)) : u.Over (· ≠ b) := by
  -- Bodies are opened with a variable that is not `b` either.
  have under : ∀ {t u : Term} {n : Nat},
      (∀ c : Binding, n ≤ c.id → (t.openWith c).Over (· ≠ b) → (u.openWith c).Over (· ≠ b)) →
      t.Over (· ≠ b) → u.Over (· ≠ b) := by
    intro t u n ih ht
    have hne : (⟨max n (b.id + 1), ""⟩ : Binding) ≠ b := by
      intro e
      have : max n (b.id + 1) = b.id := congrArg Binding.id e
      omega
    exact (ih ⟨max n (b.id + 1), ""⟩ (Nat.le_max_left _ _) (ht.openWith hne)).of_openWith
  induction h with
  | free | bool | boolType | type => exact ht
  | @lam t u n _ ih => exact under (t := t) (u := u) ih ht
  | pi n _ _ ihA ihB => exact ⟨ihA ht.1, under ihB ht.2⟩
  | app _ _ ihf iha => exact ⟨ihf ht.1, iha ht.2⟩
  | letIn n _ _ _ ihA ihv iht => exact ⟨ihA ht.1, ihv ht.2.1, under iht ht.2.2⟩
  | beta n _ _ iht iha => exact (under iht ht.1).instantiate (iha ht.2)
  | delta hc _ => exact hb.2 _ _ hc
  | zeta n _ _ _ ihv iht => exact (under iht ht.2.2).instantiate (ihv ht.2.1)
  | eta _ ih => exact ih ht.1

/-! ## The diamond property -/

/-- Two steps from the term can be brought together by one more step each. -/
def Diamond (E : Values) (t : Term) : Prop :=
  ∀ {u v : Term}, Par E t u → Par E t v → ∃ w, Par E u w ∧ Par E v w

/-- Steps from a body, at all new variables, can be brought together in one body. -/
theorem Diamond.bodies {m : Nat} (hE : E.Below m) {t u v : Term} {k n : Nat}
    (hd : ∀ b, Diamond E (t.openWith b))
    (hu : ∀ b : Binding, k ≤ b.id → Par E (t.openWith b) (u.openWith b))
    (hv : ∀ b : Binding, n ≤ b.id → Par E (t.openWith b) (v.openWith b)) :
    ∃ w : Term, (∀ b : Binding, 0 ≤ b.id → Par E (u.openWith b) (w.openWith b)) ∧
      ∀ b : Binding, 0 ≤ b.id → Par E (v.openWith b) (w.openWith b) := by
  obtain ⟨b, hb, hub, hvb⟩ := Term.exists_fresh u v (max k (max n m))
  have hfresh : E.Fresh b := hE.fresh (by omega)
  obtain ⟨w, huw, hvw⟩ := hd b (hu b (by omega)) (hv b (by omega))
  refine ⟨w.close b, fun c _ => ?_, fun c _ => ?_⟩
  · have := huw.close hfresh c
    rwa [Term.close_openWith hub] at this
  · have := hvw.close hfresh c
    rwa [Term.close_openWith hvb] at this

/-- A step of a function applied to a new variable is a step of the function, or the function is
one that binds its argument and the step is inside its body. -/
theorem expansion_cases {m : Nat} (hE : E.Below m) {f u : Term} {n : Nat}
    (hf : f.LocallyClosed)
    (h : ∀ b : Binding, n ≤ b.id → Par E ((Term.app f (.bound 0)).openWith b) (u.openWith b)) :
    (∃ f', Par E f f' ∧ u = .app f' (.bound 0)) ∨
      ∃ t k, f = .lam t ∧ ∀ b : Binding, k ≤ b.id → Par E (t.openWith b) (u.openWith b) := by
  obtain ⟨b, hb, hfb, hub⟩ := Term.exists_fresh f u (max n m)
  have hfresh : E.Fresh b := hE.fresh (by omega)
  have hopen : ∀ {f : Term}, f.LocallyClosed →
      (Term.app f (.bound 0)).openWith b = .app f (.free b) := by
    intro f hf
    show Term.app (f.openWith b) (.free b) = _
    rw [show f.openWith b = f from hf.instantiate_eq _]
  -- A new variable is not defined, so it steps to itself only.
  have hvar : ∀ {a : Term}, Par E (.free b) a → a = .free b := by
    intro a ha
    cases ha with
    | free => rfl
    | delta hd _ => rw [hfresh.1] at hd; cases hd
  have hstep := h b (by omega)
  rw [hopen hf] at hstep
  generalize he : u.openWith b = v at hstep
  cases hstep with
  | app hf' ha =>
    rw [hvar ha, ← hopen hf'.locallyClosed.2] at he
    exact .inl ⟨_, hf', Term.openWith_injective hub ⟨hf'.over_ne hfresh hfb, trivial⟩ he⟩
  | @beta t t' _ a' k ht ha =>
    rw [hvar ha] at he
    have ht' : t'.Over (· ≠ b) := (Par.lam k ht).over_ne hfresh hfb
    obtain rfl := Term.openWith_injective hub ht' he
    exact .inr ⟨t, k, rfl, ht⟩

theorem Diamond.lam_eta {m : Nat} (hE : E.Below m) {f f' u : Term} {n : Nat} (hd : Diamond E f)
    (hu : ∀ b : Binding, n ≤ b.id → Par E ((Term.app f (.bound 0)).openWith b) (u.openWith b))
    (hf : Par E f f') : ∃ w, Par E (.lam u) w ∧ Par E f' w := by
  rcases expansion_cases hE hf.locallyClosed.1 hu with ⟨g, hg, rfl⟩ | ⟨t, k, rfl, ht⟩
  · obtain ⟨w, hgw, hfw⟩ := hd hg hf
    exact ⟨w, .eta hgw, hfw⟩
  · exact hd (.lam k ht) hf

theorem Diamond.app_beta {m : Nat} (hE : E.Below m) {t u f a a₁ a₂ : Term} {n : Nat}
    (hd : ∀ t', t'.size < (Term.app (.lam t) a).size → Diamond E t') (hf : Par E (.lam t) f)
    (ha₁ : Par E a a₁) (hu : ∀ b : Binding, n ≤ b.id → Par E (t.openWith b) (u.openWith b))
    (ha₂ : Par E a a₂) : ∃ w, Par E (.app f a₁) w ∧ Par E (u.instantiate a₂) w := by
  obtain ⟨a', ha₁', ha₂'⟩ := hd a (by simp only [Term.size]; omega) ha₁ ha₂
  cases hf with
  | lam k hv =>
    obtain ⟨w, hvw, huw⟩ := Diamond.bodies hE
      (fun b => hd _ (by simp only [Term.size_openWith, Term.size]; omega)) hv hu
    exact ⟨w.instantiate a', .beta 0 hvw ha₁', .instantiate hE huw ha₂'⟩
  | @eta g _ hg =>
    rcases expansion_cases hE hg.locallyClosed.1 hu with ⟨g', hg', rfl⟩ | ⟨t, k, rfl, ht⟩
    · obtain ⟨w, hfw, hgw⟩ := hd g (by simp only [Term.size]; omega) hg hg'
      refine ⟨.app w a', .app hfw ha₁', ?_⟩
      have : (Term.app g' (.bound 0)).instantiate a₂ = .app g' a₂ := by
        show Term.app (g'.instantiate a₂) a₂ = _
        rw [hg'.locallyClosed.2.instantiate_eq]
      rw [this]
      exact .app hgw ha₂'
    · -- The function that eta leaves is applied, and its beta redex is contracted on one side.
      exact hd (.app (.lam t) a) (by simp only [Term.size]; omega) (.app hg ha₁) (.beta k ht ha₂)

/-- Whatever is done to a `let`, it can be contracted afterwards. -/
theorem letIn_cases {m : Nat} (hE : E.Below m) {name : String} {A v t u : Term}
    (h : Par E (.letIn name A v t) u) :
    ∃ (v₁ t₁ : Term) (n : Nat), Par E v v₁ ∧
      (∀ b : Binding, n ≤ b.id → Par E (t.openWith b) (t₁.openWith b)) ∧
      ∀ {v₂ t₂ : Term}, Par E v₁ v₂ →
        (∀ b : Binding, 0 ≤ b.id → Par E (t₁.openWith b) (t₂.openWith b)) →
        Par E u (t₂.instantiate v₂) := by
  cases h with
  | @letIn _ _ _ A₁ _ v₁ _ t₁ n hA hv ht =>
    exact ⟨v₁, t₁, n, hv, ht, fun hv' ht' => .zeta 0 hA.locallyClosed.2 hv' ht'⟩
  | @zeta _ _ _ v₁ _ t₁ n _ hv ht =>
    exact ⟨v₁, t₁, n, hv, ht, fun hv' ht' => .instantiate hE ht' hv'⟩

theorem Diamond.letIn {m : Nat} (hE : E.Below m) {name : String} {A v t : Term}
    (hd : ∀ t', t'.size < (Term.letIn name A v t).size → Diamond E t') :
    Diamond E (.letIn name A v t) := by
  intro u₁ u₂ hu₁ hu₂
  obtain ⟨v₁, t₁, n₁, hv₁, ht₁, hzeta₁⟩ := hu₁.letIn_cases hE
  obtain ⟨v₂, t₂, n₂, hv₂, ht₂, hzeta₂⟩ := hu₂.letIn_cases hE
  obtain ⟨v', hv₁', hv₂'⟩ := hd v (by simp only [Term.size]; omega) hv₁ hv₂
  obtain ⟨t', ht₁', ht₂'⟩ := Diamond.bodies hE
    (fun b => hd _ (by simp only [Term.size_openWith, Term.size]; omega)) ht₁ ht₂
  exact ⟨t'.instantiate v', hzeta₁ hv₁' ht₁', hzeta₂ hv₂' ht₂'⟩

/-- **The diamond property.** -/
theorem diamond {m : Nat} (hE : E.Below m) (t : Term) : Diamond E t := by
  induction hk : t.size using Nat.strongRecOn generalizing t with
  | ind k ih =>
    subst hk
    replace ih : ∀ t', t'.size < t.size → Diamond E t' := fun t' ht' => ih _ ht' t' rfl
    intro u v hu hv
    cases hu with
    | free =>
      cases hv with
      | free => exact ⟨_, .free, .free⟩
      | delta hb hw => exact ⟨_, .delta hb hw, .refl hw⟩
    | delta hb hw =>
      cases hv with
      | free => exact ⟨_, .refl hw, .delta hb hw⟩
      | delta hb' _ =>
        rw [hb] at hb'
        cases hb'
        exact ⟨_, .refl hw, .refl hw⟩
    | bool => cases hv; exact ⟨_, .bool, .bool⟩
    | boolType => cases hv; exact ⟨_, .boolType, .boolType⟩
    | type => cases hv; exact ⟨_, .type, .type⟩
    | @lam t u n hu =>
      cases hv with
      | lam n' hv =>
        obtain ⟨w, huw, hvw⟩ := Diamond.bodies hE (fun b => ih _ (by simp [Term.size])) hu hv
        exact ⟨.lam w, .lam 0 huw, .lam 0 hvw⟩
      | eta hf => exact Diamond.lam_eta hE (ih _ (by simp only [Term.size]; omega)) hu hf
    | @eta f f' hf =>
      have hd : Diamond E f := ih _ (by simp only [Term.size]; omega)
      cases hv with
      | lam n hv =>
        obtain ⟨w, hvw, hfw⟩ := hd.lam_eta hE hv hf
        exact ⟨w, hfw, hvw⟩
      | eta hf' => exact hd hf hf'
    | @pi name _ A A₁ B B₁ n hA hB =>
      cases hv with
      | @pi _ _ _ A₂ _ B₂ n' hA' hB' =>
        obtain ⟨A', hA₁, hA₂⟩ := ih A (by simp only [Term.size]; omega) hA hA'
        obtain ⟨B', hB₁, hB₂⟩ := Diamond.bodies hE
          (fun b => ih _ (by simp only [Term.size_openWith, Term.size]; omega)) hB hB'
        exact ⟨.pi name A' B', .pi 0 hA₁ hB₁, .pi 0 hA₂ hB₂⟩
    | @app f f₁ a a₁ hf ha =>
      cases hv with
      | app hf' ha' =>
        obtain ⟨f', hf₁, hf₂⟩ := ih f (by simp only [Term.size]; omega) hf hf'
        obtain ⟨a', ha₁, ha₂⟩ := ih a (by simp only [Term.size]; omega) ha ha'
        exact ⟨.app f' a', .app hf₁ ha₁, .app hf₂ ha₂⟩
      | beta n ht ha' => exact Diamond.app_beta hE ih hf ha ht ha'
    | @beta t t₁ a a₁ n ht ha =>
      cases hv with
      | app hf' ha' =>
        obtain ⟨w, hw₂, hw₁⟩ := Diamond.app_beta hE ih hf' ha' ht ha
        exact ⟨w, hw₁, hw₂⟩
      | beta n' ht' ha' =>
        obtain ⟨w, hw₁, hw₂⟩ := Diamond.bodies hE
          (fun b => ih _ (by simp only [Term.size_openWith, Term.size]; omega)) ht ht'
        obtain ⟨a', ha₁, ha₂⟩ := ih a (by simp only [Term.size]; omega) ha ha'
        exact ⟨w.instantiate a', .instantiate hE hw₁ ha₁, .instantiate hE hw₂ ha₂⟩
    | letIn n hA hw ht => exact Diamond.letIn hE ih (.letIn n hA hw ht) hv
    | zeta n hA hw ht => exact Diamond.letIn hE ih (.zeta n hA hw ht) hv

end Par

end DepLang
