import DepLang.Proofs.Convertible

/-!
# Reduction as a relation

`Reduces E t u` says that `t` becomes `u` by steps that weak head normalisation may take: it unfolds
definitions, applies functions, and works under a `let` with the variable of the `let` defined, but
it never goes into a function or into the codomain of a `pi`. A `let` that nothing uses may be
dropped. The relation says nothing about the order of steps or about where to stop.

It stands between the algorithm and the theory: normalisation takes such steps only, and such steps
keep whatever the theory says about a term.

* `Reduces.vars_over`, `Reduces.locallyClosed`: no variable and no index is invented.
* `Reduces.substAll`, `Reduces.strengthen`: reduction under a substitution, and without a definition
  that is not used.
* `Reduces.convertible`: reduction is part of convertibility.
-/
namespace DepLang

/-- The steps of weak head normalisation, in any number and order. -/
inductive Reduces : Values → Term → Term → Prop where
  | refl {E : Values} {t : Term} : t.LocallyClosed → Reduces E t t
  | trans {E : Values} {t u v : Term} : Reduces E t u → Reduces E u v → Reduces E t v
  | delta {E : Values} {b : Binding} {v : Term} : E b = some v → v.LocallyClosed →
      Reduces E (.free b) v
  | beta {E : Values} {body a : Term} : (Term.lam body).LocallyClosed → a.LocallyClosed →
      Reduces E (.app (.lam body) a) (body.instantiate a)
  | app {E : Values} {f f' a a' : Term} : Reduces E f f' → Reduces E a a' →
      Reduces E (.app f a) (.app f' a')
  | letIn {E : Values} {name : String} {A A' v v' t u : Term} (n : Nat) : Reduces E A A' →
      Reduces E v v' →
      (∀ b : Binding, n ≤ b.id → Reduces (E.define b v) (t.openWith b) (u.openWith b)) →
      Reduces E (.letIn name A v t) (.letIn name A' v' u)
  | drop {E : Values} {name : String} {A v t : Term} : A.LocallyClosed → v.LocallyClosed →
      t.LocallyClosed → Reduces E (.letIn name A v t) t

namespace Reduces

variable {E F : Values}

theorem locallyClosed {t u : Term} (h : Reduces E t u) : t.LocallyClosed ∧ u.LocallyClosed := by
  induction h with
  | refl ht => exact ⟨ht, ht⟩
  | trans _ _ ih₁ ih₂ => exact ⟨ih₁.1, ih₂.2⟩
  | delta _ hv => exact ⟨trivial, hv⟩
  | beta hb ha => exact ⟨⟨hb, ha⟩, Term.ClosedAt.instantiate hb ha⟩
  | app _ _ ihf iha => exact ⟨⟨ihf.1, iha.1⟩, ⟨ihf.2, iha.2⟩⟩
  | letIn n _ _ _ ihA ihv iht =>
    have := iht ⟨n, ""⟩ (Nat.le_refl n)
    exact ⟨⟨ihA.1, ihv.1, .of_openWith this.1⟩, ⟨ihA.2, ihv.2, .of_openWith this.2⟩⟩
  | drop hA hv ht => exact ⟨⟨hA, hv, Term.ClosedAt.mono ht (Nat.zero_le 1)⟩, ht⟩

theorem vars_over {t u : Term} (h : Reduces E t u) {P : Binding → Prop}
    (hE : ∀ b v, P b → E b = some v → v.Over P) (ht : t.Over P) : u.Over P := by
  induction h generalizing P with
  | refl => exact ht
  | trans _ _ ih₁ ih₂ => exact ih₂ hE (ih₁ hE ht)
  | delta hb _ => exact hE _ _ ht hb
  | @beta E body a _ _ => exact Term.Over.instantiate (t := body) ht.1 ht.2
  | app _ _ ihf iha => exact ⟨ihf hE ht.1, iha hE ht.2⟩
  | @letIn E name A A' v v' t u n _ _ _ ihA ihv iht =>
    refine ⟨ihA hE ht.1, ihv hE ht.2.1, ?_⟩
    -- Choose a variable that is new to the body, so that closing it gives the body back.
    obtain ⟨m, hm⟩ := u.exists_below
    let b : Binding := ⟨max n m, ""⟩
    have hu : u.Over (· ≠ b) := hm.ne (Nat.le_max_right n m)
    have hopen : (u.openWith b).Over fun c => c = b ∨ P c := by
      have htb : (t.openWith b).Over fun c => c = b ∨ P c :=
        Term.Over.openWith (ht.2.2.mono fun c => .inr) (.inl rfl)
      have hvalues : ∀ c w, E.define b v c = some w → (c = b ∨ P c) →
          w.Over fun c => c = b ∨ P c :=
        Values.forall_define (fun _ => ht.2.1.mono fun _ => .inr) fun c w hcb hw hc =>
          (hE c w (hc.resolve_left hcb) hw).mono fun _ => .inr
      exact iht b (Nat.le_max_left n m) (fun c w hc hw => hvalues c w hw hc) htb
    have := (hopen.of_openWith).and hu
    exact this.mono fun c hc => hc.1.resolve_left hc.2
  | drop _ _ _ => exact ht.2.2

theorem mono {t u : Term} (h : Reduces E t u) (hE : ∀ b v, E b = some v → F b = some v) :
    Reduces F t u := by
  induction h generalizing F with
  | refl ht => exact .refl ht
  | trans _ _ ih₁ ih₂ => exact (ih₁ hE).trans (ih₂ hE)
  | delta hb hv => exact .delta (hE _ _ hb) hv
  | beta hb ha => exact .beta hb ha
  | app _ _ ihf iha => exact .app (ihf hE) (iha hE)
  | letIn n _ _ _ ihA ihv iht =>
    refine .letIn n (ihA hE) (ihv hE) fun b hb => iht b hb ?_
    refine Values.forall_define (Values.define_self ..) fun c w hcb hc => ?_
    rw [Values.define_of_ne _ _ hcb]
    exact hE c w hc
  | drop hA hv ht => exact .drop hA hv ht

theorem define_mono {t u : Term} (h : Reduces E t u) {b : Binding} (hb : E b = none) (v : Term) :
    Reduces (E.define b v) t u :=
  h.mono fun _ _ => Values.define_eq_some hb v

/-- **Substitution.** A substitution that turns defined variables into terms which reduce to what it
makes of their values respects reduction. -/
theorem substAll {t u : Term} (h : Reduces E t u) {σ : Binding → Term} {m : Nat}
    (hlc : ∀ b, (σ b).LocallyClosed) (hσ : ∀ b : Binding, m ≤ b.id → σ b = .free b)
    (hnone : ∀ b : Binding, m ≤ b.id → F b = none)
    (hE : ∀ b v, E b = some v → v.LocallyClosed → Reduces F (σ b) (v.substAll σ)) :
    Reduces F (t.substAll σ) (u.substAll σ) := by
  induction h generalizing F m with
  | refl ht => exact .refl (ht.substAll hlc)
  | trans _ _ ih₁ ih₂ => exact (ih₁ hσ hnone hE).trans (ih₂ hσ hnone hE)
  | delta hb hv => exact hE _ _ hb hv
  | beta hb ha =>
    rw [Term.substAll_instantiate hlc]
    exact .beta (Term.ClosedAt.substAll hb hlc) (ha.substAll hlc)
  | app _ _ ihf iha => exact .app (ihf hσ hnone hE) (iha hσ hnone hE)
  | @letIn E name A A' v v' t u n _ hv _ ihA ihv iht =>
    refine .letIn (max n m) (ihA hσ hnone hE) (ihv hσ hnone hE) fun b hb => ?_
    have hσb := hσ b (by omega)
    have hvσ := hv.locallyClosed.1.substAll hlc
    rw [← Term.substAll_openWith hlc t hσb, ← Term.substAll_openWith hlc u hσb]
    refine iht b (by omega) (m := b.id + 1) (fun c hc => hσ c (by omega)) ?_ ?_
    · intro c hc
      rw [Values.define_of_ne _ _ (fun e => by subst e; omega)]
      exact hnone c (by omega)
    · refine Values.forall_define (fun _ => ?_) fun c w _ hc hw => ?_
      · rw [hσb]
        exact .delta (Values.define_self ..) hvσ
      · exact (hE c w hc hw).define_mono (hnone b (by omega)) _
  | drop hA hv ht => exact .drop (hA.substAll hlc) (hv.substAll hlc) (ht.substAll hlc)

/-- A reduction of a term that does not mention a defined variable does without the definition. -/
theorem strengthen {t u : Term} {b : Binding} {v : Term} (h : Reduces (E.define b v) t u)
    {m : Nat} (hE : E.Below m) (hb : E.Fresh b) (hv : v.LocallyClosed) (hvb : v.Over (· ≠ b))
    (ht : t.Over (· ≠ b)) : Reduces E t u := by
  have hu : u.Over (· ≠ b) := by
    refine h.vars_over ?_ ht
    intro c w hcb hc
    rw [Values.define_of_ne _ _ hcb] at hc
    exact hb.2 c w hc
  have hσ := h.substAll (F := E) (σ := Term.only b v) (m := max m (b.id + 1))
    (Term.only_locallyClosed hv) ?_ ?_ ?_
  · rwa [Term.substAll_only_of_fresh ht, Term.substAll_only_of_fresh hu] at hσ
  · intro c hc
    exact Term.only_of_ne v fun e => by subst e; omega
  · intro c hc
    exact (hE.fresh (by omega)).1
  · refine Values.forall_define (fun _ => ?_) fun c w hcb hc hw => ?_
    · rw [Term.only_self, Term.substAll_only_of_fresh hvb]
      exact .refl hv
    · rw [Term.only_of_ne v hcb, Term.substAll_only_of_fresh (hb.2 c w hc)]
      exact .delta hc hw

/-- One new variable under a `let` is as good as all of them. -/
theorem rename {t u : Term} {b : Binding} {v : Term}
    (h : Reduces (E.define b v) (t.openWith b) (u.openWith b)) {m : Nat} (hE : E.Below m)
    (hb : E.Fresh b) (hv : v.LocallyClosed) (hvb : v.Over (· ≠ b)) (ht : t.Over (· ≠ b))
    (hu : u.Over (· ≠ b)) {c : Binding} (hc : max m (b.id + 1) ≤ c.id) :
    Reduces (E.define c v) (t.openWith c) (u.openWith c) := by
  have hlc := Term.locallyClosed_free c
  have hσ := h.substAll (F := E.define c v) (σ := Term.only b (.free c)) (m := c.id + 1)
    (Term.only_locallyClosed hlc) ?_ ?_ ?_
  · rwa [← Term.instantiate_eq_substAll ht hlc, ← Term.instantiate_eq_substAll hu hlc] at hσ
  · intro d hd
    exact Term.only_of_ne _ fun e => by subst e; omega
  · intro d hd
    rw [Values.define_of_ne _ _ (fun e => by subst e; omega)]
    exact (hE.fresh (by omega)).1
  · refine Values.forall_define (fun _ => ?_) fun d w hdb hd hw => ?_
    · rw [Term.only_self, Term.substAll_only_of_fresh hvb]
      exact .delta (Values.define_self ..) hv
    · rw [Term.only_of_ne _ hdb, Term.substAll_only_of_fresh (hb.2 d w hd)]
      have hdc : d ≠ c := by
        rintro rfl
        have := (hE d w hd).1
        omega
      exact .delta (by rw [Values.define_of_ne _ _ hdc, hd]) hw

/-- **Reduction is sound.** A term is convertible with what it reduces to. -/
theorem convertible {t u : Term} (h : Reduces E t u) {m : Nat} (hE : E.Below m) :
    Convertible E t u := by
  induction h generalizing m with
  | refl ht => exact .refl ht
  | trans _ _ ih₁ ih₂ => exact (ih₁ hE).trans (ih₂ hE)
  | delta hb hv => exact .delta hb hv
  | beta hb ha => exact .beta hb ha
  | app _ _ ihf iha => exact .app (ihf hE) (iha hE)
  | @letIn E name A A' v v' t u n hA hv ht ihA ihv iht =>
    have hl := (letIn n hA hv ht : Reduces E (.letIn name A v t) _).locallyClosed
    obtain ⟨k, hk⟩ := v.exists_below
    obtain ⟨i, hi⟩ := t.exists_below
    obtain ⟨j, hj⟩ := u.exists_below
    -- A variable new to everything: unfolding it turns the bodies into their instances.
    let b : Binding := ⟨max n (max m (max k (max i j))), ""⟩
    have hb : b.id = max n (max m (max k (max i j))) := rfl
    have hvb := hk.ne (b := b) (by omega)
    have hbody : Convertible E (t.instantiate v) (u.instantiate v) := by
      have h := iht b (by omega) (m := b.id + 1)
        ((hE.mono (by omega)).define (Nat.lt_succ_self _) (hk.mono (by omega)))
      have h := h.undefine (hE.fresh (by omega)) hl.1.2.1 hvb
      rwa [← Term.instantiate_eq_substAll (hi.ne (by omega)) hl.1.2.1,
        ← Term.instantiate_eq_substAll (hj.ne (by omega)) hl.1.2.1] at h
    calc Convertible E (.letIn name A v t) (t.instantiate v) := .zeta hl.1
      Convertible E _ (u.instantiate v) := hbody
      Convertible E _ (u.instantiate v') := .instantiate_right hl.2.2.2 (ihv hE)
      Convertible E _ (.letIn name A' v' u) := (Convertible.zeta hl.2).symm
  | @drop E name A v t hA hv ht =>
    have h : Convertible E (.letIn name A v t) (t.instantiate v) :=
      .zeta ⟨hA, hv, Term.ClosedAt.mono ht (Nat.zero_le 1)⟩
    rwa [ht.instantiate_eq] at h

end Reduces

end DepLang
