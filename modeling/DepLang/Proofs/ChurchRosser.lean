import DepLang.Proofs.Parallel
import Mathlib.Logic.Relation

/-!
# Convertible terms have a common reduct

The theory of convertibility is generated by equations, so it says only which terms are equal, not
which are different. This module gives it its other half: two terms are convertible exactly if
parallel steps lead from both to one term (`Convertible.joins`, the theorem of Church and Rosser).

What a step cannot change is then the same on both sides of an equation. Equal function types have
equal domains and equal codomains (`Convertible.pi_injective`), and so types of functions can be
taken apart.
-/
namespace DepLang

open Relation

variable {E : Values}

/-- Parallel steps, one after the other. -/
abbrev Steps (E : Values) : Term → Term → Prop := ReflTransGen (Par E)

/-- Steps lead from both terms to one term. -/
abbrev Joins (E : Values) : Term → Term → Prop := Join (Steps E)

theorem joins_equivalence {m : Nat} (hE : E.Below m) : Equivalence (Joins E) := by
  refine equivalence_join_reflTransGen fun t u v hu hv => ?_
  obtain ⟨w, huw, hvw⟩ := Par.diamond hE t hu hv
  exact ⟨w, .single huw, .single hvw⟩

namespace Joins

theorem single {t u : Term} (h : Par E t u) : Joins E t u := ⟨u, .single h, .refl⟩

theorem lift {f : Term → Term} (hf : ∀ x y, Par E x y → Par E (f x) (f y)) {t u : Term}
    (h : Joins E t u) : Joins E (f t) (f u) := by
  obtain ⟨w, ht, hu⟩ := h
  exact ⟨f w, ht.lift f hf, hu.lift f hf⟩

/-- What respects steps in a body respects joining of bodies. One new variable is closed again in
all terms on the way. -/
theorem under {m : Nat} (hE : E.Below m) {f : Term → Term}
    (hf : ∀ x y, (∀ b : Binding, 0 ≤ b.id → Par E (x.openWith b) (y.openWith b)) →
      Par E (f x) (f y))
    {t u : Term} {n : Nat}
    (h : ∀ b : Binding, n ≤ b.id → Joins E (t.openWith b) (u.openWith b)) :
    Joins E (f t) (f u) := by
  obtain ⟨b, hb, htb, hub⟩ := Term.exists_fresh t u (max n m)
  have hfresh : E.Fresh b := hE.fresh (by omega)
  have := (h b (by omega)).lift (f := fun x => f (x.close b))
    fun x y hxy => hf _ _ fun c _ => hxy.close hfresh c
  rwa [Term.close_openWith htb, Term.close_openWith hub] at this

end Joins

/-- **Church and Rosser.** Convertible terms have a common reduct. -/
theorem Convertible.joins {m : Nat} (hE : E.Below m) {t u : Term} (h : Convertible E t u) :
    Joins E t u := by
  have heq := joins_equivalence hE
  have refl : ∀ {t : Term}, t.ClosedAt 1 → ∀ b : Binding, 0 ≤ b.id →
      Par E (t.openWith b) (t.openWith b) := fun ht b _ => .refl (ht.openWith b)
  induction h with
  | refl => exact heq.refl _
  | symm _ ih => exact heq.symm ih
  | trans _ _ ih₁ ih₂ => exact heq.trans ih₁ ih₂
  | beta hb ha => exact .single (.beta 0 (refl hb) (.refl ha))
  | delta hb hv => exact .single (.delta hb hv)
  | zeta h => exact .single (.zeta 0 h.1 (.refl h.2.1) (refl h.2.2))
  | eta hf => exact .single (.eta (.refl hf))
  | lam n _ ih => exact .under hE (fun _ _ h => .lam 0 h) ih
  | @pi name name' A A' B B' n hA hB ihA ihB =>
    -- One part after the other, and the name first.
    have hlc := (.pi n hA hB : Convertible E (.pi name A B) (.pi name' A' B')).locallyClosed
    have h₁ : Joins E (.pi name A B) (.pi name' A B) :=
      .single (.pi 0 (.refl hlc.1.1) (refl hlc.1.2))
    have h₂ : Joins E (.pi name' A B) (.pi name' A' B) :=
      ihA.lift (f := (Term.pi name' · B)) fun _ _ h => .pi 0 h (refl hlc.1.2)
    have h₃ : Joins E (.pi name' A' B) (.pi name' A' B') :=
      .under hE (fun _ _ h => .pi 0 (.refl hlc.2.1) h) ihB
    exact heq.trans h₁ (heq.trans h₂ h₃)
  | @app f f' a a' hf ha ihf iha =>
    have h₁ : Joins E (.app f a) (.app f' a) :=
      ihf.lift (f := (Term.app · a)) fun _ _ h => .app h (.refl ha.locallyClosed.1)
    have h₂ : Joins E (.app f' a) (.app f' a') :=
      iha.lift fun _ _ h => .app (.refl hf.locallyClosed.2) h
    exact heq.trans h₁ h₂
  | @letIn name name' A A' v v' t u n hA hv ht ihA ihv iht =>
    have hlc :=
      (.letIn n hA hv ht : Convertible E (.letIn name A v t) (.letIn name' A' v' u)).locallyClosed
    have h₁ : Joins E (.letIn name A v t) (.letIn name' A v t) :=
      .single (.letIn 0 (.refl hlc.1.1) (.refl hlc.1.2.1) (refl hlc.1.2.2))
    have h₂ : Joins E (.letIn name' A v t) (.letIn name' A' v t) :=
      ihA.lift (f := (Term.letIn name' · v t))
        fun _ _ h => .letIn 0 h (.refl hlc.1.2.1) (refl hlc.1.2.2)
    have h₃ : Joins E (.letIn name' A' v t) (.letIn name' A' v' t) :=
      ihv.lift (f := (Term.letIn name' A' · t))
        fun _ _ h => .letIn 0 (.refl hlc.2.1) h (refl hlc.1.2.2)
    have h₄ : Joins E (.letIn name' A' v' t) (.letIn name' A' v' u) :=
      .under hE (fun _ _ h => .letIn 0 (.refl hlc.2.1) (.refl hlc.2.2.1) h) iht
    exact heq.trans h₁ (heq.trans h₂ (heq.trans h₃ h₄))

/-! ## What steps cannot change -/

theorem Steps.of_pi {name : String} {A B u : Term} (h : Steps E (.pi name A B) u)
    (hA : A.LocallyClosed) (hB : B.ClosedAt 1) :
    ∃ name' A' B', u = .pi name' A' B' ∧ Convertible E A A' ∧
      ∃ n : Nat, ∀ b : Binding, n ≤ b.id → Convertible E (B.openWith b) (B'.openWith b) := by
  induction h with
  | refl => exact ⟨name, A, B, rfl, .refl hA, 0, fun b _ => .refl (hB.openWith b)⟩
  | tail _ hstep ih =>
    obtain ⟨name', A', B', rfl, hAA', n, hBB'⟩ := ih
    cases hstep with
    | @pi _ name'' _ A'' _ B'' k hA' hB' =>
      refine ⟨name'', A'', B'', rfl, hAA'.trans hA'.convertible, max n k, fun b hb => ?_⟩
      exact (hBB' b (by omega)).trans (hB' b (by omega)).convertible

namespace Convertible

/-- **Function types are injective.** -/
theorem pi_injective {m : Nat} (hE : E.Below m) {name name' : String} {A A' B B' : Term}
    (h : Convertible E (.pi name A B) (.pi name' A' B')) :
    Convertible E A A' ∧
      ∃ n : Nat, ∀ b : Binding, n ≤ b.id → Convertible E (B.openWith b) (B'.openWith b) := by
  have hlc := h.locallyClosed
  obtain ⟨w, hw, hw'⟩ := h.joins hE
  obtain ⟨_, A₁, B₁, rfl, hA, k, hB⟩ := Steps.of_pi hw hlc.1.1 hlc.1.2
  obtain ⟨_, A₂, B₂, heq, hA', n, hB'⟩ := Steps.of_pi hw' hlc.2.1 hlc.2.2
  cases heq
  refine ⟨hA.trans hA'.symm, max k n, fun b hb => ?_⟩
  exact (hB b (by omega)).trans (hB' b (by omega)).symm

end Convertible

end DepLang
