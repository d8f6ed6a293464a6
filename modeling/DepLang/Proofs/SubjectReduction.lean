import DepLang.Proofs.ChurchRosser
import DepLang.Proofs.Reduces
import DepLang.Proofs.Typing

/-!
# Reduction keeps types

A typed term that is reduced keeps its type (`Typed.reduces`). So a type that is normalised stays a
type, and what its normal form is made of can be relied on: the parts of a function type, and the
parts of a `let` around it.

The case that needs an argument is beta. A function has been typed at some function type, and is
applied at a convertible one. That the two have convertible domains and codomains is
`Convertible.pi_injective`.
-/
namespace DepLang

namespace Typed

variable {Γ : Environment} {t u T : Term}

theorem beta {a : Term} (hΓ : Γ.WellTyped) (h : Typed Γ (.app (.lam t) a) T) :
    Typed Γ (t.instantiate a) T := by
  obtain ⟨m, hm⟩ := hΓ.below
  obtain ⟨_, A, B, hf, ha, hT⟩ := h.app_inv
  obtain ⟨_, A', B', hA', ⟨n, ht⟩, hpi⟩ := hf.lam_inv
  obtain ⟨hA, k, hB⟩ := hpi.pi_injective hm
  have ha' : Typed Γ a A' := ha.conv hA' hA.symm
  have hbody : Typed Γ (t.instantiate a) (B'.instantiate a) :=
    instantiate ht hΓ (Entry.wellTyped_assume hA') ha' fun v hv => by cases hv
  exact hbody.conv (h.regular hΓ) ((Convertible.instantiate hB (.refl ha.locallyClosed.1)).trans hT)

/-- A `let` is typed as its body is with the variable defined, at any new variable. -/
theorem letIn_open {name : String} {A v : Term} {b : Binding} (hΓ : Γ.WellTyped) (hb : Γ b = none)
    (h : Typed Γ (.letIn name A v t) T) : Typed (Γ.define b A v) (t.openWith b) T := by
  obtain ⟨hA, hv, B, ⟨n, ht⟩, hT⟩ := h.letIn_inv
  have he := Entry.wellTyped_define hA hv
  have hle : Γ.Le (Γ.define b A v) := Environment.le_set hb _
  have hbody : Typed (Γ.define b A v) (t.openWith b) (B.openWith b) := open_fresh ht hΓ he hb
  -- With the variable defined, the type at the variable is the type at its value.
  have hB : B.ClosedAt 1 := .of_openWith hbody.locallyClosed.2
  have hunfold : Convertible (Γ.define b A v).values (B.openWith b) (B.instantiate v) := by
    refine .instantiate_right hB (.delta ?_ hv.locallyClosed.1)
    rw [Environment.values_define, Values.define_self]
  exact hbody.conv ((h.regular hΓ).mono hle) (hunfold.trans (hle.convertible hT))

/-- **Subject reduction.** -/
theorem reduces (hr : Reduces Γ.values t u) (hΓ : Γ.WellTyped) (h : Typed Γ t T) :
    Typed Γ u T := by
  generalize hE : Γ.values = E at hr
  induction hr generalizing Γ T with
  | refl => exact h
  | trans _ _ ih₁ ih₂ => exact ih₂ hΓ (ih₁ hΓ h hE) hE
  | delta hb _ =>
    subst hE
    obtain ⟨e, he, hv⟩ := Environment.values_eq_some.1 hb
    obtain ⟨e', he', hT⟩ := h.var_inv
    cases he.symm.trans he'
    exact ((hΓ.entries _ e he).value _ hv).conv (h.regular hΓ) hT
  | beta => exact h.beta hΓ
  | @app E f f' a a' _ ha ihf iha =>
    subst hE
    obtain ⟨m, hm⟩ := hΓ.below
    obtain ⟨name, A, B, hf, ha', hT⟩ := h.app_inv
    have hB : B.ClosedAt 1 := hf.locallyClosed.2.2
    have happ := Typed.app (ihf hΓ hf rfl) (iha hΓ ha' rfl)
    refine happ.conv (h.regular hΓ) (.trans ?_ hT)
    exact (Convertible.instantiate_right hB (ha.convertible hm)).symm
  | @letIn E name A A' v v' t u n hA hv _ ihA ihv iht =>
    subst hE
    obtain ⟨m, hm⟩ := hΓ.below
    obtain ⟨k, hk⟩ := hΓ.bounded
    obtain ⟨hA₀, hv₀, B, ⟨i, ht₀⟩, hT⟩ := h.letIn_inv
    have hA' := ihA hΓ hA₀ rfl
    have hAA' := hA.convertible hm
    have hvv' := hv.convertible hm
    have hv' : Typed Γ v' A' := (ihv hΓ hv₀ rfl).conv hA' hAA'
    have hB : B.ClosedAt 1 := .of_openWith (ht₀ ⟨i, ""⟩ (Nat.le_refl i)).locallyClosed.2
    have hbody : ∀ b : Binding, max n (max i k) ≤ b.id →
        Typed (Γ.define b A' v') (u.openWith b) (B.openWith b) := by
      intro b hb
      have hnew := hk b (by omega)
      have hΓb := hΓ.set hnew (Entry.wellTyped_define hA₀ hv₀)
      have hu := iht b (by omega) hΓb (ht₀ b (by omega)) (Environment.values_define Γ b A v)
      exact hu.redefine hΓ hnew hA₀ hA' hAA' hvv'
    refine (Typed.letIn _ hA' hv' hbody).conv (h.regular hΓ) (.trans ?_ hT)
    exact (Convertible.instantiate_right hB hvv').symm
  | @drop E name A v t hA hv ht =>
    subst hE
    obtain ⟨hA₀, hv₀, B, ⟨i, ht₀⟩, hT⟩ := h.letIn_inv
    have := instantiate ht₀ hΓ (Entry.wellTyped_define hA₀ hv₀) hv₀ fun w hw => by
      cases hw
      exact .refl hv
    rw [ht.instantiate_eq] at this
    exact this.conv (h.regular hΓ) hT

end Typed

end DepLang
