import DepLang.Proofs.SubjectReduction

/-!
# What the head of a term decides

A type former, a literal, and a variable without a value that is applied to arguments: whatever
steps such a term takes, it keeps its head (`Steps.head?`). So two of them that are convertible have
the same head (`Convertible.head_eq`), and if they are applications, convertible functions and
convertible arguments (`Convertible.app_injective`). This is what a comparison of normal forms may
rely on when it answers that two terms are different.

The head also decides the type. Terms that are not functions under a `let` or a binder have only one
type up to conversion (`Typed.unique`), and a former or a literal is not a function
(`Typed.head_of_pi`).
-/
namespace DepLang

/-- What a term is at its head. -/
inductive Head where
  | pi
  | bool (value : Bool)
  | boolType
  | type
  /-- A variable without a value, applied to so many arguments. -/
  | spine (b : Binding) (arguments : Nat)
deriving DecidableEq, Repr

namespace Term

/-- The head of a term that shows one. -/
def head? (E : Values) : Term → Option Head
  | pi _ _ _ => some .pi
  | bool value => some (.bool value)
  | boolType => some .boolType
  | type => some .type
  | free b =>
    match E b with
    | none => some (.spine b 0)
    | some _ => none
  | app function _ =>
    match head? E function with
    | some (.spine b n) => some (.spine b (n + 1))
    | _ => none
  | bound _ | lam _ | letIn _ _ _ _ => none

theorem head?_app {E : Values} {f a : Term} {h : Head} :
    (app f a).head? E = some h ↔ ∃ b n, f.head? E = some (.spine b n) ∧ h = .spine b (n + 1) := by
  rw [head?]
  split
  · rename_i b n hf
    rw [hf]
    constructor
    · intro he
      cases he
      exact ⟨b, n, rfl, rfl⟩
    · rintro ⟨c, k, hc, rfl⟩
      cases hc
      rfl
  · rename_i hf
    constructor
    · intro he
      cases he
    · rintro ⟨b, n, hb, -⟩
      exact absurd hb (hf b n)

theorem head?_free {E : Values} {b : Binding} {h : Head} :
    (free b).head? E = some h ↔ E b = none ∧ h = .spine b 0 := by
  rw [head?]
  cases E b with
  | none => simp [eq_comm]
  | some v => simp

/-- What a term with the head is. -/
def Shape (E : Values) (t : Term) : Head → Prop
  | .pi => ∃ name domain codomain, t = pi name domain codomain
  | .bool value => t = bool value
  | .boolType => t = boolType
  | .type => t = type
  | .spine b 0 => t = free b
  | .spine b (n + 1) => ∃ f a, t = app f a ∧ f.head? E = some (.spine b n)

theorem shape_of_head? {E : Values} {t : Term} {h : Head} (ht : t.head? E = some h) :
    t.Shape E h := by
  cases t with
  | pi name domain codomain =>
    cases ht
    exact ⟨name, domain, codomain, rfl⟩
  | bool | boolType | type =>
    cases ht
    rfl
  | free b =>
    obtain ⟨-, rfl⟩ := head?_free.1 ht
    rfl
  | app f a =>
    obtain ⟨b, n, hf, rfl⟩ := head?_app.1 ht
    exact ⟨f, a, rfl, hf⟩
  | bound | lam | letIn => cases ht

theorem head?_congr {E F : Values} {P : Binding → Prop} {t : Term} (ht : t.Over P)
    (h : ∀ b, P b → E b = F b) : t.head? E = t.head? F := by
  induction t with
  | free b => rw [head?, head?, h b ht]
  | app f a ihf _ => rw [head?, head?, ihf ht.1]
  | _ => rfl

/-- A term whose outermost function is a variable, a former or a literal, reduced or not. -/
def Rigid : Term → Prop
  | app function _ => Rigid function
  | free _ | pi _ _ _ | bool _ | boolType | type => True
  | bound _ | lam _ | letIn _ _ _ _ => False

theorem rigid_of_head? {E : Values} {t : Term} {h : Head} (ht : t.head? E = some h) : t.Rigid := by
  induction t generalizing h with
  | app f a ihf _ =>
    obtain ⟨b, n, hf, -⟩ := head?_app.1 ht
    exact ihf hf
  | free | pi | bool | boolType | type => trivial
  | bound | lam | letIn => cases ht

theorem rigid_of_spineHead {t : Term} (h : t.spineHead.isFree = true) : t.Rigid := by
  induction t with
  | app f a ihf _ => exact ihf h
  | free | pi | bool | boolType | type => trivial
  | bound | lam | letIn => cases h

end Term

/-! ## Steps keep the head -/

section Steps

variable {E : Values} {t u : Term}

theorem Par.head? (h : Par E t u) {head : Head} (ht : t.head? E = some head) :
    u.head? E = some head := by
  induction h generalizing head with
  | free | bool | boolType | type => exact ht
  | pi => exact ht
  | app _ _ ihf _ =>
    obtain ⟨b, n, hf, rfl⟩ := Term.head?_app.1 ht
    exact Term.head?_app.2 ⟨b, n, ihf hf, rfl⟩
  | delta hb _ =>
    rw [(Term.head?_free.1 ht).1] at hb
    cases hb
  | beta | lam | letIn | zeta | eta => cases ht

theorem Steps.head? (h : Steps E t u) {head : Head} (ht : t.head? E = some head) :
    u.head? E = some head := by
  induction h with
  | refl => exact ht
  | tail _ hstep ih => exact hstep.head? ih

/-- An application whose head shows steps to applications only, part by part. -/
theorem Steps.of_app {f a : Term} (h : Steps E (.app f a) u) (hlc : (Term.app f a).LocallyClosed)
    {head : Head} (hf : f.head? E = some head) :
    ∃ f' a', u = .app f' a' ∧ Convertible E f f' ∧ Convertible E a a' ∧
      f'.head? E = some head := by
  induction h with
  | refl => exact ⟨f, a, rfl, .refl hlc.1, .refl hlc.2, hf⟩
  | tail _ hstep ih =>
    obtain ⟨f', a', rfl, hff', haa', hf'⟩ := ih
    cases hstep with
    | app hf'' ha'' =>
      exact ⟨_, _, rfl, hff'.trans hf''.convertible, haa'.trans ha''.convertible, hf''.head? hf'⟩
    | beta => cases hf'

end Steps

namespace Convertible

variable {E : Values} {m : Nat} {t u : Term}

/-- **Convertible terms have the same head.** -/
theorem head_eq (hE : E.Below m) (h : Convertible E t u) {head head' : Head}
    (ht : t.head? E = some head) (hu : u.head? E = some head') : head = head' := by
  obtain ⟨w, htw, huw⟩ := h.joins hE
  have hw := htw.head? ht
  rw [huw.head? hu] at hw
  exact (Option.some.inj hw).symm

theorem shape (hE : E.Below m) (h : Convertible E t u) {head head' : Head}
    (ht : t.head? E = some head) (hu : u.head? E = some head') : u.Shape E head := by
  obtain rfl := h.head_eq hE ht hu
  exact Term.shape_of_head? hu

/-- **Applications are injective** if their heads show. -/
theorem app_injective (hE : E.Below m) {f f' a a' : Term}
    (h : Convertible E (.app f a) (.app f' a')) {head head' : Head} (hf : f.head? E = some head)
    (hf' : f'.head? E = some head') : Convertible E f f' ∧ Convertible E a a' := by
  have hlc := h.locallyClosed
  obtain ⟨w, hw, hw'⟩ := h.joins hE
  obtain ⟨f₁, a₁, rfl, hff₁, haa₁, -⟩ := Steps.of_app hw hlc.1 hf
  obtain ⟨f₂, a₂, heq, hff₂, haa₂, -⟩ := Steps.of_app hw' hlc.2 hf'
  cases heq
  exact ⟨hff₁.trans hff₂.symm, haa₁.trans haa₂.symm⟩

end Convertible

/-! ## Heads and types -/

namespace Typed

variable {Γ : Environment} {t T : Term}

theorem formation_inv (h : Typed Γ t T) (ht : t.isFormation = true) :
    Convertible Γ.values .type T := by
  induction h with
  | type | boolType | pi => exact .refl trivial
  | conv _ _ hc iht _ => exact (iht ht).trans hc
  | bool | var | lam | app | letIn => cases ht

theorem bool_inv {value : Bool} (h : Typed Γ (.bool value) T) :
    Convertible Γ.values .boolType T := by
  generalize ht : Term.bool value = t at h
  induction h with
  | bool => exact .refl trivial
  | conv _ _ hc iht _ => exact (iht ht).trans hc
  | _ => cases ht

/-- Two types of one function are convertible if the two codomains are, at the argument. -/
theorem codomain_convertible {name name' : String} {A A' B B' a : Term} (hΓ : Γ.WellTyped)
    (h : Convertible Γ.values (.pi name A B) (.pi name' A' B')) (ha : a.LocallyClosed) :
    Convertible Γ.values (B.instantiate a) (B'.instantiate a) := by
  obtain ⟨m, hm⟩ := hΓ.below
  obtain ⟨-, n, hB⟩ := h.pi_injective hm
  exact .instantiate hB (.refl ha)

/-- **Types are unique** for terms whose outermost function is not written as one. -/
theorem unique {T' : Term} (hΓ : Γ.WellTyped) (ht : t.Rigid) (h : Typed Γ t T)
    (h' : Typed Γ t T') : Convertible Γ.values T T' := by
  induction t generalizing T T' with
  | free b =>
    obtain ⟨e, he, hT⟩ := h.var_inv
    obtain ⟨e', he', hT'⟩ := h'.var_inv
    cases he.symm.trans he'
    exact hT.symm.trans hT'
  | pi | boolType | type => exact (h.formation_inv rfl).symm.trans (h'.formation_inv rfl)
  | bool => exact h.bool_inv.symm.trans h'.bool_inv
  | app f a ihf _ =>
    obtain ⟨_, A, B, hf, ha, hT⟩ := h.app_inv
    obtain ⟨_, A', B', hf', -, hT'⟩ := h'.app_inv
    have hB := codomain_convertible hΓ (ihf ht hf hf') ha.locallyClosed.1
    exact (hT.symm.trans hB).trans hT'
  | bound | lam | letIn => exact ht.elim

/-- A function that shows its head is a variable applied to arguments. -/
theorem head_of_pi {name : String} {A B : Term} {head : Head} (hΓ : Γ.WellTyped) (h : Typed Γ t T)
    (hT : Convertible Γ.values T (.pi name A B)) (ht : t.head? Γ.values = some head) :
    ∃ b n, head = .spine b n := by
  obtain ⟨m, hm⟩ := hΓ.below
  have hformation : t.isFormation = true → ∃ b n, head = .spine b n := fun hf =>
    absurd (((h.formation_inv hf).trans hT).head_eq hm rfl rfl) (by simp)
  cases t with
  | pi | boolType | type => exact hformation rfl
  | bool value => exact absurd ((h.bool_inv.trans hT).head_eq hm rfl rfl) (by simp)
  | free b => exact ⟨b, 0, (Term.head?_free.1 ht).2⟩
  | app f a =>
    obtain ⟨b, n, -, rfl⟩ := Term.head?_app.1 ht
    exact ⟨b, n + 1, rfl⟩
  | bound | lam | letIn => cases ht

theorem lam_open {u A B : Term} {name : String} {b : Binding} (hΓ : Γ.WellTyped) (hb : Γ b = none)
    (h : Typed Γ (.lam u) (.pi name A B)) :
    Typed (Γ.assume b A) (u.openWith b) (B.openWith b) := by
  obtain ⟨m, hm⟩ := hΓ.below
  obtain ⟨hA, k, hB⟩ := (h.regular hΓ).pi_inv
  obtain ⟨_, A', B', hA', ⟨n, hu⟩, hpi⟩ := h.lam_inv
  obtain ⟨hAA', i, hBB'⟩ := hpi.pi_injective hm
  have hbody : Typed (Γ.assume b A') (u.openWith b) (B'.openWith b) :=
    open_fresh hu hΓ (Entry.wellTyped_assume hA') hb
  have hcodomain : Typed (Γ.assume b A) (B.openWith b) .type :=
    open_fresh (T := .type) hB hΓ (Entry.wellTyped_assume hA) hb
  refine (hbody.reassume hΓ hb hA' hAA').conv hcodomain ?_
  exact (Environment.le_set hb _).convertible (.instantiate hBB' (.refl trivial))

theorem app_open {f A B : Term} {name : String} {b : Binding} (hΓ : Γ.WellTyped) (hb : Γ b = none)
    (h : Typed Γ f (.pi name A B)) :
    Typed (Γ.assume b A) (.app f (.free b)) (B.openWith b) := by
  obtain ⟨hA, -⟩ := (h.regular hΓ).pi_inv
  exact .app (h.mono (Environment.le_set hb _))
    (.var (Environment.set_self Γ b ⟨A, none⟩) hA.locallyClosed.1)

end Typed

end DepLang
