import DepLang.Proofs.Elaborates
import DepLang.Proofs.Resolution

/-!
# Binding a variable again

A binder brings its variable into the context (`lam` and `pi`) or into the definitions (`letIn`).
The elaborator refuses to bind a variable that stands there already, so a binder in the scope of the
same binder is noticed, at whatever depth the two stand.

The context and the definitions are looked at one by one. So a `let` may bind the variable of an
enclosing function again, and a function that of an enclosing `let`. Then the variable has two
types, and the one of the `let` counts: the identity on booleans is found to be a function from
types to booleans (`elaborated_although_rebound`).

* `Elaborates.occurs`: whatever stands in an expression is elaborated with it, in a scope that has
  at least the variables of the scope outside.
* `rebinding_refused`: no binder stands in the scope of one that binds the same variable in the same
  way.
-/
namespace DepLang

/-- How a binder brings its variable into scope. -/
inductive Binder where
  /-- Into the context. -/
  | assumes
  /-- Into the definitions. -/
  | defines
deriving DecidableEq

namespace Expr

/-- The first expression stands somewhere in the second. -/
inductive Occurs (inner : Expr) : Expr → Prop where
  | here : Occurs inner inner
  | inside {part e : Expr} : part ∈ e.parts → Occurs inner part → Occurs inner e

/-- The expression binds the variable, and `scope` is where the variable can be referred to. -/
inductive BindsIn : Expr → Binder → Binding → Expr → Prop where
  | pi {b : Binding} {domain scope : Expr} : BindsIn (pi b domain scope) .assumes b scope
  | lam {b : Binding} {scope : Expr} : BindsIn (lam b scope) .assumes b scope
  | letIn {b : Binding} {ty value scope : Expr} : BindsIn (letIn b ty value scope) .defines b scope

/-- Somewhere in the expression, a binder stands in the scope of a binder of the same variable. The
outer and the inner binder are of kinds that `kinds` relates. -/
def Rebinds (kinds : Binder → Binder → Prop) (e : Expr) : Prop :=
  ∃ b outer kind scope inner kind' scope', Occurs outer e ∧ BindsIn outer kind b scope ∧
    Occurs inner scope ∧ BindsIn inner kind' b scope' ∧ kinds kind kind'

end Expr

/-! ## Names do not matter -/

namespace Expr

theorem ResolvedTo.part {visible : Visible} {e e' part : Expr} (h : ResolvedTo visible e e')
    (hpart : part ∈ e.parts) :
    ∃ visible' part', ResolvedTo visible' part part' ∧ part' ∈ e'.parts := by
  obtain ⟨i, hi⟩ := List.mem_iff_getElem?.1 hpart
  induction h using ResolvedTo.induction with
  | name => cases hpart
  | node _ _ hlabel hparts =>
    obtain ⟨bs, hp⟩ := exists_scopedPart_of_part hi
    obtain ⟨part', hp'⟩ := exists_scopedPart hlabel hp
    exact ⟨_, part', hparts i bs part part' hp hp',
      List.mem_of_getElem? (scopedParts_eq_some.1 hp').2⟩

theorem ResolvedTo.occurs {visible : Visible} {e e' inner : Expr} (h : ResolvedTo visible e e')
    (hocc : Occurs inner e) :
    ∃ visible' inner', ResolvedTo visible' inner inner' ∧ Occurs inner' e' := by
  induction hocc generalizing visible e' with
  | here => exact ⟨visible, e', h, .here⟩
  | inside hpart _ ih =>
    obtain ⟨visible', part', hres, hmem⟩ := h.part hpart
    obtain ⟨visible'', inner', hinner, hocc⟩ := ih hres
    exact ⟨visible'', inner', hinner, .inside hmem hocc⟩

theorem ResolvedTo.bindsIn {visible : Visible} {e e' scope : Expr} {kind : Binder} {b : Binding}
    (h : ResolvedTo visible e e') (hb : BindsIn e kind b scope) :
    ∃ visible' scope', ResolvedTo visible' scope scope' ∧ BindsIn e' kind b scope' := by
  induction h using ResolvedTo.induction with
  | name => cases hb
  | @node visible e e' _ _ hlabel hparts =>
    cases hb with
    | pi =>
      cases e' <;> cases hlabel
      exact ⟨_, _, hparts 1 [b] _ _ rfl rfl, .pi⟩
    | lam =>
      cases e' <;> cases hlabel
      exact ⟨_, _, hparts 0 [b] _ _ rfl rfl, .lam⟩
    | letIn =>
      cases e' <;> cases hlabel
      exact ⟨_, _, hparts 2 [b] _ _ rfl rfl, .letIn⟩

/-- Resolving names changes neither the binders of an expression nor their scopes. -/
theorem ResolvedTo.rebinds {visible : Visible} {e e' : Expr} (h : ResolvedTo visible e e')
    {kinds : Binder → Binder → Prop} (hr : e.Rebinds kinds) : e'.Rebinds kinds := by
  obtain ⟨b, outer, kind, scope, inner, kind', scope', houter, hbinds, hinner, hbinds', hkinds⟩ := hr
  obtain ⟨_, outer', hresolved, houter'⟩ := h.occurs houter
  obtain ⟨_, rscope, hresolved, hbouter⟩ := hresolved.bindsIn hbinds
  obtain ⟨_, inner', hresolved, hinner'⟩ := hresolved.occurs hinner
  obtain ⟨_, rscope', -, hbinner⟩ := hresolved.bindsIn hbinds'
  exact ⟨b, outer', kind, rscope, inner', kind', rscope', houter', hbouter, hinner', hbinner, hkinds⟩

end Expr

/-! ## Everything in an expression is elaborated -/

/-- The variable is in scope in the given way. -/
def Binder.InScope (Γ : Context) (s : Store) (b : Binding) : Binder → Prop
  | assumes => (Γ.lookup b).isSome = true
  | defines => (s.definitions.lookup b).isSome = true

namespace Scope

variable {α : Type}

theorem isSome_lookup_bind {s : Scope α} {b c : Binding} {a : α}
    (h : c = b ∨ (s.lookup c).isSome = true) : ((s.bind b a).lookup c).isSome = true := by
  by_cases hcb : c = b
  · subst hcb
    rw [lookup_eq_or, bind, List.lookup_append, List.lookup_cons_self]
    cases List.lookup c s.inner <;> rfl
  · rw [lookup_bind_of_ne s a hcb]
    exact h.resolve_left hcb

end Scope

theorem Peels.isSome_lookup {t u : Term} {peeled : Telescope} {s s' : Store}
    (h : Peels t s peeled u s') {b : Binding} (hb : (s.definitions.lookup b).isSome = true) :
    (s'.definitions.lookup b).isSome = true := by
  induction h with
  | head h _ => rwa [h.ages.isSome_lookup]
  | peel h _ _ ih =>
    refine ih (Scope.isSome_lookup_bind (.inr ?_))
    rwa [h.ages.isSome_lookup]

namespace Elaborates

variable {Γ : Context} {mode : Mode} {s s' : Store} {e : Expr} {r : Annotated}

/-- A part of an expression is elaborated too, and what is in scope outside is in scope there. -/
theorem part (h : Elaborates Γ mode s e r s') {part : Expr} (hpart : part ∈ e.parts) :
    ∃ Γ' mode' s₁ r' s₂, Elaborates Γ' mode' s₁ part r' s₂ ∧
      ∀ kind b, Binder.InScope Γ s b kind → Binder.InScope Γ' s₁ b kind := by
  cases h with
  | type | boolType | bool | ref => cases hpart
  | @pi _ _ c domain codomain A B _ _ s₁ s₂ _ hA _ hB _ =>
    simp only [Expr.parts, List.mem_cons, List.not_mem_nil, or_false] at hpart
    rcases hpart with rfl | rfl
    · exact ⟨_, _, _, _, _, hA, fun _ _ hb => hb⟩
    · refine ⟨_, _, _, _, _, hB, fun kind b hb => ?_⟩
      cases kind with
      | assumes => exact Scope.isSome_lookup_bind (.inr hb)
      | defines => simpa [Binder.InScope, hA.definitions_eq] using hb
  | @lam _ _ c body T A B name peeled r' _ s₁ s₂ _ hpeel _ hbody =>
    simp only [Expr.parts, List.mem_cons, List.not_mem_nil, or_false] at hpart
    subst hpart
    refine ⟨_, _, _, _, _, hbody, fun kind b hb => ?_⟩
    cases kind with
    | assumes => exact Scope.isSome_lookup_bind (.inr hb)
    | defines => exact hpeel.isSome_lookup (by simpa [Binder.InScope] using hb)
  | @app _ _ function argument A B name peeled f a _ _ s₁ s₂ s₃ _ hf hpeel ha _ =>
    simp only [Expr.parts, List.mem_cons, List.not_mem_nil, or_false] at hpart
    rcases hpart with rfl | rfl
    · exact ⟨_, _, _, _, _, hf, fun _ _ hb => hb⟩
    · refine ⟨_, _, _, _, _, ha, fun kind b hb => ?_⟩
      cases kind with
      | assumes => exact hb
      | defines => exact hpeel.isSome_lookup (by simpa [Binder.InScope, hf.definitions_eq] using hb)
  | @letIn _ _ c ty value body A v r' _ s₁ s₂ s₃ hA hv _ hbody =>
    simp only [Expr.parts, List.mem_cons, List.not_mem_nil, or_false] at hpart
    rcases hpart with rfl | rfl | rfl
    · exact ⟨_, _, _, _, _, hA, fun _ _ hb => hb⟩
    · refine ⟨_, _, _, _, _, hv, fun kind b hb => ?_⟩
      cases kind with
      | assumes => exact hb
      | defines => simpa [Binder.InScope, hA.definitions_eq] using hb
    · refine ⟨_, _, _, _, _, hbody, fun kind b hb => ?_⟩
      cases kind with
      | assumes => exact hb
      | defines =>
        refine Scope.isSome_lookup_bind (.inr ?_)
        simpa [Binder.InScope, Scope.lookup_derive, hv.definitions_eq, hA.definitions_eq] using hb

/-- **Nothing is skipped.** Whatever stands in an expression is elaborated with it, in a scope that
has at least the variables of the scope outside. -/
theorem occurs (h : Elaborates Γ mode s e r s') {inner : Expr} (hocc : inner.Occurs e) :
    ∃ Γ' mode' s₁ r' s₂, Elaborates Γ' mode' s₁ inner r' s₂ ∧
      ∀ kind b, Binder.InScope Γ s b kind → Binder.InScope Γ' s₁ b kind := by
  induction hocc generalizing Γ mode s r s' with
  | here => exact ⟨_, _, _, _, _, h, fun _ _ hb => hb⟩
  | inside hpart _ ih =>
    obtain ⟨Γ₁, mode₁, s₁, r₁, s₂, hpart, hwider⟩ := h.part hpart
    obtain ⟨Γ₂, mode₂, s₃, r₂, s₄, hinner, hwider'⟩ := ih hpart
    exact ⟨Γ₂, mode₂, s₃, r₂, s₄, hinner, fun kind b hb => hwider' kind b (hwider kind b hb)⟩

/-- A binder is elaborated only if its variable is not in scope in the same way. It is so in the
scope of the binder. -/
theorem bindsIn (h : Elaborates Γ mode s e r s') {kind : Binder} {b : Binding} {scope : Expr}
    (hb : e.BindsIn kind b scope) :
    ¬ Binder.InScope Γ s b kind ∧ ∃ Γ' mode' s₁ r' s₂, Elaborates Γ' mode' s₁ scope r' s₂ ∧
      Binder.InScope Γ' s₁ b kind := by
  cases hb with
  | pi =>
    cases h with
    | pi _ hnone hB _ =>
      exact ⟨by simp [Binder.InScope, hnone], _, _, _, _, _, hB, Scope.isSome_lookup_bind (.inl rfl)⟩
  | lam =>
    cases h with
    | lam _ _ hnone hbody =>
      exact ⟨by simp [Binder.InScope, hnone], _, _, _, _, _, hbody,
        Scope.isSome_lookup_bind (.inl rfl)⟩
  | letIn =>
    cases h with
    | letIn hA hv hnone hbody =>
      rw [hv.definitions_eq, hA.definitions_eq] at hnone
      exact ⟨by simp [Binder.InScope, hnone], _, _, _, _, _, hbody,
        Scope.isSome_lookup_bind (.inl rfl)⟩

theorem not_rebinds (h : Elaborates Γ mode s e r s') : ¬ e.Rebinds (· = ·) := by
  rintro ⟨b, outer, kind, scope, inner, kind', scope', houter, hbinds, hinner, hbinds', rfl⟩
  obtain ⟨Γ₁, mode₁, s₁, r₁, s₂, helab, -⟩ := h.occurs houter
  obtain ⟨-, Γ₂, mode₂, s₃, r₂, s₄, hscope, hin⟩ := helab.bindsIn hbinds
  obtain ⟨Γ₃, mode₃, s₅, r₃, s₆, helab', hwider⟩ := hscope.occurs hinner
  exact (helab'.bindsIn hbinds').1 (hwider kind b hin)

end Elaborates

/-! ## Closed expressions -/

/-- **Binding a variable again in the same way is refused.** If in an expression, or in the type it is
elaborated against, a function or function type binds a variable of an enclosing one again, or a
`let` that of an enclosing `let`, then the expression has no elaboration. -/
theorem rebinding_refused {fuel : Nat} {e ty : Expr} {s : Store}
    (h : e.Rebinds (· = ·) ∨ ty.Rebinds (· = ·)) :
    (elaborateClosed fuel e ty).answer? s = none := by
  refine Option.eq_none_iff_forall_ne_some.2 fun r hr => ?_
  obtain ⟨s', hrun⟩ := Check.answer?_eq_some.1 hr
  obtain ⟨e', ty', T, t, s₁, hre, hrt, helabT, helabt, -⟩ := elaborates_of_elaborateClosed hrun
  rcases h with h | h
  · exact helabt.not_rebinds (((e.resolve_eq_ok_iff _ _).1 hre).rebinds h)
  · exact helabT.not_rebinds (((ty.resolve_eq_ok_iff _ _).1 hrt).rebinds h)

/-- A function of `x` that returns a function of the same `x`. -/
theorem rebinding_refused_function :
    let x : Binding := ⟨0, "x"⟩
    let e : Expr := .lam x (.lam x (.ref x))
    let ty : Expr := .pi ⟨1, "a"⟩ .boolType (.pi ⟨2, "b"⟩ .type .boolType)
    e.Rebinds (· = ·) ∧ (elaborateClosed 20 e ty).answer? { supply := ⟨3⟩ } = none := by
  intro x e ty
  have h : e.Rebinds (· = ·) :=
    ⟨x, e, .assumes, .lam x (.ref x), .lam x (.ref x), .assumes, .ref x,
      .here, .lam, .here, .lam, rfl⟩
  exact ⟨h, rebinding_refused (.inl h)⟩

/-- A function may bind the variable of an enclosing `let` again. In its body the variable has the
type that the `let` gives it, so what is elaborated to the identity is found to be a function from
types to booleans. -/
theorem elaborated_although_rebound :
    let x : Binding := ⟨0, "x"⟩
    let e : Expr := .letIn x .boolType (.bool true) (.lam x (.ref x))
    let ty : Expr := .pi ⟨1, "_"⟩ .type .boolType
    e.Rebinds (fun _ _ => True) ∧ (elaborateClosed 20 e ty).answer? { supply := ⟨2⟩ } =
      some ⟨.lam (.bound 0), .pi "_" .type .boolType⟩ := by
  intro x e ty
  exact ⟨⟨x, e, .defines, .lam x (.ref x), .lam x (.ref x), .assumes, .ref x, .here, .letIn, .here,
    .lam, trivial⟩, by decide +kernel⟩

end DepLang
