import DepLang.Proofs.Elaborates
import DepLang.Proofs.Mentions

/-!
# Elaboration is translation

Elaboration infers types, compares them, normalises them and moves their `let`s in and out of the
store. None of this shows in the term that it returns: the term is the plain translation of the
expression, `Expr.translate`, which knows nothing of types, modes or definitions.

* `Elaborates.translate_eq`: what a derivation returns is the translation.
* `ElaboratesTo.translate_eq`: the same for the three ways to elaborate an expression; hence they
  agree with each other, whatever they are run with.

The `let`s that are moved out of a type are put back around terms too, and there they vanish. Their
variables are minted during the elaboration, so an expression that was there before it does not
mention them, and a `let` around a term that does not mention its variable is dropped
(`Telescope.wrap_of_fresh`).
-/
namespace DepLang

namespace Expr

/-- The term that an expression stands for, read off its form. A name that is not resolved stands
for nothing, and so does a form without an elaboration rule. -/
def translate : Expr → Option Term
  | type => some .type
  | boolType => some .boolType
  | bool value => some (.bool value)
  | pi b domain codomain => do
    let domain ← translate domain
    let codomain ← translate codomain
    return .pi b.name domain (codomain.close b)
  | lam b body => do
    let body ← translate body
    return .lam (body.close b)
  | app function argument => do
    let function ← translate function
    let argument ← translate argument
    return .app function argument
  | ref b => some (.free b)
  | letIn b ty value body => do
    let ty ← translate ty
    let value ← translate value
    let body ← translate body
    return .makeLet b ty value body
  | name _ | sigma _ _ | tuple _ => none

end Expr

/-- Lets that a term does not use vanish around it. -/
theorem Telescope.wrap_of_fresh {peeled : Telescope} {t : Term}
    (h : ∀ entry ∈ peeled, t.Over (· ≠ entry.1)) : peeled.wrap t = t := by
  induction peeled with
  | nil => rfl
  | cons entry peeled ih =>
    have hrest := ih fun other ho => h other (List.mem_cons_of_mem _ ho)
    show Term.makeLet entry.1 entry.2.ty entry.2.value (Telescope.wrap peeled t) = t
    rw [hrest]
    exact Term.makeLet_of_fresh (h entry List.mem_cons_self)

theorem Peels.le_id {t u : Term} {peeled : Telescope} {s s' : Store} (h : Peels t s peeled u s') :
    ∀ entry ∈ peeled, s.supply.next ≤ entry.1.id := by
  induction h with
  | head => simp
  | peel hn hb _ ih =>
    intro entry hentry
    have hle := hn.ages.supply
    rcases List.mem_cons.1 hentry with rfl | hrest
    · subst hb
      exact hle
    · have := ih entry hrest
      rw [Store.enter_supply_next] at this
      omega

theorem Peels.wrap_eq {t u v : Term} {peeled : Telescope} {s s' : Store}
    (h : Peels t s peeled u s') {n : Nat} (hv : v.Below n) (hn : n ≤ s.supply.next) :
    peeled.wrap v = v :=
  Telescope.wrap_of_fresh fun entry hentry => hv.ne (Nat.le_trans hn (h.le_id entry hentry))

/-- **Elaboration is translation.** The translation exists and is the term that the elaboration
returns; and it mentions only variables that the expression refers to. -/
theorem Elaborates.translate_eq {Γ : Context} {mode : Mode} {e : Expr} {r : Annotated}
    {s s' : Store} (h : Elaborates Γ mode s e r s') {n : Nat} (hn : n ≤ s.supply.next)
    (he : e.Over fun b => b.id < n) : e.translate = some r.term ∧ r.term.Below n := by
  induction h with
  | type h | boolType h | bool h =>
    rw [h.term_eq]
    exact ⟨rfl, trivial⟩
  | ref _ h =>
    rw [h.term_eq]
    exact ⟨rfl, he⟩
  | pi hA _ _ h ihA ihB =>
    obtain ⟨htA, hA'⟩ := ihA hn he.1
    obtain ⟨htB, hB'⟩ := ihB (Nat.le_trans hn hA.supply_le) he.2
    rw [h.term_eq]
    refine ⟨?_, hA', hB'.close _⟩
    rw [Expr.translate, htA, htB]
    rfl
  | @lam _ _ b _ _ _ _ _ _ r _ _ _ _ hpeel _ _ ih =>
    obtain ⟨ht, hb⟩ := ih (Nat.le_trans hn hpeel.supply_le) he
    have hlam : (Term.lam (r.term.close b)).Below n := hb.close b
    rw [hpeel.wrap_eq hlam hn]
    refine ⟨?_, hlam⟩
    rw [Expr.translate, ht]
    rfl
  | app hf hpeel _ h ihf iha =>
    obtain ⟨htf, hbf⟩ := ihf hn he.1
    have hle := Nat.le_trans hn hf.supply_le
    obtain ⟨hta, hba⟩ := iha (Nat.le_trans hle hpeel.supply_le) he.2
    rw [h.term_eq, hpeel.wrap_eq hba hle]
    refine ⟨?_, hbf, hba⟩
    rw [Expr.translate, htf, hta]
    rfl
  | letIn hA hv _ _ ihA ihv ihb =>
    obtain ⟨htA, hA'⟩ := ihA hn he.1
    have hle := Nat.le_trans hn hA.supply_le
    obtain ⟨htv, hv'⟩ := ihv hle he.2.1
    obtain ⟨htb, hb'⟩ := ihb (Nat.le_trans hle hv.supply_le) he.2.2
    refine ⟨?_, ?_⟩
    · rw [Expr.translate, htA, htv, htb]
      rfl
    · rcases Term.makeLet_cases _ _ _ _ with ⟨-, heq⟩ | heq
      · rw [heq]
        exact hb'
      · rw [heq]
        exact ⟨hA', hv', hb'.close _⟩

/-! ## The three ways to elaborate -/

/-- One of the three ways to elaborate an expression returns the term. -/
inductive ElaboratesTo (fuel : Nat) (Γ : Context) (s : Store) (e : Expr) (t : Term) : Prop where
  | type : (elaborateType fuel Γ e).answer? s = some t → ElaboratesTo fuel Γ s e t
  | infer {ty : Term} : (inferType fuel Γ e).answer? s = some ⟨t, ty⟩ → ElaboratesTo fuel Γ s e t
  | check {ty : Term} : (checkType fuel Γ e ty).answer? s = some t → ElaboratesTo fuel Γ s e t

theorem ElaboratesTo.elaborates {fuel : Nat} {Γ : Context} {s : Store} {e : Expr} {t : Term}
    (h : ElaboratesTo fuel Γ s e t) : ∃ mode r s', Elaborates Γ mode s e r s' ∧ r.term = t := by
  cases h with
  | type h | check h =>
    obtain ⟨s', h⟩ := Check.answer?_eq_some.1 h
    obtain ⟨r, hr, ht⟩ := elaborates_of_term h
    exact ⟨_, r, s', hr, ht⟩
  | infer h =>
    obtain ⟨s', h⟩ := Check.answer?_eq_some.1 h
    exact ⟨_, _, s', elaborates_of_run e h, rfl⟩

theorem ElaboratesTo.translate_eq {fuel : Nat} {Γ : Context} {s : Store} {e : Expr} {t : Term}
    (h : ElaboratesTo fuel Γ s e t) (he : e.Over fun b => b.id < s.supply.next) :
    e.translate = some t := by
  obtain ⟨mode, r, s', hr, rfl⟩ := h.elaborates
  exact (hr.translate_eq (Nat.le_refl _) he).1

/-- **The three ways agree.** Whenever one of them succeeds on an expression, in any context and
from any store, the term is the translation of the expression. So it is what every other success
returns, in whatever mode, against whatever type and under whatever definitions. What the expression
refers to has been minted before; its binders may repeat. -/
theorem elaboration_translates {fuel : Nat} {Γ : Context} {s : Store} {e : Expr} {t : Term}
    (he : e.Over fun b => b.id < s.supply.next) (h : ElaboratesTo fuel Γ s e t) :
    e.translate = some t ∧
      ∀ {fuel' : Nat} {Γ' : Context} {s' : Store} {t' : Term},
        (e.Over fun b => b.id < s'.supply.next) → ElaboratesTo fuel' Γ' s' e t' → t' = t := by
  have ht := h.translate_eq he
  refine ⟨ht, fun he' h' => ?_⟩
  have ht' := h'.translate_eq he'
  rw [ht] at ht'
  exact (Option.some.inj ht').symm

/-- The type of `f` is a function type under a `let`. Applying `f` moves the `let` around the
argument and around the type of the result: it stays in the type and vanishes from the term. -/
theorem elaboration_translates_application :
    let f : Binding := ⟨0, "f"⟩
    let y : Binding := ⟨1, "y"⟩
    let e : Expr := .app (.ref f) (.ref y)
    let t : Term := .app (.free f) (.free y)
    let Γ : Context := { inner := [
      (f, .letIn "A" .type .boolType (.pi "x" (.bound 0) (.bound 1))), (y, .boolType)] }
    (inferType 8 Γ e).answer? { supply := ⟨2⟩ } =
        some ⟨t, .letIn "A" .type .boolType (.bound 0)⟩ ∧
      e.translate = some t := by
  intro f y e t Γ
  have hrun : (inferType 8 Γ e).answer? { supply := ⟨2⟩ } =
      some ⟨t, .letIn "A" .type .boolType (.bound 0)⟩ := by decide +kernel
  have he : e.Over fun b => b.id < 2 := by simp [e, f, y, Expr.Over]
  exact ⟨hrun, (elaboration_translates he (.infer hrun)).1⟩

end DepLang
