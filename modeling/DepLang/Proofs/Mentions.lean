import DepLang.Proofs.LocallyNameless
import DepLang.Session

/-!
# What is mentioned

Many statements ask that all bindings which something mentions satisfy a condition: that they were
minted before, that they are in scope, that a renaming knows them. The condition is a parameter
here, and `Below n` is the condition that identities are below `n`.

* `Expr.Over` is about references and `Expr.All` is about binders as well. Elaboration does not look
  into forms for which it has no rule, but its errors show them. So `Expr.All` looks into these forms
  or does not.
* `Context.Over` and `Store.Over` are about the entries, their types and their values.
* `Step.All` is about the expressions of a step, or also about its terms.
-/
namespace DepLang

namespace Expr

/-- Every variable that the expression refers to satisfies `P`. Forms without an elaboration rule
are not looked into. -/
def Over (P : Binding → Prop) : Expr → Prop
  | ref b => P b
  | pi _ domain codomain => Over P domain ∧ Over P codomain
  | lam _ body => Over P body
  | app function argument => Over P function ∧ Over P argument
  | letIn _ ty value body => Over P ty ∧ Over P value ∧ Over P body
  | type | boolType | bool _ | name _ | sigma _ _ | tuple _ => True

mutual

/-- Every binder and every reference satisfies `P`. Forms without an elaboration rule are looked
into only if `whole` is set. -/
def All (whole : Bool) (P : Binding → Prop) : Expr → Prop
  | type | boolType | bool _ | name _ => True
  | pi b domain codomain => P b ∧ All whole P domain ∧ All whole P codomain
  | lam b body => P b ∧ All whole P body
  | app function argument => All whole P function ∧ All whole P argument
  | ref b => P b
  | letIn b ty value body => P b ∧ All whole P ty ∧ All whole P value ∧ All whole P body
  | sigma params last => whole = true → AllParams whole P params ∧ All whole P last
  | tuple elements => whole = true → AllElements whole P elements

def AllParams (whole : Bool) (P : Binding → Prop) : List (Param Expr) → Prop
  | [] => True
  | ⟨b, ty⟩ :: rest => P b ∧ All whole P ty ∧ AllParams whole P rest

def AllElements (whole : Bool) (P : Binding → Prop) : List Expr → Prop
  | [] => True
  | e :: rest => All whole P e ∧ AllElements whole P rest

end

/-- All binders and references have identities below `n`. Forms without an elaboration rule are not
looked into. -/
def Below (n : Nat) (e : Expr) : Prop := e.All false fun b => b.id < n

theorem All.refs_over {whole : Bool} {P : Binding → Prop} {e : Expr} (h : e.All whole P) :
    e.Over P := by
  cases e with
  | type | boolType | bool | name | sigma | tuple => trivial
  | ref b => exact h
  | pi b domain codomain => exact ⟨h.2.1.refs_over, h.2.2.refs_over⟩
  | lam b body => exact All.refs_over (e := body) h.2
  | app function argument => exact ⟨h.1.refs_over, h.2.refs_over⟩
  | letIn b ty value body => exact ⟨h.2.1.refs_over, h.2.2.1.refs_over, h.2.2.2.refs_over⟩

theorem All.mono {whole : Bool} {P Q : Binding → Prop} {e : Expr} (h : e.All whole P)
    (hPQ : ∀ b, P b → Q b) : e.All false Q := by
  cases e with
  | type | boolType | bool | name => trivial
  | sigma | tuple => exact fun hwhole => by cases hwhole
  | pi b domain codomain => exact ⟨hPQ b h.1, h.2.1.mono hPQ, h.2.2.mono hPQ⟩
  | lam b body => exact ⟨hPQ b h.1, h.2.mono hPQ⟩
  | app function argument => exact ⟨h.1.mono hPQ, h.2.mono hPQ⟩
  | ref b => exact hPQ b h
  | letIn b ty value body =>
    exact ⟨hPQ b h.1, h.2.1.mono hPQ, h.2.2.1.mono hPQ, h.2.2.2.mono hPQ⟩

end Expr

/-- What the context binds, and what the types mention, satisfies `P`. -/
def Context.Over (P : Binding → Prop) (Γ : Context) : Prop :=
  ∀ b A, Γ.lookup b = some A → P b ∧ A.Over P

def Context.Below (n : Nat) (Γ : Context) : Prop := Γ.Over fun b => b.id < n

/-- What is defined, and what types and values mention, satisfies `P`. -/
def Store.Over (P : Binding → Prop) (s : Store) : Prop :=
  ∀ b d, s.definitions.lookup b = some d → P b ∧ d.ty.Over P ∧ d.value.Over P

namespace Step

/-- The bindings in the expressions of the step, and the one that it binds, satisfy `P`. If `whole`
is set, so do those of its terms, and all forms of expressions are looked into. -/
def All (whole : Bool) (P : Binding → Prop) : Step → Prop
  | define b ty value => P b ∧ ty.All whole P ∧ value.All whole P
  | assume b ty => P b ∧ (whole = true → ty.Over P)
  | infer e | type e => e.All whole P
  | check e ty => e.All whole P ∧ (whole = true → ty.Over P)
  | checkAt e ty => e.All whole P ∧ ty.All whole P
  | unify lhs rhs ty =>
    whole = true → lhs.Over P ∧ rhs.Over P ∧ ∀ T, ty = some T → T.Over P
  | reduce t | close t => whole = true → t.Over P

/-- The bindings in the expressions of the step, and the one that it binds, are below `n`. -/
def Minted (n : Nat) (st : Step) : Prop := st.All false fun b => b.id < n

/-- All bindings of the step are below `n`. -/
def Below (n : Nat) (st : Step) : Prop := st.All true fun b => b.id < n

end Step

end DepLang
