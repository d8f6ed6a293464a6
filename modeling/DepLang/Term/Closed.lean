import DepLang.Term.Usage

/-!
# Local closure and substitution

A term is **closed at a depth** if each of its indices is bound once that many binders are put
around it, and **locally closed** if it is closed at depth 0: then no index dangles, and putting the
term under binders captures nothing.

`Term.subst` puts a term for a free variable. Opening a binder with a variable and then substituting
for it is another way to instantiate the binder.
-/
namespace DepLang.Term

/-- Every index is bound, counting `depth` binders around the term. -/
def ClosedAt (depth : Nat) : Term → Prop
  | bound i => i < depth
  | lam body => ClosedAt (depth + 1) body
  | pi _ domain codomain => ClosedAt depth domain ∧ ClosedAt (depth + 1) codomain
  | app function argument => ClosedAt depth function ∧ ClosedAt depth argument
  | letIn _ ty value body => ClosedAt depth ty ∧ ClosedAt depth value ∧ ClosedAt (depth + 1) body
  | free _ | bool _ | boolType | type => True

/-- Local closure is decided by looking at every index. -/
def decideClosedAt (depth : Nat) : (t : Term) → Decidable (ClosedAt depth t)
  | bound i => inferInstanceAs (Decidable (i < depth))
  | lam body => decideClosedAt (depth + 1) body
  | pi _ domain codomain =>
    have := decideClosedAt depth domain
    have := decideClosedAt (depth + 1) codomain
    inferInstanceAs (Decidable (_ ∧ _))
  | app function argument =>
    have := decideClosedAt depth function
    have := decideClosedAt depth argument
    inferInstanceAs (Decidable (_ ∧ _))
  | letIn _ ty value body =>
    have := decideClosedAt depth ty
    have := decideClosedAt depth value
    have := decideClosedAt (depth + 1) body
    inferInstanceAs (Decidable (_ ∧ _ ∧ _))
  | free _ | bool _ | boolType | type => isTrue trivial

instance (depth : Nat) (t : Term) : Decidable (ClosedAt depth t) := decideClosedAt depth t

/-- No index dangles. -/
def LocallyClosed (t : Term) : Prop := ClosedAt 0 t

instance (t : Term) : Decidable (LocallyClosed t) := inferInstanceAs (Decidable (ClosedAt 0 t))

/-- Puts `s` for a free variable. -/
def subst (b : Binding) (s : Term) : Term → Term
  | bound i => bound i
  | free c => if c = b then s else free c
  | lam body => lam (subst b s body)
  | pi name domain codomain => pi name (subst b s domain) (subst b s codomain)
  | app function argument => app (subst b s function) (subst b s argument)
  | bool value => bool value
  | boolType => boolType
  | type => type
  | letIn name ty value body => letIn name (subst b s ty) (subst b s value) (subst b s body)

theorem ClosedAt.mono {t : Term} {m n : Nat} (h : t.ClosedAt m) (hmn : m ≤ n) : t.ClosedAt n := by
  induction t generalizing m n with
  | bound i => exact Nat.lt_of_lt_of_le h hmn
  | free | bool | boolType | type => trivial
  | lam body ih => exact ih h (Nat.succ_le_succ hmn)
  | pi _ _ _ ihd ihc => exact ⟨ihd h.1 hmn, ihc h.2 (Nat.succ_le_succ hmn)⟩
  | app _ _ ihf iha => exact ⟨ihf h.1 hmn, iha h.2 hmn⟩
  | letIn _ _ _ _ iht ihv ihb =>
    exact ⟨iht h.1 hmn, ihv h.2.1 hmn, ihb h.2.2 (Nat.succ_le_succ hmn)⟩

end DepLang.Term
