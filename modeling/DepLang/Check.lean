import DepLang.Error
import DepLang.Reduction

/-!
# Computations that can find a fault

Comparing terms and elaborating expressions run over the same store as reduction, and can besides
end in an `ElaborationError`. The store outlives the error: normal forms that were remembered before
it stay remembered.
-/
namespace DepLang

/-- A computation over a store that ends in a value or in an error, or has no answer for want of
fuel. -/
abbrev Check := ExceptT ElaborationError Reduction

namespace Check

variable {α : Type}

/-- Ends in an error. -/
def fail (error : ElaborationError) : Check α := ExceptT.mk fun s => some (.error error, s)

/-- Ends as a lookup in a scope does. -/
def ofScope : Except ScopeError α → Check α
  | .ok a => pure a
  | .error error => fail (.scope error)

/-- Ends as the resolution of names does. -/
def ofResolution : Except Unresolved α → Check α
  | .ok a => pure a
  | .error error => fail (.unresolved error)

/-- Runs a computation in a derived scope, and forgets what it did to the definitions. -/
def locally (x : Check α) : Check α := ExceptT.mk (Reduction.locally x.run)

/-- Defines a variable, unless it is defined already. -/
def define (b : Binding) (d : Definition) : Check Unit := ExceptT.mk fun s =>
  match s.definitions.insert b d with
  | .ok definitions => some (.ok (), { s with definitions })
  | .error error => some (.error (.scope error), s)

/-- The type of a variable: that of its definition if it has one, otherwise the one that the context
gives it. -/
def typeOf (Γ : Context) (b : Binding) : Check Term := do
  match ← Reduction.definition? b with
  | some d => return d.ty
  | none => ofScope (Γ.get b)

/-- A run of two computations ends in the error of the first, or else as the second does from the
store it finds. -/
theorem bind_apply {β : Type} (x : Check α) (f : α → Check β) (s : Store) :
    (x >>= f).run s = (x.run s).bind fun r =>
      match r with
      | (.ok a, t) => (f a).run t
      | (.error error, t) => some (.error error, t) := by
  change Option.bind (x.run s) _ = _
  congr 1
  funext r
  obtain ⟨_ | _, _⟩ := r <;> rfl

end Check

end DepLang
