import DepLang.Binding

/-!
# Surface expressions

An expression is what a user writes. Every binder already carries its `Binding`; a reference is
either a bare name, still to be resolved, or the binding it means. `sigma` and `tuple` can be
written but have no elaboration rule.
-/
namespace DepLang

/-- A binder with the type of its variable. -/
structure Param (τ : Type) where
  binding : Binding
  ty : τ
deriving Repr

inductive Expr where
  | type
  | boolType
  | bool (value : Bool)
  | pi (binding : Binding) (domain codomain : Expr)
  | lam (binding : Binding) (body : Expr)
  | app (function argument : Expr)
  /-- A reference by name. -/
  | name (name : String)
  /-- A reference that has been resolved. -/
  | ref (binding : Binding)
  | letIn (binding : Binding) (ty value body : Expr)
  | sigma (params : List (Param Expr)) (last : Expr)
  | tuple (elements : List Expr)
deriving Repr, Inhabited

namespace Expr

/-- Applies a function to arguments, one after the other. -/
def applyAll (function : Expr) (arguments : List Expr) : Expr :=
  arguments.foldl app function

/-- The type of a function of several parameters, each visible in the types of the later ones. -/
def piTelescope (params : List (Param Expr)) (last : Expr) : Expr :=
  params.foldr (fun p codomain => pi p.binding p.ty codomain) last

end Expr

end DepLang
