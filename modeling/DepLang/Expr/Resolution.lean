import DepLang.Expr

/-!
# Name resolution

Resolution replaces every reference by name with a reference to the nearest enclosing binder of that
name. The binder of a `let` is visible in its body only, the binder of a `pi` in its codomain, and
each parameter of a `sigma` in the later parameters and in the last component. References that are
resolved already are left alone.

The first unresolved name, reading from left to right, is the error.
-/
namespace DepLang

/-- A name that no visible binding has. -/
structure Unresolved where
  name : String
deriving DecidableEq, Repr

/-- The bindings a name can refer to, the nearest first. -/
abbrev Visible := List Binding

namespace Visible

/-- The nearest binding of a name. -/
def find (visible : Visible) (x : String) : Except Unresolved Binding :=
  match visible.find? (fun b => b.name = x) with
  | some b => .ok b
  | none => .error ⟨x⟩

/-- The bindings visible behind a list of parameters. -/
def extend (visible : Visible) (params : List (Param Expr)) : Visible :=
  params.foldl (fun inner p => p.binding :: inner) visible

end Visible

namespace Expr

mutual

def resolve (visible : Visible) : Expr → Except Unresolved Expr
  | type => return type
  | boolType => return boolType
  | bool value => return bool value
  | pi b domain codomain => do
    let domain ← resolve visible domain
    return pi b domain (← resolve (b :: visible) codomain)
  | lam b body => return lam b (← resolve (b :: visible) body)
  | app function argument => do
    let function ← resolve visible function
    return app function (← resolve visible argument)
  | name x => return ref (← visible.find x)
  | ref b => return ref b
  | letIn b ty value body => do
    let ty ← resolve visible ty
    let value ← resolve visible value
    return letIn b ty value (← resolve (b :: visible) body)
  | sigma params last => do
    let resolved ← resolveParams visible params
    return sigma resolved (← resolve (visible.extend params) last)
  | tuple elements => return tuple (← resolveAll visible elements)

/-- Each parameter sees the ones before it. -/
def resolveParams (visible : Visible) : List (Param Expr) → Except Unresolved (List (Param Expr))
  | [] => return []
  | ⟨b, ty⟩ :: rest => do
    let ty ← resolve visible ty
    return ⟨b, ty⟩ :: (← resolveParams (b :: visible) rest)

def resolveAll (visible : Visible) : List Expr → Except Unresolved (List Expr)
  | [] => return []
  | e :: rest => do
    let e ← resolve visible e
    return e :: (← resolveAll visible rest)

end

end Expr

end DepLang
