import DepLang.Binding

/-!
# Core terms

Core terms are **locally nameless**: a variable under its binder is an index, counted from the
innermost binder, and a variable whose binder has been opened is a free `Binding`.

* `Term.instantiate` replaces the variable of the outermost binder, `Term.openWith` does so with a
  free variable, and `Term.close` undoes that: it turns a free variable back into an index.
* `Term.replaceAt` does not shift the term it puts in and does not lower other indices. That is the
  right substitution for terms without dangling indices, which is all that a typed program ever puts
  in; a dangling index is captured by the binders it is put under.
* `Term.mapChildren` and `Term.children` look one level down. `replaceAt` and `closeAt` are
  `mapChildren` iterated (`replaceAt_eq_mapChildren`, `closeAt_eq_mapChildren`).
-/
namespace DepLang

/-- A term of the core calculus. Functions are unnamed; `pi` and `letIn` keep the name of their
variable. -/
inductive Term where
  /-- A variable under its binder. -/
  | bound (index : Nat)
  /-- A variable whose binder has been opened. -/
  | free (binding : Binding)
  | lam (body : Term)
  | pi (name : String) (domain codomain : Term)
  | app (function argument : Term)
  | bool (value : Bool)
  | boolType
  /-- The universe, which contains itself. -/
  | type
  | letIn (name : String) (ty value body : Term)
deriving DecidableEq, Repr, Inhabited

namespace Term

/-- Applies a function to arguments, one after the other. -/
def applyAll (function : Term) (arguments : List Term) : Term :=
  arguments.foldl app function

/-- The term is in weak head normal form at a glance. -/
def isStable : Term → Bool
  | lam _ | pi _ _ _ | bool _ | boolType | type => true
  | bound _ | free _ | app _ _ | letIn _ _ _ _ => false

/-- The term forms a type. -/
def isFormation : Term → Bool
  | pi _ _ _ | boolType | type => true
  | bound _ | free _ | lam _ | app _ _ | bool _ | letIn _ _ _ _ => false

def isLet : Term → Bool
  | letIn _ _ _ _ => true
  | _ => false

/-- The function at the head of a spine of applications. -/
def spineHead : Term → Term
  | app function _ => spineHead function
  | t => t

def isFree : Term → Bool
  | free _ => true
  | _ => false

/-- The body of an outermost binder. -/
def body? : Term → Option Term
  | lam body => some body
  | pi _ _ body => some body
  | letIn _ _ _ body => some body
  | _ => none

/-! ## One level down -/

/-- Rebuilds a node from its immediate subterms. `f` also receives the number of binders between
the node and the subterm. -/
def mapChildren (f : Nat → Term → Term) : Term → Term
  | lam body => lam (f 1 body)
  | pi name domain codomain => pi name (f 0 domain) (f 1 codomain)
  | app function argument => app (f 0 function) (f 0 argument)
  | letIn name ty value body => letIn name (f 0 ty) (f 0 value) (f 1 body)
  | t => t

/-- The immediate subterms, from left to right. -/
def children : Term → List Term
  | lam body => [body]
  | pi _ domain codomain => [domain, codomain]
  | app function argument => [function, argument]
  | letIn _ ty value body => [ty, value, body]
  | _ => []

/-! ## Opening and closing binders -/

/-- Replaces the variable `index` binders up by `s`. -/
def replaceAt (s : Term) (index : Nat) : Term → Term
  | bound i => if i = index then s else bound i
  | free b => free b
  | lam body => lam (replaceAt s (index + 1) body)
  | pi name domain codomain => pi name (replaceAt s index domain) (replaceAt s (index + 1) codomain)
  | app function argument => app (replaceAt s index function) (replaceAt s index argument)
  | bool value => bool value
  | boolType => boolType
  | type => type
  | letIn name ty value body =>
    letIn name (replaceAt s index ty) (replaceAt s index value) (replaceAt s (index + 1) body)

/-- Turns a free variable into the variable `index` binders up. -/
def closeAt (b : Binding) (index : Nat) : Term → Term
  | bound i => bound i
  | free c => if c = b then bound index else free c
  | lam body => lam (closeAt b (index + 1) body)
  | pi name domain codomain => pi name (closeAt b index domain) (closeAt b (index + 1) codomain)
  | app function argument => app (closeAt b index function) (closeAt b index argument)
  | bool value => bool value
  | boolType => boolType
  | type => type
  | letIn name ty value body =>
    letIn name (closeAt b index ty) (closeAt b index value) (closeAt b (index + 1) body)

/-- Puts `s` for the variable of the binder whose body this is. -/
def instantiate (body s : Term) : Term := replaceAt s 0 body

/-- Opens the body of a binder with a free variable. -/
def openWith (body : Term) (b : Binding) : Term := body.instantiate (free b)

/-- Makes a term the body of a binder for one of its free variables. -/
def close (t : Term) (b : Binding) : Term := closeAt b 0 t

theorem replaceAt_eq_mapChildren (s : Term) (index : Nat) (t : Term) (h : t ≠ bound index) :
    replaceAt s index t = t.mapChildren fun depth u => replaceAt s (index + depth) u := by
  cases t with
  | bound i =>
    have : i ≠ index := fun e => h (e ▸ rfl)
    simp [replaceAt, mapChildren, this]
  | _ => simp [replaceAt, mapChildren]

theorem closeAt_eq_mapChildren (b : Binding) (index : Nat) (t : Term) (h : t ≠ free b) :
    closeAt b index t = t.mapChildren fun depth u => closeAt b (index + depth) u := by
  cases t with
  | free c =>
    have : c ≠ b := fun e => h (e ▸ rfl)
    simp [closeAt, mapChildren, this]
  | _ => simp [closeAt, mapChildren]

end Term

end DepLang
