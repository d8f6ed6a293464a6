import DepLang.Binding

/-!
# Scope chains

A **scope** is a chain of frames. The innermost frame belongs to the scope itself, the others to the
scopes it was derived from. A frame keeps its entries in the order in which they were bound.

* Looking up a binding tries the innermost frame first, so an entry shadows one of an outer frame.
* Everything that changes a scope changes its innermost frame only. A scope is a value: what is done
  to a derived scope never shows in the scope it was derived from.
* `Scope.bindings` lists the whole chain as one table, in the order of first binding, with the
  values that a lookup finds.
-/
namespace DepLang

/-- Why a binding was refused. -/
inductive ScopeError where
  | notInScope (binding : Binding)
  | alreadyInScope (binding : Binding)
deriving DecidableEq, Repr

namespace ScopeError

def binding : ScopeError → Binding
  | notInScope b => b
  | alreadyInScope b => b

/-- The error in words; `identify` writes the identity of a binding. -/
def text (identify : Binding → String) : ScopeError → String
  | notInScope b => "binding #" ++ identify b ++ " is not in scope"
  | alreadyInScope b => "binding #" ++ identify b ++ " is already in scope"

end ScopeError

/-- The entries that one scope of a chain holds itself, in the order in which they were bound. -/
abbrev Frame (α : Type) := List (Binding × α)

/-- A chain of frames, the innermost apart and the others from the inside out. -/
structure Scope (α : Type) where
  inner : Frame α := []
  outer : List (Frame α) := []
deriving Repr

namespace Scope

variable {α : Type}

/-- All frames, the innermost first. -/
def frames (s : Scope α) : List (Frame α) := s.inner :: s.outer

/-- The innermost entry of a binding. -/
def lookup (s : Scope α) (b : Binding) : Option α :=
  s.frames.findSome? (List.lookup b)

def contains (s : Scope α) (b : Binding) : Bool := (s.lookup b).isSome

def get (s : Scope α) (b : Binding) : Except ScopeError α :=
  match s.lookup b with
  | some a => .ok a
  | none => .error (.notInScope b)

/-- Binds a variable that is known to be new. -/
def bind (s : Scope α) (b : Binding) (a : α) : Scope α :=
  { s with inner := s.inner ++ [(b, a)] }

/-- Binds a variable, unless some frame of the chain binds it already. -/
def insert (s : Scope α) (b : Binding) (a : α) : Except ScopeError (Scope α) :=
  if s.contains b then .error (.alreadyInScope b) else .ok (s.bind b a)

/-- A scope inside this one, with nothing in it yet. -/
def derive (s : Scope α) : Scope α := { inner := [], outer := s.frames }

/-- The bindings of the chain in the order of first binding: outer frames before inner ones, each in
its order. -/
def keys (s : Scope α) : List Binding :=
  (s.frames.reverse.flatten.map Prod.fst).eraseDups

/-- The chain as one table: each binding once, with the value that a lookup finds. -/
def bindings (s : Scope α) : List (Binding × α) :=
  s.keys.filterMap fun b => (s.lookup b).map fun a => (b, a)

end Scope

end DepLang
