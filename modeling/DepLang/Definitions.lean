import DepLang.Scope
import DepLang.Term.Usage

/-!
# Contexts and definitions

A **context** gives the types of the variables in scope. **Definitions** give values and types to
the variables that a `let` binds.

The value of a definition may be replaced by an equal one, `Definitions.override`: that is how
normal forms are remembered. Replacing a definition of an outer scope leaves that scope alone and
puts a new entry with the same type into the innermost frame.

`Definitions.wrap` puts a term under the definitions that it depends on, as a chain of `let`s.
-/
namespace DepLang

/-- The value and the type of a variable that a `let` binds. -/
structure Definition where
  value : Term
  ty : Term
deriving DecidableEq, Repr

/-- The types of the variables in scope. -/
abbrev Context := Scope Term

/-- The definitions in scope. -/
abbrev Definitions := Scope Definition

/-- Definitions moved out of a term, the outermost first. -/
abbrev Telescope := List (Binding × Definition)

namespace Telescope

/-- Puts a term under the definitions it depends on. The last definition is the innermost, so each
may use the ones before it; one that nothing inside uses is dropped. -/
def wrap (definitions : Telescope) (t : Term) : Term :=
  definitions.foldr (fun entry body => Term.makeLet entry.1 entry.2.ty entry.2.value body) t

end Telescope

namespace Definitions

/-- Gives the entry of `b` in a frame another value and keeps its type and its place. -/
def replaceIn (b : Binding) (value : Term) (frame : Frame Definition) : Frame Definition :=
  frame.map fun entry => if entry.1 = b then (b, { entry.2 with value }) else entry

/-- Gives a definition another value and returns the old one. The type stays. A definition of an
outer scope is shadowed in the innermost frame. -/
def override (definitions : Definitions) (b : Binding) (value : Term) :
    Except ScopeError (Term × Definitions) :=
  match definitions.inner.lookup b with
  | some old => .ok (old.value, { definitions with inner := replaceIn b value definitions.inner })
  | none =>
    match definitions.lookup b with
    | some old => .ok (old.value, definitions.bind b { old with value })
    | none => .error (.notInScope b)

/-- Puts a term under all the definitions in scope that it depends on. -/
def wrap (definitions : Definitions) (t : Term) : Term := Telescope.wrap definitions.bindings t

end Definitions

end DepLang
