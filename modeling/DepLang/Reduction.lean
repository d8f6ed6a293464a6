import DepLang.Definitions

/-!
# Weak head normal forms

`whnf` reduces a term until its head can be read off: a function applied to an argument is
instantiated, a defined variable is replaced by its value, and a `let` is kept around the normal
form of its body, but only if the normal form uses it. An application comes back with its function
and its argument both normalised; functions, types and literals come back untouched.

Two things outlive a reduction, so reduction runs over a `Store`.

* The normal form of a definition replaces its value: a variable is unfolded once.
* The body of a `let` is reduced under a freshly minted binding, so the supply of identities moves
  on.

The calculus has terms without a normal form. Each reduction therefore takes **fuel**, a bound on
the depth of its recursion; without any left it has no answer at all, which is different from every
answer that it can have.

`peelLets` reduces a term and moves the `let`s around it into the store, so that the head behind
them can be read off; `Telescope.wrap` puts them back around what leaves the scope.
-/
namespace DepLang

/-- What reduction reads and writes: the definitions in scope, and the identities not yet used. -/
structure Store where
  definitions : Definitions := {}
  supply : Supply := {}
deriving Repr

/-- A computation over a store. It has no answer if it runs out of fuel. -/
abbrev Reduction := StateT Store Option

/-- More fuel than a machine has stack for. -/
def ampleFuel : Nat := 1000000000000

namespace Reduction

variable {α : Type}

/-- Gives up for want of fuel. -/
def exhausted : Reduction α := fun _ => none

/-- A fresh binding shown as `name`. -/
def mint (name : String) : Reduction Binding := fun s =>
  some ((s.supply.mint name).1, { s with supply := (s.supply.mint name).2 })

/-- The definition of a variable, if it has one. -/
def definition? (b : Binding) : Reduction (Option Definition) := fun s =>
  some (s.definitions.lookup b, s)

/-- Defines a freshly minted variable. -/
def defineFresh (b : Binding) (d : Definition) : Reduction Unit := fun s =>
  some ((), { s with definitions := s.definitions.bind b d })

/-- Remembers a value that equals the one the variable is defined as. -/
def memoize (b : Binding) (value : Term) : Reduction Unit := fun s =>
  match s.definitions.override b value with
  | .ok (_, definitions) => some ((), { s with definitions })
  | .error _ => some ((), s)

/-- Runs a computation in a derived scope, and forgets what it did to the definitions. -/
def locally (x : Reduction α) : Reduction α := fun s =>
  match x { s with definitions := s.definitions.derive } with
  | some (a, t) => some (a, { t with definitions := s.definitions })
  | none => none

theorem bind_apply {β : Type} (x : Reduction α) (f : α → Reduction β) (s : Store) :
    (x >>= f) s = (x s).bind fun r => f r.1 r.2 := rfl

theorem locally_eq_some {x : Reduction α} {s t : Store} {a : α} :
    locally x s = some (a, t) ↔
      ∃ u, x { s with definitions := s.definitions.derive } = some (a, u) ∧
        t = { u with definitions := s.definitions } := by
  unfold locally
  cases x { s with definitions := s.definitions.derive } with
  | none => simp
  | some r =>
    obtain ⟨b, u⟩ := r
    constructor
    · intro h
      cases h
      exact ⟨u, rfl, rfl⟩
    · rintro ⟨v, h, rfl⟩
      cases h
      rfl

end Reduction

open Reduction

/-- The weak head normal form of a term. -/
def whnf : Nat → Term → Reduction Term
  | 0, _ => exhausted
  | fuel + 1, t =>
    match t with
    | .free b => do
      match ← definition? b with
      | none => return .free b
      | some d =>
        let value ← whnf fuel d.value
        memoize b value
        return value
    | .app function argument => do
      let function ← whnf fuel function
      let argument ← whnf fuel argument
      match function with
      | .lam body => whnf fuel (body.instantiate argument)
      | function => return .app function argument
    | .letIn name ty value body => do
      let ty ← whnf fuel ty
      let value ← whnf fuel value
      let b ← mint name
      locally do
        defineFresh b ⟨value, ty⟩
        let body ← whnf fuel (body.openWith b)
        let value := (← definition? b).elim value Definition.value
        return .makeLet b ty value body
    | t => return t

/-- Reduces a term and moves each `let` around its head into the definitions. Returns these, and the
head. -/
def peelLets : Nat → Term → Reduction (Telescope × Term)
  | 0, _ => exhausted
  | fuel + 1, t => do
    match ← whnf fuel t with
    | .letIn name ty value body =>
      let b ← mint name
      defineFresh b ⟨value, ty⟩
      let (peeled, head) ← peelLets fuel (body.openWith b)
      return ((b, ⟨value, ty⟩) :: peeled, head)
    | head => return ([], head)

/-- The head of a term under its `let`s, which stay in the definitions. -/
def headUnderLets (fuel : Nat) (t : Term) : Reduction Term := return (← peelLets fuel t).2

end DepLang
