import DepLang.Check

/-!
# Definitional equality

`equate` decides whether two terms are equal, at a type if one is given.

* **Spines first.** Two applications of variables are compared as they stand, head first and then
  argument by argument. If they agree, neither head has been unfolded; if they do not, nothing is
  decided. An error found on the way is final.
* **Then normal forms.** Both terms and the type are reduced, `let`s around them become definitions,
  and the type chooses the rule. At a function type a function is compared with anything by applying
  both to a fresh variable. Elsewhere the terms are compared by their heads, `compareHeads`, which
  also finds the type they share, and that type is compared with the given one.

An answer of `false` means that the terms differ. An error means that no rule compares them, that a
variable is out of scope, or that a function was given as a type.

The rules are written against `equal`, the comparison they use for parts of terms. `equate` ties the
knot, and spends one unit of fuel each time.
-/
namespace DepLang

open Reduction (mint)
open Check (fail locally typeOf)

/-- A way of comparing two terms in a context, at a type if one is given. -/
abbrev Comparison := Context → Term → Term → Option Term → Check Bool

section Rules

variable (fuel : Nat) (equal : Comparison)

/-- Compares two types by how they are formed. Equal types share the universe. -/
def compareFormations (Γ : Context) (lhs rhs : Term) : Check (Option Term) :=
  match lhs, rhs with
  | .pi name domain codomain, .pi _ domain' codomain' => do
    if ← equal Γ domain domain' (some .type) then
      let b ← mint name
      let inner := Γ.bind b domain
      let same ← locally (equal inner (codomain.openWith b) (codomain'.openWith b) (some .type))
      return if same then some .type else none
    else
      return none
  | .boolType, .boolType => return some .type
  | .type, .type => return some .type
  | _, _ => return none

/-- Compares the arguments of two equal functions of type `ty`. Equal applications share the
codomain, instantiated at the argument on the left. The type may be a function type only under some
`let`s. -/
def compareArguments (Γ : Context) (ty argument argument' : Term) : Check (Option Term) :=
  locally do
    match ← peelLets fuel ty with
    | (peeled, .pi _ domain codomain) =>
      let same ← equal Γ argument argument' (some domain)
      return if same then some (Telescope.wrap peeled (codomain.instantiate argument)) else none
    | _ => return none

/-- Compares two terms by their heads, and returns the type that equal terms share. -/
def compareHeads (Γ : Context) (lhs rhs : Term) : Check (Option Term) :=
  match lhs with
  | .pi _ _ _ | .boolType | .type => compareFormations equal Γ lhs rhs
  | .app function argument =>
    match rhs with
    | .app function' argument' => do
      match ← compareHeads Γ function function' with
      | some ty => compareArguments fuel equal Γ ty argument argument'
      | none => return none
    | _ => return none
  | .free b => if rhs = .free b then do return some (← whnf fuel (← typeOf Γ b)) else return none
  | .bool value => return if rhs = .bool value then some .boolType else none
  | .bound _ | .lam _ | .letIn _ _ _ _ => fail (.incomparable lhs rhs)

/-- Compares two applications of variables as they stand, without reducing them. -/
def compareSpines (Γ : Context) (lhs rhs : Term) : Check (Option Term) :=
  match lhs, rhs with
  | .app function _, .app function' _ =>
    if function.spineHead.isFree && function'.spineHead.isFree then
      compareHeads fuel equal Γ lhs rhs
    else
      return none
  | _, _ => return none

/-- Compares the bodies of two functions at a fresh argument. -/
def compareBodies (Γ : Context) (name : String) (domain codomain : Term)
    (lhs rhs : Binding → Term) : Check Bool := do
  let b ← mint name
  locally (equal (Γ.bind b domain) (lhs b) (rhs b) (some (codomain.openWith b)))

/-- Compares two normal forms at the normal form of their type. A function equals whatever has its
values. -/
def compareAt (Γ : Context) (lhs rhs ty : Term) : Check Bool :=
  match ty with
  | .pi name domain codomain =>
    let bodies := compareBodies equal Γ name domain codomain
    match lhs, rhs with
    | .lam body, .lam body' => bodies body.openWith body'.openWith
    | .lam body, other => bodies body.openWith fun b => .app other (.free b)
    | other, .lam body => bodies body.openWith fun b => .app other (.free b)
    | _, _ => return (← compareHeads fuel equal Γ lhs rhs).isSome
  | .lam _ => fail (.notAType ty)
  | .type => return (← compareHeads fuel equal Γ lhs rhs).isSome
  | _ => do
    match ← compareHeads fuel equal Γ lhs rhs with
    | some inferred => equal Γ ty inferred none
    | none => return false

/-- Compares two normal forms, at the normal form of their type if it is given. -/
def compareNormal (Γ : Context) (lhs rhs : Term) : Option Term → Check Bool
  | some ty => compareAt fuel equal Γ lhs rhs ty
  | none => return (← compareHeads fuel equal Γ lhs rhs).isSome

/-- Reduces both terms and the type, moves the `let`s around them into the scope, and compares what
is left. -/
def compareReduced (Γ : Context) (lhs rhs : Term) (ty : Option Term) : Check Bool := do
  let lhs ← whnf fuel lhs
  let rhs ← whnf fuel rhs
  let ty ← (ty.mapM (whnf fuel) : Reduction (Option Term))
  if lhs.isLet || rhs.isLet || ty.any Term.isLet then
    locally do
      let lhs ← headUnderLets fuel lhs
      let rhs ← headUnderLets fuel rhs
      let ty ← (ty.mapM (headUnderLets fuel) : Reduction (Option Term))
      compareNormal fuel equal Γ lhs rhs ty
  else
    compareNormal fuel equal Γ lhs rhs ty

end Rules

/-- Decides whether two terms are equal, at a type if one is given. -/
def equate : Nat → Comparison
  | 0 => fun _ _ _ _ => Reduction.exhausted
  | fuel + 1 => fun Γ lhs rhs ty => do
    match ← compareSpines fuel (equate fuel) Γ lhs rhs, ty with
    | some inferred, some ty => equate fuel Γ inferred ty none
    | some _, none => return true
    | none, ty => compareReduced fuel (equate fuel) Γ lhs rhs ty

end DepLang
