import DepLang.Equality

/-!
# Elaboration

Elaboration turns a resolved expression into a core term. It runs in one of three modes: the
expression denotes a **type**, or its type is to be **inferred**, or it is to be **checked** against
a type that is known.

* A function can only be checked, since its parameter is not annotated. The expected type, like the
  type of a function that is applied, may be a function type only under some `let`s. These become
  definitions while the function or the argument is elaborated, and are put back around the result.
* The body of a `let` is elaborated in the mode of the `let`, with the variable defined in scope.
  The `let` is put around the term and around its type, each time only if it is used there.
* Every other expression has its type inferred, and in the two other modes that type is compared
  with the expected one. A former needs no comparison where a type is asked for.

Contexts and definitions in scope are as they were when an elaboration ends, whether it succeeds or
not.
-/
namespace DepLang

open Check (fail locally define ofScope ofResolution typeOf)

/-- A term and its type. -/
structure Annotated where
  term : Term
  ty : Term
deriving DecidableEq, Repr

/-- What is known of the type of an expression. -/
inductive Mode where
  /-- The expression denotes a type. -/
  | type
  | infer
  | check (expected : Term)
deriving DecidableEq, Repr

namespace Mode

/-- The type that an expression must have. -/
def expected? : Mode → Option Term
  | type => some .type
  | infer => none
  | check expected => some expected

end Mode

/-- Fails unless two terms are equal, at a type if one is given. -/
def unify (fuel : Nat) (Γ : Context) (lhs rhs : Term) (ty : Option Term) : Check Unit := do
  if ← locally (equate fuel Γ lhs rhs ty) then
    return ()
  else
    fail (.unequal lhs rhs ty)

/-- Ends the elaboration of an expression whose type was inferred. -/
def conclude (fuel : Nat) (Γ : Context) (mode : Mode) (inferred : Annotated) : Check Annotated := do
  match mode.expected? with
  | none => return inferred
  | some expected =>
    unify fuel Γ inferred.ty expected (some .type)
    return ⟨inferred.term, expected⟩

/-- Ends the elaboration of a former. -/
def concludeFormation (fuel : Nat) (Γ : Context) (mode : Mode) (former : Term) : Check Annotated :=
  match mode with
  | .type => return ⟨former, .type⟩
  | mode => conclude fuel Γ mode ⟨former, .type⟩

/-- Elaborates a resolved expression. -/
def elaborate (fuel : Nat) (Γ : Context) (mode : Mode) : Expr → Check Annotated
  | .type => concludeFormation fuel Γ mode .type
  | .boolType => concludeFormation fuel Γ mode .boolType
  | .bool value => conclude fuel Γ mode ⟨.bool value, .boolType⟩
  | .pi b domain codomain => do
    let domain ← elaborate fuel Γ .type domain
    let inner ← ofScope (Γ.insert b domain.term)
    let codomain ← elaborate fuel inner .type codomain
    concludeFormation fuel Γ mode (.pi b.name domain.term (codomain.term.close b))
  | .lam b body => do
    match mode.expected? with
    | none => fail (.noRule (.lam b body))
    | some expected =>
      locally do
        match ← peelLets fuel expected with
        | (peeled, .pi _ domain codomain) =>
          let inner ← ofScope (Γ.insert b domain)
          let body ← elaborate fuel inner (.check (codomain.openWith b)) body
          return ⟨peeled.wrap (.lam (body.term.close b)), expected⟩
        | _ => fail (.mismatch (.lam b body) expected)
  | .app function argument => do
    let applied ← elaborate fuel Γ .infer function
    let result ← locally do
      match ← peelLets fuel applied.ty with
      | (peeled, .pi _ domain codomain) =>
        let argument ← elaborate fuel Γ (.check domain) argument
        return (⟨.app applied.term (peeled.wrap argument.term),
          peeled.wrap (codomain.instantiate argument.term)⟩ : Annotated)
      | (peeled, ty) => fail (.notAFunction function (peeled.wrap ty))
    conclude fuel Γ mode result
  | .ref b => do conclude fuel Γ mode ⟨.free b, ← typeOf Γ b⟩
  | .letIn b ty value body => do
    let ty ← elaborate fuel Γ .type ty
    let value ← elaborate fuel Γ (.check ty.term) value
    let body ← locally do
      define b ⟨value.term, ty.term⟩
      elaborate fuel Γ mode body
    return ⟨.makeLet b ty.term value.term body.term, .makeLet b ty.term value.term body.ty⟩
  | .name x => fail (.noRule (.name x))
  | .sigma params last => fail (.noRule (.sigma params last))
  | .tuple elements => fail (.noRule (.tuple elements))

/-- Elaborates an expression that denotes a type. -/
def elaborateType (fuel : Nat) (Γ : Context) (e : Expr) : Check Term :=
  return (← elaborate fuel Γ .type e).term

/-- Elaborates an expression and infers its type. -/
def inferType (fuel : Nat) (Γ : Context) (e : Expr) : Check Annotated :=
  elaborate fuel Γ .infer e

/-- Elaborates an expression against a type. -/
def checkType (fuel : Nat) (Γ : Context) (e : Expr) (ty : Term) : Check Term :=
  return (← elaborate fuel Γ (.check ty) e).term

/-- Elaborates a type and an expression against it. -/
def elaborateAt (fuel : Nat) (Γ : Context) (e ty : Expr) : Check Annotated := do
  let ty ← elaborateType fuel Γ ty
  let term ← checkType fuel Γ e ty
  return ⟨term, ty⟩

/-- Resolves and elaborates a closed expression against a closed type. A name unresolved in the
expression is reported before one in the type. -/
def elaborateClosed (fuel : Nat) (e ty : Expr) : Check Annotated := do
  let e ← ofResolution (e.resolve [])
  let ty ← ofResolution (ty.resolve [])
  elaborateAt fuel {} e ty

end DepLang
