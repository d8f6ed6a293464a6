import DepLang.Elaboration

/-!
# Sessions

A **session** elaborates expressions one after the other. Definitions and assumptions that succeed
are in scope for the steps after them; a step that fails leaves the scope as it was, and the session
goes on.

A session may open a **child**. The child sees everything in scope, what it adds is gone when it
ends, and only the supply of identities moves on.
-/
namespace DepLang

/-- What is in scope in a session. -/
structure Session where
  context : Context := {}
  store : Store := {}
  /-- The variables that names can refer to. -/
  visible : Visible := []

/-- One thing to do in a session. Expressions are resolved. -/
inductive Step where
  /-- Elaborates a type and a value of that type, and defines a variable by them. -/
  | define (binding : Binding) (ty value : Expr)
  /-- Gives a variable a type and no value. -/
  | assume (binding : Binding) (ty : Term)
  | infer (expr : Expr)
  | type (expr : Expr)
  | check (expr : Expr) (ty : Term)
  | checkAt (expr ty : Expr)
  | unify (lhs rhs : Term) (ty : Option Term)
  /-- Reduces a term; the normal forms of definitions are remembered. -/
  | reduce (term : Term)
  /-- Puts a term under the definitions it depends on. -/
  | close (term : Term)

/-- What a step gives. -/
inductive Answer where
  | done
  | term (term : Term)
  | typed (result : Annotated)
deriving DecidableEq, Repr

namespace Session

variable {α : Type}

/-- Resolves the names of an expression. -/
def resolve (s : Session) (e : Expr) : Except Unresolved Expr := e.resolve s.visible

/-- Runs a computation in the scope of the session. -/
def perform (s : Session) (x : Check α) : Option (Except ElaborationError α × Session) :=
  (x.run s.store).map fun (result, store) => (result, { s with store })

/-- Makes a variable visible, if binding it succeeded. -/
def reveal (b : Binding) : Except ElaborationError α × Session → Except ElaborationError α × Session
  | (.ok a, s) => (.ok a, { s with visible := b :: s.visible })
  | (.error error, s) => (.error error, s)

/-- Takes one step. -/
def step (fuel : Nat) (s : Session) : Step → Option (Except ElaborationError Answer × Session)
  | .define b ty value =>
    let defined := s.perform do
      let result ← elaborateAt fuel s.context value ty
      Check.define b ⟨result.term, result.ty⟩
      return Answer.done
    defined.map (reveal b)
  | .assume b ty =>
    match s.context.insert b ty with
    | .ok context => some (.ok .done, { s with context, visible := b :: s.visible })
    | .error error => some (.error (.scope error), s)
  | .infer e => s.perform (Answer.typed <$> inferType fuel s.context e)
  | .type e => s.perform (Answer.term <$> elaborateType fuel s.context e)
  | .check e ty => s.perform (Answer.term <$> checkType fuel s.context e ty)
  | .checkAt e ty => s.perform (Answer.typed <$> elaborateAt fuel s.context e ty)
  | .unify lhs rhs ty => s.perform do
    DepLang.unify fuel s.context lhs rhs ty
    return Answer.done
  | .reduce t => s.perform (Answer.term <$> (whnf fuel t : Check Term))
  | .close t => some (.ok (.term (s.store.definitions.wrap t)), s)

/-- A session inside this one. -/
def derive (s : Session) : Session :=
  { s with
    context := s.context.derive
    store := { s.store with definitions := s.store.definitions.derive } }

/-- Runs a child session. Only the supply of identities outlives it. -/
def inChild (s : Session) (child : Session → Option (α × Session)) : Option (α × Session) :=
  (child s.derive).map fun (a, t) =>
    (a, { s with store := { s.store with supply := t.store.supply } })

end Session

end DepLang
