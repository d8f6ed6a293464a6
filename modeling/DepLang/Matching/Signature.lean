/-!
# Signatures of data types

A **signature** lists data types and their constructors, each under the number of its declaration. A
type is either **indestructible**, with nothing to tell its values apart by, or **destructible**,
with constructors in the order of their declaration. Constructors are added after their type, so
that their fields may have that type.

Declaring a constructor fails, and changes nothing, if its type or the type of a field is not
declared or if its type is indestructible.
-/
namespace DepLang.Matching

/-- The number of a data type in a signature. -/
structure DataId where
  index : Nat
deriving DecidableEq, Repr

/-- The number of a constructor in a signature. -/
structure ConId where
  index : Nat
deriving DecidableEq, Repr

/-- How the values of a data type are made. -/
inductive DataShape where
  | indestructible
  | destructible (constructors : List ConId)
deriving DecidableEq, Repr

structure DataType where
  name : String
  shape : DataShape
deriving DecidableEq, Repr

structure Constructor where
  name : String
  /-- The type it makes values of. -/
  data : DataId
  /-- The types of its fields. -/
  fields : List DataId
deriving DecidableEq, Repr

/-- What is wrong with a declaration, a pattern or a clause matrix. -/
inductive MatchingError where
  | emptyTelescope
  | clauseArity (clause expected found : Nat)
  | patternArity (constructor : ConId) (expected found : Nat)
  | foreignConstructor (constructor : ConId) (expected : DataId)
  | indestructibleData (data : DataId) (name : String)
  | undeclaredData (data : DataId)
  | undeclaredConstructor (constructor : ConId)
deriving DecidableEq, Repr

/-- The data types and constructors declared so far. -/
structure Signature where
  dataTypes : Array DataType := #[]
  constructors : Array Constructor := #[]
deriving Repr

namespace Signature

def dataType? (sig : Signature) (id : DataId) : Option DataType := sig.dataTypes[id.index]?

def constructor? (sig : Signature) (id : ConId) : Option Constructor := sig.constructors[id.index]?

def dataType (sig : Signature) (id : DataId) : Except MatchingError DataType :=
  match sig.dataType? id with
  | some data => .ok data
  | none => .error (.undeclaredData id)

def constructor (sig : Signature) (id : ConId) : Except MatchingError Constructor :=
  match sig.constructor? id with
  | some con => .ok con
  | none => .error (.undeclaredConstructor id)

/-- All the types are declared; otherwise the first one that is not is the error. -/
def requireData (sig : Signature) : List DataId → Except MatchingError Unit
  | [] => .ok ()
  | id :: rest => do
    let _ ← sig.dataType id
    requireData sig rest

/-- Declares a data type, without constructors so far. -/
def addData (sig : Signature) (data : DataType) : DataId × Signature :=
  (⟨sig.dataTypes.size⟩, { sig with dataTypes := sig.dataTypes.push data })

def addIndestructible (sig : Signature) (name : String) : DataId × Signature :=
  sig.addData ⟨name, .indestructible⟩

def addDestructible (sig : Signature) (name : String) : DataId × Signature :=
  sig.addData ⟨name, .destructible []⟩

/-- A computation that changes a signature in place, and may end in an error. What was written
before the error stays. -/
abbrev Declaring := EStateM MatchingError Signature

/-- Declares a constructor of a destructible type: the types are checked, the number of the
constructor is added to the list of its type, after those that are there, and the constructor is
stored under it. -/
def declareConstructor (data : DataId) (name : String) (fields : List DataId) :
    Declaring ConId := do
  let sig ← get
  let ty ← ofExcept (sig.dataType data)
  ofExcept (sig.requireData fields)
  match ty.shape with
  | .indestructible => throw (.indestructibleData data name)
  | .destructible constructors =>
    let id : ConId := ⟨sig.constructors.size⟩
    let extended := { ty with shape := .destructible (constructors ++ [id]) }
    modify fun sig => { sig with dataTypes := sig.dataTypes.setIfInBounds data.index extended }
    modify fun sig => { sig with constructors := sig.constructors.push ⟨name, data, fields⟩ }
    return id

/-- The signature with one more constructor, and the number of the constructor. -/
def addConstructor (sig : Signature) (data : DataId) (name : String) (fields : List DataId) :
    Except MatchingError (ConId × Signature) :=
  match declareConstructor data name fields sig with
  | .ok id sig' => .ok (id, sig')
  | .error error _ => .error error

end Signature

end DepLang.Matching
