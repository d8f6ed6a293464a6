import DepLang.Matching.Signature

/-!
# Wording of matching errors

`text` is a short sentence that knows only numbers; `message?` names the types and constructors,
which it looks up in the signature that the error arose in. It is `none` if the signature does not
declare one of them.
-/
namespace DepLang.Matching.MatchingError

def text : MatchingError → String
  | emptyTelescope => "a matching needs at least one parameter"
  | clauseArity clause expected found =>
    "clause " ++ toString clause ++ " has " ++ toString found ++ " patterns, but there are " ++
      toString expected ++ " parameters"
  | patternArity _ expected found =>
    "constructor pattern has " ++ toString found ++ " sub-patterns, but the constructor has " ++
      toString expected ++ " fields"
  | foreignConstructor _ _ => "constructor pattern does not belong to the type of its column"
  | indestructibleData _ name => "cannot add constructor `" ++ name ++ "` to an indestructible type"
  | undeclaredData data =>
    "data type #" ++ toString data.index ++ " is not declared in this signature"
  | undeclaredConstructor con =>
    "constructor #" ++ toString con.index ++ " is not declared in this signature"

def message? (sig : Signature) : MatchingError → Option String
  | patternArity con expected found => do
    let con ← sig.constructor? con
    return "matching error: `" ++ con.name ++ "` takes " ++ toString expected ++
      " patterns, but " ++ toString found ++ " were given"
  | foreignConstructor con expected => do
    let con ← sig.constructor? con
    let data ← sig.dataType? con.data
    let expected ← sig.dataType? expected
    return "matching error: `" ++ con.name ++ "` is a constructor of `" ++ data.name ++
      "`, but a pattern of `" ++ expected.name ++ "` was expected"
  | indestructibleData data name => do
    let data ← sig.dataType? data
    return "matching error: `" ++ data.name ++ "` has no constructors, so `" ++ name ++
      "` cannot be added"
  | error => return "matching error: " ++ error.text

end DepLang.Matching.MatchingError
