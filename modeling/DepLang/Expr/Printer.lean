import DepLang.Expr

/-!
# Printing expressions

Every compound expression is parenthesised, and a binder is printed by the display name of its
variable, so that two variables of one name look alike.
-/
namespace DepLang.Expr

mutual

def print : Expr → String
  | type => "Type"
  | boolType => "Bool"
  | bool true => "true"
  | bool false => "false"
  | pi b domain codomain =>
    "((" ++ b.name ++ " : " ++ print domain ++ ") -> " ++ print codomain ++ ")"
  | lam b body => "(λ" ++ b.name ++ ". " ++ print body ++ ")"
  | app function argument => "(" ++ print function ++ " " ++ print argument ++ ")"
  | name x => x
  | ref b => b.name
  | letIn b ty value body =>
    "(let " ++ b.name ++ " : " ++ print ty ++ " := " ++ print value ++ " in " ++ print body ++ ")"
  | sigma params last => "(Σ" ++ printParams params ++ ". " ++ print last ++ ")"
  | tuple elements => "(" ++ ", ".intercalate (printAll elements) ++ ")"

/-- Each parameter in parentheses, after a blank. -/
def printParams : List (Param Expr) → String
  | [] => ""
  | ⟨b, ty⟩ :: rest => " (" ++ b.name ++ " : " ++ print ty ++ ")" ++ printParams rest

def printAll : List Expr → List String
  | [] => []
  | e :: rest => print e :: printAll rest

end

end DepLang.Expr
