import DepLang.Term.Printer

/-!
# Printing and opening binders

The printer goes under a binder without opening it: it keeps a list of the names it has passed, and
looks an index up there. The rest of the calculus opens the binder and puts a free variable in place
of the index. Both show the same, also where indices dangle.

* `printUnder_replaceAt`: opening the outermost of the binders that the printer has passed.
* `print_opened_binder`: a `pi` or a `let` is printed as its parts are, the body opened.
-/
namespace DepLang.Term

/-- What an index is shown as: the name of its binder, if there is a binder and it has one. -/
theorem printUnder_bound (names : List (Option String)) (i : Nat) :
    printUnder names (bound i) = (names[i]?.join).getD ("^" ++ toString i) := by
  rw [printUnder]
  rcases names[i]? with _ | _ | name <;> rfl

/-- **Opening under binders.** The list of names ends with the outermost binder. Opening that binder
takes its name off the list, and the index that stands for its variable, which is the number of
binders inside it, becomes a free variable with that name. An index that goes further dangles before
and after. -/
theorem printUnder_replaceAt (b : Binding) (names : List (Option String)) (t : Term) :
    printUnder names (replaceAt (free b) names.length t) =
      printUnder (names ++ [some b.name]) t := by
  induction t generalizing names with
  | bound i =>
    rcases Nat.lt_trichotomy i names.length with hlt | rfl | hgt
    · have hne : i ≠ names.length := Nat.ne_of_lt hlt
      rw [replaceAt, if_neg hne, printUnder_bound, printUnder_bound, List.getElem?_append_left hlt]
    · rw [replaceAt, if_pos rfl, printUnder_bound, List.getElem?_append_right (Nat.le_refl _),
        Nat.sub_self]
      rfl
    · have hne : i ≠ names.length := Nat.ne_of_gt hgt
      have hinner : names[i]? = none := List.getElem?_eq_none (Nat.le_of_lt hgt)
      have hall : (names ++ [some b.name])[i]? = none := by
        apply List.getElem?_eq_none
        simp only [List.length_append, List.length_singleton]
        omega
      rw [replaceAt, if_neg hne, printUnder_bound, printUnder_bound, hinner, hall]
  | free | boolType | type => rfl
  | bool value => cases value <;> rfl
  | lam body ih => rw [replaceAt, printUnder, printUnder, ← List.cons_append, ← ih, List.length_cons]
  | pi name _ _ ihd ihc =>
    rw [replaceAt, printUnder, printUnder, ihd, ← List.cons_append, ← ihc, List.length_cons]
  | app _ _ ihf iha => rw [replaceAt, printUnder, printUnder, ihf, iha]
  | letIn name _ _ _ iht ihv ihb =>
    rw [replaceAt, printUnder, printUnder, iht, ihv, ← List.cons_append, ← ihb, List.length_cons]

theorem print_openWith (b : Binding) (body : Term) :
    (body.openWith b).print = printUnder [some b.name] body :=
  printUnder_replaceAt b [] body

/-- **Printing agrees with opening.** A `pi` or a `let` is printed from its parts, with the body
opened with any variable that has the name of the binder, new or not. The parts need not be well
scoped. So a variable is shown in the same way before and after its binder is opened. -/
theorem print_opened_binder (name : String) (ty value body : Term) (b : Binding)
    (hb : b.name = name) :
    (pi name ty body).print =
        "((" ++ name ++ " : " ++ ty.print ++ ") -> " ++ (body.openWith b).print ++ ")" ∧
      (letIn name ty value body).print =
        "(let " ++ name ++ " : " ++ ty.print ++ " := " ++ value.print ++ " in " ++
          (body.openWith b).print ++ ")" := by
  subst hb
  rw [print_openWith]
  exact ⟨rfl, rfl⟩

/-- The variable is used under a function, under a binder that hides it, and beside an index that
dangles. It occurs free in the body as well. -/
theorem print_opened_binder_hidden :
    let x : Binding := ⟨3, "x"⟩
    let body : Term := .app (.lam (.pi "x" (.bound 1) (.app (.bound 2) (.app (.bound 1) (.bound 7)))))
      (.app (.free x) (.bound 0))
    x.name = "x" ∧ (body.openWith x).print = "((λ. ((x : x) -> (x (^1 ^7)))) (x x))" ∧
      (pi "x" boolType body).print = "((x : Bool) -> " ++ (body.openWith x).print ++ ")" ∧
      (letIn "x" boolType (bool true) body).print =
        "(let x : Bool := true in " ++ (body.openWith x).print ++ ")" := by
  intro x body
  exact ⟨rfl, by decide +kernel, print_opened_binder "x" boolType (bool true) body x rfl⟩

end DepLang.Term
