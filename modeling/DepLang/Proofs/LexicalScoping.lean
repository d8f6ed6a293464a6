import DepLang.Expr.Printer
import DepLang.Proofs.Resolution

/-!
# Resolution is lexical scoping

What names are resolved to is said position by position in `Expr.ResolvedTo`. Here are the errors of
resolution, and what an expression with all its names resolved is like.

* `Expr.resolve_reportsFirst`: the error is the first name that no binder has.
* `Expr.resolvedTo_self`: where no name is left, resolution does nothing.
* `Expr.ResolvedTo.print_eq`: the resolved expression is printed like the expression with names.
-/
namespace DepLang

namespace Expr

/-! ## Unbound names -/

/-- A name that no binder around its position and none outside has. -/
def Unbound (s : Visible) (e : Expr) (position : List Nat) (error : Unresolved) : Prop :=
  ∃ binders, e.at? position = some (binders, .name error.name) ∧
    ∀ b ∈ binders ++ s, b.name ≠ error.name

/-- There is nothing unbound at a position if a name there is bound. -/
theorem forall_not_unbound {s : Visible} {e : Expr} {position : List Nat} :
    (∀ error, ¬ e.Unbound s position error) ↔ ∀ binders x,
      e.at? position = some (binders, .name x) → ∃ b ∈ binders ++ s, b.name = x := by
  constructor
  · intro h binders x hfound
    by_contra hnone
    exact h ⟨x⟩ ⟨binders, hfound, fun b hb hx => hnone ⟨b, hb, hx⟩⟩
  · rintro h ⟨x⟩ ⟨binders, hfound, hnone⟩
    obtain ⟨b, hb, hx⟩ := h binders x hfound
    exact hnone b hb hx

theorem Unbound.unique {s : Visible} {e : Expr} {position : List Nat} {error error' : Unresolved}
    (h : e.Unbound s position error) (h' : e.Unbound s position error') : error = error' := by
  obtain ⟨x⟩ := error
  obtain ⟨y⟩ := error'
  obtain ⟨binders, hfound, -⟩ := h
  obtain ⟨binders', hfound', -⟩ := h'
  rw [hfound] at hfound'
  cases hfound'
  rfl

theorem unbound_cons {s : Visible} {e : Expr} {i : Nat} {position : List Nat}
    {error : Unresolved} : e.Unbound s (i :: position) error ↔
      ∃ p, e.scopedParts[i]? = some p ∧ p.2.Unbound (p.1 ++ s) position error := by
  simp only [Unbound, at?, Option.bind_eq_some_iff, Option.map_eq_some_iff, Prod.mk.injEq]
  constructor
  · rintro ⟨_, ⟨p, hp, ⟨inner, _⟩, hfound, rfl, rfl⟩, hb⟩
    exact ⟨p, hp, inner, hfound, by simpa using hb⟩
  · rintro ⟨p, hp, inner, hfound, hb⟩
    exact ⟨_, ⟨p, hp, (inner, _), hfound, rfl, rfl⟩, by simpa using hb⟩

theorem unbound_nil {s : Visible} {e : Expr} {error : Unresolved} :
    e.Unbound s [] error ↔ e = .name error.name ∧ ∀ b ∈ s, b.name ≠ error.name := by
  simp [Unbound, at?]

end Expr

theorem Visible.find_eq_error {visible : Visible} {x : String} {error : Unresolved} :
    visible.find x = .error error ↔ error.name = x ∧ ∀ b ∈ visible, b.name ≠ x := by
  unfold Visible.find
  cases hfind : visible.find? (fun b => b.name = x) with
  | none =>
    have hnone : ∀ b ∈ visible, b.name ≠ x := by simpa using hfind
    obtain ⟨y⟩ := error
    simpa [eq_comm] using fun _ => hnone
  | some b =>
    have hname : b.name = x := by simpa using List.find?_some hfind
    simpa using fun _ => ⟨b, List.mem_of_find?_eq_some hfind, hname⟩

namespace Expr

/-- **Resolution reports the first unbound name.** -/
theorem resolve_reportsFirst (e : Expr) (s : Visible) :
    ReportsFirst (e.Unbound s) (e.resolve s) := by
  induction e using induction_parts generalizing s with
  | _ e ih =>
    by_cases hname : ∃ x, e = name x
    · obtain ⟨x, rfl⟩ := hname
      rw [resolve_name]
      cases hfind : s.find x with
      | error error =>
        obtain ⟨rfl, hnone⟩ := Visible.find_eq_error.1 hfind
        exact .of_whole (unbound_nil.2 ⟨rfl, hnone⟩)
      | ok b =>
        obtain ⟨nearer, farther, rfl, hb, -⟩ := Visible.find_eq_ok.1 hfind
        refine .of_ok fun position error hunbound => ?_
        cases position with
        | nil =>
          obtain ⟨he, hnone⟩ := unbound_nil.1 hunbound
          cases he
          exact hnone b (by simp) hb
        | cons i position =>
          obtain ⟨p, hp, -⟩ := unbound_cons.1 hunbound
          cases hp
    · have hname : ∀ x, e ≠ name x := fun x he => hname ⟨x, he⟩
      rw [resolve_eq_resolveParts hname]
      have hparts : ∀ p ∈ e.scopedParts,
          ReportsFirst (p.2.Unbound (p.1 ++ s)) (p.2.resolve (p.1 ++ s)) :=
        fun p hp => ih p.2 (List.of_mem_zip hp).2 _
      refine ((ReportsFirst.mapM hparts).map e.withParts).congr fun position error => ?_
      cases position with
      | nil =>
        rw [unbound_nil]
        simp [hname]
      | cons i position =>
        rw [unbound_cons]
        simp

/-! ## What is resolved stays as it is -/

theorem ResolvedTo.at?_ne_name {s : Visible} {e e' : Expr} (h : ResolvedTo s e e')
    (position : List Nat) (binders : List Binding) (x : String) :
    e'.at? position ≠ some (binders, .name x) := by
  intro hfound
  have hrel := h position
  rw [hfound] at hrel
  generalize e.at? position = found? at hrel
  cases hrel with
  | @some found _ hresolved =>
    have hlabel : Label.Resolves (found.1 ++ s) found.2.label (.name x) := hresolved.2
    generalize found.2.label = l at hlabel
    cases hlabel with
    | other hother => exact hother x rfl

theorem resolvedTo_self {e : Expr}
    (h : ∀ position binders x, e.at? position ≠ some (binders, .name x)) (s : Visible) :
    ResolvedTo s e e := by
  intro position
  cases hfound : e.at? position with
  | none => exact .none
  | some found =>
    refine .some ⟨rfl, .other fun x hx => h position found.1 x ?_⟩
    rw [hfound, ← eq_name_of_label hx]

/-! ## Printing -/

theorem printParams_congr {params params' : List (Param Expr)}
    (hbindings : params'.map Param.binding = params.map Param.binding)
    (htypes : params'.map (print ∘ Param.ty) = params.map (print ∘ Param.ty)) :
    printParams params' = printParams params := by
  induction params generalizing params' with
  | nil =>
    obtain rfl : params' = [] := by simpa using hbindings
    rfl
  | cons p params ih =>
    cases params' with
    | nil => simp at hbindings
    | cons p' params' =>
      rw [List.map_cons, List.map_cons, List.cons.injEq] at hbindings htypes
      have hty : p'.ty.print = p.ty.print := htypes.1
      rw [printParams, printParams, ih hbindings.2 htypes.2, hbindings.1, hty]

theorem printAll_eq_map (elements : List Expr) : printAll elements = elements.map print := by
  induction elements with
  | nil => rfl
  | cons e elements ih => rw [printAll, ih, List.map_cons]

theorem print_congr {e e' : Expr} (hlabel : e'.label = e.label)
    (hparts : e'.parts.map print = e.parts.map print) : e'.print = e.print := by
  cases e with
  | type | boolType | bool | name | ref =>
    cases e' <;> cases hlabel
    rfl
  | pi | lam | app | letIn =>
    cases e' <;> cases hlabel
    simp_all [parts, print]
  | sigma params last =>
    cases e' with
    | sigma params' last' =>
      simp only [parts, List.map_append, List.map_map, List.map_cons, List.map_nil] at hparts
      obtain ⟨htypes, hlast⟩ := List.append_inj' hparts rfl
      have hlast : last'.print = last.print := by simpa using hlast
      rw [print, print, printParams_congr (Label.sigma.inj hlabel) htypes, hlast]
    | _ => cases hlabel
  | tuple elements =>
    cases e' with
    | tuple elements' =>
      rw [print, print, printAll_eq_map, printAll_eq_map]
      exact congrArg (fun texts => "(" ++ ", ".intercalate texts ++ ")") hparts
    | _ => cases hlabel

theorem ResolvedTo.print_eq {s : Visible} {e e' : Expr} (h : ResolvedTo s e e') :
    e'.print = e.print := by
  induction e using induction_parts generalizing s e' with
  | _ e ih =>
    by_cases hname : ∃ x, e = name x
    · obtain ⟨x, rfl⟩ := hname
      obtain ⟨b, ⟨_, _, -, hb, -⟩, rfl⟩ := resolvedTo_name.1 h
      rw [print, print, hb]
    · have hname : ∀ x, e ≠ name x := fun x he => hname ⟨x, he⟩
      obtain ⟨hlabel, hparts⟩ := (resolvedTo_iff_parts hname).1 h
      refine print_congr hlabel (List.ext_getElem? fun i => ?_)
      rw [List.getElem?_map, List.getElem?_map]
      cases hp : e.scopedParts[i]? with
      | some p =>
        obtain ⟨part', hp'⟩ := exists_scopedPart hlabel hp
        have hpart := (scopedParts_eq_some.1 hp).2
        rw [(scopedParts_eq_some.1 hp').2, hpart]
        exact congrArg some (ih p.2 (List.mem_of_getElem? hpart) (hparts i _ _ _ hp hp'))
      | none =>
        rw [List.getElem?_eq_none_iff, length_scopedParts] at hp
        rw [List.getElem?_eq_none hp, List.getElem?_eq_none (by rwa [length_parts_eq hlabel])]

end Expr

/-! ## Lexical scoping -/

/-- **Resolution is lexical scoping.** A reference by name is bound by a binder of the name around it
that is visible there, or else from outside. An expression is resolved exactly if all its names are
bound. Then it is resolved to the expression that has a reference to the nearest binder in the place
of each name, and differs in nothing else; this one has no names, is resolved to itself whatever is
visible outside, and is printed like the expression with names. If some name is not bound, the error
is the first such name, reading from left to right. -/
theorem resolution_is_lexical (e : Expr) (s : Visible) :
    ((∃ e', e.resolve s = .ok e') ↔ ∀ position binders x,
      e.at? position = some (binders, .name x) → ∃ b ∈ binders ++ s, b.name = x) ∧
    (∀ e', e.resolve s = .ok e' ↔ Expr.ResolvedTo s e e') ∧
    (∀ e', e.resolve s = .ok e' →
      (∀ position binders x, e'.at? position ≠ some (binders, .name x)) ∧
      (∀ s', e'.resolve s' = .ok e') ∧ e'.print = e.print) ∧
    ∀ x, e.resolve s = .error ⟨x⟩ ↔ ∃ position binders,
      e.at? position = some (binders, .name x) ∧ (∀ b ∈ binders ++ s, b.name ≠ x) ∧
      ∀ earlier binders' y, earlier < position → e.at? earlier = some (binders', .name y) →
        ∃ b ∈ binders' ++ s, b.name = y := by
  have hfirst := e.resolve_reportsFirst s
  refine ⟨?_, fun e' => e.resolve_eq_ok_iff s e', fun e' he' => ?_, fun x => ?_⟩
  · rw [hfirst.exists_ok_iff]
    exact forall_congr' fun position => Expr.forall_not_unbound
  · have hresolved := (e.resolve_eq_ok_iff s e').1 he'
    have hnames := hresolved.at?_ne_name
    exact ⟨hnames, fun s' => (e'.resolve_eq_ok_iff s' e').2 (Expr.resolvedTo_self hnames s'),
      hresolved.print_eq⟩
  · rw [hfirst.eq_error_iff fun _ _ _ => Expr.Unbound.unique]
    constructor
    · rintro ⟨position, ⟨binders, hfound, hnone⟩, hbefore⟩
      refine ⟨position, binders, hfound, hnone, fun earlier binders' y hlt => ?_⟩
      exact Expr.forall_not_unbound.1 (hbefore earlier hlt) binders' y
    · rintro ⟨position, binders, hfound, hnone, hbefore⟩
      refine ⟨position, ⟨binders, hfound, hnone⟩, fun earlier hlt => ?_⟩
      exact Expr.forall_not_unbound.2 fun binders' y => hbefore earlier binders' y hlt

-- The `x` of the `let` is visible in its body only, and each parameter in the later ones only.
example :
    let x : Binding := ⟨0, "x"⟩
    let x' : Binding := ⟨1, "x"⟩
    let y : Binding := ⟨2, "y"⟩
    Expr.resolve [] (.lam x (.letIn x' (.name "x") (.name "x") (.name "x"))) =
        .ok (.lam x (.letIn x' (.ref x) (.ref x) (.ref x'))) ∧
      Expr.resolve [x] (.sigma [⟨y, .name "x"⟩, ⟨x', .name "y"⟩] (.name "x")) =
        .ok (.sigma [⟨y, .ref x⟩, ⟨x', .ref y⟩] (.ref x')) ∧
      Expr.resolve [x] (.pi y (.name "y") (.name "z")) = .error ⟨"y"⟩ :=
  ⟨rfl, rfl, rfl⟩

end DepLang
