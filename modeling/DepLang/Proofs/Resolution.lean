import DepLang.Expr.Resolution
import DepLang.Proofs.FirstFaults
import Mathlib.Data.List.Infix

/-!
# What names are resolved to

`Expr.resolve` goes through an expression with a list of visible bindings that grows under binders.
Here its result is compared with what is written in the expression: at which **position** a name
stands, which binders stand around it, and which of these are visible there.

* An expression is a label and its parts (`Expr.label`, `Expr.parts`). The label says which of its
  variables are visible in which part (`Label.binders`); this is the only place where the forms of
  binders differ.
* `Expr.resolve_eq_resolveParts`: one node.
* `Expr.at?`: what stands at a position, and the binders around it that are visible there.
* `Expr.ResolvedTo`: the same expression at all positions, but for names, which refer to the nearest
  binder. Resolution gives this expression and no other (`Expr.resolve_eq_ok_iff`).
* `Expr.ResolvedTo.induction`: what is resolved is a name, or it has the same label and resolved
  parts. What resolution keeps is proved by this induction.
-/
namespace DepLang

namespace Expr

/-! ## Expressions as labelled trees -/

/-- The immediate subexpressions. -/
def parts : Expr → List Expr
  | pi _ domain codomain => [domain, codomain]
  | lam _ body => [body]
  | app function argument => [function, argument]
  | letIn _ ty value body => [ty, value, body]
  | sigma params last => params.map Param.ty ++ [last]
  | tuple elements => elements
  | type | boolType | bool _ | name _ | ref _ => []

/-- What stands at the root of an expression: its form, with the variables that it binds and the
number of its parts. -/
inductive Label where
  | type
  | boolType
  | bool (value : Bool)
  | pi (binding : Binding)
  | lam (binding : Binding)
  | app
  | name (name : String)
  | ref (binding : Binding)
  | letIn (binding : Binding)
  | sigma (bindings : List Binding)
  | tuple (count : Nat)
deriving DecidableEq

/-- For each part of an expression, the variables bound by the expression that are visible in the
part, the nearest first. A parameter of a `sigma` sees the ones before it. -/
def Label.binders : Label → List (List Binding)
  | pi b => [[], [b]]
  | lam b => [[b]]
  | app => [[], []]
  | letIn b => [[], [], [b]]
  | sigma bs => bs.inits.map List.reverse
  | tuple count => List.replicate count []
  | type | boolType | bool _ | name _ | ref _ => []

def label : Expr → Label
  | type => .type
  | boolType => .boolType
  | bool value => .bool value
  | pi b _ _ => .pi b
  | lam b _ => .lam b
  | app _ _ => .app
  | name x => .name x
  | ref b => .ref b
  | letIn b _ _ _ => .letIn b
  | sigma params _ => .sigma (params.map Param.binding)
  | tuple elements => .tuple elements.length

theorem eq_name_of_label {e : Expr} {x : String} (h : e.label = .name x) : e = name x := by
  cases e <;> cases h
  rfl

theorem length_binders (e : Expr) : e.label.binders.length = e.parts.length := by
  cases e <;> simp [label, Label.binders, parts]

/-- The parts from left to right, each with the variables that become visible in it. -/
def scopedParts (e : Expr) : List (List Binding × Expr) := e.label.binders.zip e.parts

theorem length_scopedParts (e : Expr) : e.scopedParts.length = e.parts.length := by
  simp [scopedParts, length_binders]

theorem scopedParts_eq_some {e : Expr} {i : Nat} {p : List Binding × Expr} :
    e.scopedParts[i]? = some p ↔ e.label.binders[i]? = some p.1 ∧ e.parts[i]? = some p.2 :=
  List.getElem?_zip_eq_some

theorem exists_scopedPart_of_part {e part : Expr} {i : Nat} (h : e.parts[i]? = some part) :
    ∃ bs, e.scopedParts[i]? = some (bs, part) := by
  obtain ⟨hi, -⟩ := List.getElem?_eq_some_iff.1 h
  rw [← length_binders] at hi
  exact ⟨e.label.binders[i], scopedParts_eq_some.2 ⟨List.getElem?_eq_getElem hi, h⟩⟩

theorem exists_scopedPart {e e' : Expr} (h : e'.label = e.label) {i : Nat}
    {p : List Binding × Expr} (hp : e.scopedParts[i]? = some p) :
    ∃ part', e'.scopedParts[i]? = some (p.1, part') := by
  obtain ⟨hbinders, -⟩ := scopedParts_eq_some.1 hp
  rw [← h] at hbinders
  obtain ⟨hi, -⟩ := List.getElem?_eq_some_iff.1 hbinders
  rw [length_binders] at hi
  exact ⟨e'.parts[i], scopedParts_eq_some.2 ⟨hbinders, List.getElem?_eq_getElem hi⟩⟩

theorem length_parts_eq {e e' : Expr} (h : e'.label = e.label) :
    e'.parts.length = e.parts.length := by
  rw [← length_binders, ← length_binders, h]

/-- The same expression with other parts. -/
def withParts : Expr → List Expr → Expr
  | pi b _ _, [domain, codomain] => pi b domain codomain
  | lam b _, [body] => lam b body
  | app _ _, [function, argument] => app function argument
  | letIn b _ _ _, [ty, value, body] => letIn b ty value body
  | sigma params last, parts =>
    sigma (params.zipWith (fun p ty => ⟨p.binding, ty⟩) parts) (parts.getLastD last)
  | tuple _, parts => tuple parts
  | e, _ => e

theorem zipWith_params {params : List (Param Expr)} {last : Expr} {parts' : List Expr}
    (h : parts'.length = params.length + 1) :
    (params.zipWith (fun p ty => (⟨p.binding, ty⟩ : Param Expr)) parts').map Param.ty ++
        [parts'.getLastD last] = parts' ∧
      (params.zipWith (fun p ty => (⟨p.binding, ty⟩ : Param Expr)) parts').map Param.binding =
        params.map Param.binding := by
  induction params generalizing parts' with
  | nil =>
    obtain ⟨part, rfl⟩ := List.length_eq_one_iff.1 h
    simp
  | cons p params ih =>
    cases parts' with
    | nil => simp at h
    | cons part parts' =>
      cases parts' with
      | nil => simp at h
      | cons part' parts' =>
        have := @ih (part' :: parts') (by simpa using h)
        simpa using this

theorem parts_withParts {e : Expr} {parts' : List Expr} (h : parts'.length = e.parts.length) :
    (e.withParts parts').parts = parts' ∧ (e.withParts parts').label = e.label := by
  cases e with
  | type | boolType | bool | name | ref =>
    obtain rfl := List.length_eq_zero_iff.1 h
    exact ⟨rfl, rfl⟩
  | lam b body =>
    obtain ⟨body', rfl⟩ := List.length_eq_one_iff.1 h
    exact ⟨rfl, rfl⟩
  | pi b domain codomain =>
    obtain ⟨domain', codomain', rfl⟩ := List.length_eq_two.1 h
    exact ⟨rfl, rfl⟩
  | app function argument =>
    obtain ⟨function', argument', rfl⟩ := List.length_eq_two.1 h
    exact ⟨rfl, rfl⟩
  | letIn b ty value body =>
    obtain ⟨ty', value', body', rfl⟩ := List.length_eq_three.1 h
    exact ⟨rfl, rfl⟩
  | sigma params last =>
    obtain ⟨hty, hbinding⟩ := @zipWith_params params last parts' (by simpa [parts] using h)
    exact ⟨hty, congrArg Label.sigma hbinding⟩
  | tuple elements => exact ⟨rfl, congrArg Label.tuple h⟩

theorem zipWith_params_parts {params params' : List (Param Expr)} {rest : List Expr}
    (h : params'.map Param.binding = params.map Param.binding) :
    params.zipWith (fun p ty => (⟨p.binding, ty⟩ : Param Expr)) (params'.map Param.ty ++ rest) =
      params' := by
  induction params generalizing params' with
  | nil =>
    obtain rfl : params' = [] := by simpa using h
    rfl
  | cons p params ih =>
    cases params' with
    | nil => simp at h
    | cons p' params' =>
      obtain ⟨hp, hparams⟩ : p'.binding = p.binding ∧
          params'.map Param.binding = params.map Param.binding := by simpa using h
      simp [ih hparams, ← hp]

theorem withParts_parts {e e' : Expr} (h : e'.label = e.label) : e.withParts e'.parts = e' := by
  cases e with
  | type | boolType | bool | pi | lam | app | name | ref | letIn =>
    cases e' <;> cases h
    rfl
  | sigma params last =>
    cases e' with
    | sigma params' last' =>
      rw [parts, withParts, zipWith_params_parts (Label.sigma.inj h)]
      simp
    | _ => cases h
  | tuple elements =>
    cases e' with
    | tuple elements' => rfl
    | _ => cases h

/-! ## One node -/

/-- Resolves parts one after the other, each with the variables that become visible in it. -/
def resolveParts (s : Visible) (inside : List (List Binding × Expr)) :
    Except Unresolved (List Expr) :=
  inside.mapM fun p => p.2.resolve (p.1 ++ s)

theorem resolveParts_cons (s : Visible) (bs : List Binding) (part : Expr)
    (rest : List (List Binding × Expr)) :
    resolveParts s ((bs, part) :: rest) = (do
      let part' ← part.resolve (bs ++ s)
      let rest' ← resolveParts s rest
      return part' :: rest') :=
  List.mapM_cons

/-- Variables that are visible in all parts can as well be visible outside. -/
theorem resolveParts_map (s : Visible) (b : Binding) (inside : List (List Binding × Expr)) :
    resolveParts s (inside.map fun p => (p.1 ++ [b], p.2)) = resolveParts (b :: s) inside := by
  simp [resolveParts, List.mapM_map, Function.comp_def]

theorem scopedParts_sigma_cons (b : Binding) (ty last : Expr) (params : List (Param Expr)) :
    (sigma (⟨b, ty⟩ :: params) last).scopedParts =
      ([], ty) :: (sigma params last).scopedParts.map fun p => (p.1 ++ [b], p.2) := by
  simp [scopedParts, label, Label.binders, parts, List.zip_map_left, Function.comp_def, Prod.map]

theorem resolveParts_sigma (s : Visible) (params : List (Param Expr)) (last : Expr) :
    resolveParts s (sigma params last).scopedParts = (do
      let resolved ← resolveParams s params
      let last' ← resolve (s.extend params) last
      return resolved.map Param.ty ++ [last']) := by
  induction params generalizing s with
  | nil =>
    simp [scopedParts, label, Label.binders, parts, resolveParts, resolveParams, Visible.extend]
  | cons p params ih =>
    obtain ⟨b, ty⟩ := p
    rw [scopedParts_sigma_cons, resolveParts_cons, resolveParts_map, ih, resolveParams]
    simp [Visible.extend]

theorem resolveParams_bindings {s : Visible} {params resolved : List (Param Expr)}
    (h : resolveParams s params = .ok resolved) :
    resolved.map Param.binding = params.map Param.binding := by
  induction params generalizing s resolved with
  | nil =>
    cases h
    rfl
  | cons p params ih =>
    obtain ⟨b, ty⟩ := p
    rw [resolveParams] at h
    obtain ⟨ty', -, h⟩ := except_bind_eq_ok.1 h
    obtain ⟨rest, hrest, h⟩ := except_bind_eq_ok.1 h
    cases h
    simp [ih hrest]

theorem resolveParts_tuple (s : Visible) (elements : List Expr) :
    resolveParts s (tuple elements).scopedParts = resolveAll s elements := by
  induction elements with
  | nil => rfl
  | cons e elements ih =>
    rw [resolveAll, ← ih]
    exact resolveParts_cons s [] e (tuple elements).scopedParts

/-- **One node.** An expression that is not a name is resolved by resolving its parts from left to
right, and is otherwise left as it is. -/
theorem resolve_eq_resolveParts {e : Expr} (h : ∀ x, e ≠ name x) (s : Visible) :
    e.resolve s = e.withParts <$> resolveParts s e.scopedParts := by
  cases e with
  | name x => exact absurd rfl (h x)
  | type | boolType | bool | ref =>
    rw [resolve]
    rfl
  | lam | pi | app | letIn =>
    simp [resolve, scopedParts, label, Label.binders, parts, resolveParts, withParts]
  | sigma params last =>
    rw [resolve, resolveParts_sigma]
    cases hparams : resolveParams s params with
    | error => rfl
    | ok resolved =>
      cases hlast : resolve (s.extend params) last with
      | error => rfl
      | ok last' =>
        have hlabel : (sigma resolved last').label = (sigma params last).label :=
          congrArg Label.sigma (resolveParams_bindings hparams)
        exact congrArg Except.ok (withParts_parts hlabel).symm
  | tuple elements =>
    rw [resolve, resolveParts_tuple]
    cases resolveAll s elements <;> rfl

theorem sizeOf_lt_of_mem_parts {e part : Expr} (h : part ∈ e.parts) : sizeOf part < sizeOf e := by
  cases e with
  | type | boolType | bool | name | ref => cases h
  | lam | pi | app | letIn =>
    simp only [parts, List.mem_cons, List.not_mem_nil, or_false] at h
    grind
  | sigma params last =>
    rcases List.mem_append.1 h with h | h
    · obtain ⟨⟨b, ty⟩, hp, rfl⟩ := List.mem_map.1 h
      have := List.sizeOf_lt_of_mem hp
      simp only [Param.mk.sizeOf_spec, sigma.sizeOf_spec] at this ⊢
      omega
    · obtain rfl := List.mem_singleton.1 h
      simp only [sigma.sizeOf_spec]
      omega
  | tuple elements =>
    have : sizeOf part < sizeOf elements := List.sizeOf_lt_of_mem h
    simp only [tuple.sizeOf_spec]
    omega

theorem induction_parts {P : Expr → Prop} (h : ∀ e, (∀ part ∈ e.parts, P part) → P e) (e : Expr) :
    P e :=
  h e fun part _ => induction_parts h part
termination_by sizeOf e
decreasing_by exact sizeOf_lt_of_mem_parts ‹_›

/-! ## Positions -/

/-- The subexpression at a position, with the variables bound on the way to it that are visible
there, the nearest first. A position says for each step which part to go to. -/
def at? : List Nat → Expr → Option (List Binding × Expr)
  | [], e => some ([], e)
  | i :: position, e =>
    e.scopedParts[i]?.bind fun p => (p.2.at? position).map fun found => (found.1 ++ p.1, found.2)

end Expr

/-- The binding has the name, and none that is nearer does. -/
def Visible.Nearest (visible : Visible) (x : String) (b : Binding) : Prop :=
  ∃ nearer farther, visible = nearer ++ b :: farther ∧ b.name = x ∧ ∀ c ∈ nearer, c.name ≠ x

theorem Visible.Nearest.mem {visible : Visible} {x : String} {b : Binding}
    (h : visible.Nearest x b) : b ∈ visible := by
  obtain ⟨nearer, farther, rfl, -⟩ := h
  simp

theorem Visible.find_eq_ok {visible : Visible} {x : String} {b : Binding} :
    visible.find x = .ok b ↔ visible.Nearest x b := by
  have hfind : visible.find x = .ok b ↔ visible.find? (fun b => b.name = x) = some b := by
    unfold Visible.find
    cases visible.find? (fun b => b.name = x) <;> simp
  rw [hfind, List.find?_eq_some_iff_append]
  constructor
  · rintro ⟨hb, nearer, farther, rfl, hnearer⟩
    exact ⟨nearer, farther, rfl, by simpa using hb, by simpa using hnearer⟩
  · rintro ⟨nearer, farther, rfl, hb, hnearer⟩
    exact ⟨by simpa using hb, nearer, farther, rfl, by simpa using hnearer⟩

namespace Expr

theorem resolve_name (s : Visible) (x : String) : (name x).resolve s = ref <$> s.find x := by
  simp [resolve]

/-! ## What names are resolved to -/

/-- A name becomes a reference to the nearest binding of that name, and nothing else changes. -/
inductive Label.Resolves (visible : Visible) : Label → Label → Prop where
  | name {x : String} {b : Binding} : visible.Nearest x b → Resolves visible (.name x) (.ref b)
  | other {l : Label} : (∀ x, l ≠ .name x) → Resolves visible l l

/-- At one position, the same variables are visible in two expressions, and the label is the same,
or that of a resolved name. -/
def ResolvedAt (s : Visible) (found found' : List Binding × Expr) : Prop :=
  found'.1 = found.1 ∧ Label.Resolves (found.1 ++ s) found.2.label found'.2.label

/-- The second expression is the first with its names resolved. They have the same positions, and at
each of them they have the same label or that of a resolved name. -/
def ResolvedTo (s : Visible) (e e' : Expr) : Prop :=
  ∀ position, Option.Rel (ResolvedAt s) (e.at? position) (e'.at? position)

theorem resolvedTo_name {s : Visible} {x : String} {e' : Expr} :
    ResolvedTo s (name x) e' ↔ ∃ b, s.Nearest x b ∧ e' = ref b := by
  constructor
  · intro h
    obtain ⟨-, hlabel⟩ : ResolvedAt s ([], name x) ([], e') := by simpa [at?] using h []
    generalize hl : Expr.label _ = l, hl' : e'.label = l' at hlabel
    cases hlabel with
    | @name y b hb =>
      obtain rfl : x = y := Label.name.inj hl
      refine ⟨b, by simpa using hb, ?_⟩
      cases e' <;> cases hl'
      rfl
    | other hother => exact absurd hl.symm (hother x)
  · rintro ⟨b, hb, rfl⟩ position
    cases position with
    | nil => exact .some ⟨rfl, .name hb⟩
    | cons i position => exact .none

/-- One step towards a position. What becomes visible on the step is visible outside of the part. -/
theorem rel_at?_cons {s : Visible} {e e' : Expr} {i : Nat} {bs : List Binding} {part part' : Expr}
    (hp : e.scopedParts[i]? = some (bs, part)) (hp' : e'.scopedParts[i]? = some (bs, part'))
    (position : List Nat) :
    Option.Rel (ResolvedAt s) (e.at? (i :: position)) (e'.at? (i :: position)) ↔
      Option.Rel (ResolvedAt (bs ++ s)) (part.at? position) (part'.at? position) := by
  rw [at?, at?, hp, hp', Option.bind_some, Option.bind_some]
  cases part.at? position <;> cases part'.at? position <;> simp [ResolvedAt]

theorem resolvedTo_iff_parts {s : Visible} {e e' : Expr} (hname : ∀ x, e ≠ name x) :
    ResolvedTo s e e' ↔ e'.label = e.label ∧ ∀ (i : Nat) bs part part',
      e.scopedParts[i]? = some (bs, part) → e'.scopedParts[i]? = some (bs, part') →
        ResolvedTo (bs ++ s) part part' := by
  constructor
  · intro h
    refine ⟨?_, fun i bs part part' hp hp' position => ?_⟩
    · obtain ⟨-, hlabel⟩ : ResolvedAt s ([], e) ([], e') := by simpa [at?] using h []
      generalize hl : e.label = l, hl' : e'.label = l' at hlabel
      cases hlabel with
      | @name x b hb => exact absurd (eq_name_of_label hl) (hname x)
      | other => rfl
    · exact (rel_at?_cons hp hp' position).1 (h (i :: position))
  · rintro ⟨hlabel, hparts⟩ position
    cases position with
    | nil =>
      refine .some ⟨rfl, ?_⟩
      rw [hlabel]
      exact .other fun x hx => hname x (eq_name_of_label hx)
    | cons i position =>
      cases hp : e.scopedParts[i]? with
      | some p =>
        obtain ⟨part', hp'⟩ := exists_scopedPart hlabel hp
        exact (rel_at?_cons hp hp' position).2 (hparts i p.1 p.2 part' hp hp' position)
      | none =>
        have hp' : e'.scopedParts[i]? = none := by
          rw [List.getElem?_eq_none_iff, length_scopedParts] at hp ⊢
          rwa [length_parts_eq hlabel]
        rw [at?, at?, hp, hp']
        exact .none

/-- **Names are resolved to the nearest binder.** -/
theorem resolve_eq_ok_iff (e : Expr) (s : Visible) (e' : Expr) :
    e.resolve s = .ok e' ↔ ResolvedTo s e e' := by
  induction e using induction_parts generalizing s e' with
  | _ e ih =>
    by_cases hname : ∃ x, e = name x
    · obtain ⟨x, rfl⟩ := hname
      rw [resolve_name, resolvedTo_name, except_map_eq_ok]
      exact exists_congr fun b => and_congr Visible.find_eq_ok eq_comm
    · have hname : ∀ x, e ≠ name x := fun x he => hname ⟨x, he⟩
      have ih : ∀ i bs part, e.scopedParts[i]? = some (bs, part) → ∀ part',
          part.resolve (bs ++ s) = .ok part' ↔ ResolvedTo (bs ++ s) part part' :=
        fun i bs part hp => ih part (List.mem_of_getElem? (scopedParts_eq_some.1 hp).2) _
      rw [resolve_eq_resolveParts hname, resolvedTo_iff_parts hname, except_map_eq_ok]
      constructor
      · rintro ⟨parts', hparts', rfl⟩
        obtain ⟨hlength, hall⟩ := mapM_eq_ok.1 hparts'
        obtain ⟨hparts, hlabel⟩ := parts_withParts (hlength.trans e.length_scopedParts)
        refine ⟨hlabel, fun i bs part part' hp hp' => (ih i bs part hp part').1 ?_⟩
        rw [scopedParts_eq_some, hparts] at hp'
        exact hall i (bs, part) part' hp hp'.2
      · rintro ⟨hlabel, hparts⟩
        refine ⟨e'.parts, mapM_eq_ok.2 ⟨?_, fun i p part' hp hpart' => ?_⟩, withParts_parts hlabel⟩
        · rw [length_scopedParts, length_parts_eq hlabel]
        · have hbinders := (scopedParts_eq_some.1 hp).1
          rw [← hlabel] at hbinders
          have hp' : e'.scopedParts[i]? = some (p.1, part') :=
            scopedParts_eq_some.2 ⟨hbinders, hpart'⟩
          exact (ih i p.1 p.2 hp part').2 (hparts i p.1 p.2 part' hp hp')

/-- A resolved expression is a name, or a node whose parts are resolved. -/
@[elab_as_elim]
theorem ResolvedTo.induction {motive : ∀ s e e', ResolvedTo s e e' → Prop}
    (name : ∀ {s : Visible} {x : String} {b : Binding} (hb : s.Nearest x b),
      motive s (.name x) (.ref b) (resolvedTo_name.2 ⟨b, hb, rfl⟩))
    (node : ∀ {s : Visible} {e e' : Expr} (h : ResolvedTo s e e'), (∀ x, e ≠ .name x) →
      e'.label = e.label →
      ∀ hparts : (∀ (i : Nat) bs part part', e.scopedParts[i]? = some (bs, part) →
        e'.scopedParts[i]? = some (bs, part') → ResolvedTo (bs ++ s) part part'),
      (∀ i bs part part' hp hp',
        motive (bs ++ s) part part' (hparts i bs part part' hp hp')) → motive s e e' h)
    {s : Visible} {e e' : Expr} (h : ResolvedTo s e e') : motive s e e' h := by
  induction e using induction_parts generalizing s e' with
  | _ e ih =>
    by_cases hname : ∃ x, e = .name x
    · obtain ⟨x, rfl⟩ := hname
      obtain ⟨b, hb, rfl⟩ := resolvedTo_name.1 h
      exact name hb
    · have hname : ∀ x, e ≠ .name x := fun x he => hname ⟨x, he⟩
      obtain ⟨hlabel, hparts⟩ := (resolvedTo_iff_parts hname).1 h
      refine node h hname hlabel hparts fun i bs part part' hp hp' => ?_
      have hmem : part ∈ e.parts := List.mem_of_getElem? (scopedParts_eq_some.1 hp).2
      exact ih part hmem (hparts i bs part part' hp hp')

end Expr

end DepLang
