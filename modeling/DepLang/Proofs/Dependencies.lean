import DepLang.Proofs.LocallyNameless
import DepLang.Proofs.Scopes

/-!
# What a chain of lets keeps

`Definitions.wrap` goes through the definitions from the last to the first, and makes a `let` of one
exactly if the term that it has built so far mentions the variable. So a definition can be kept for
the sake of another one, by its type or its value, that was kept before.

Here this is compared with the definitions that the term depends on. They are found from the term
outwards, and know nothing of an order.

* `Definitions.Needs`: the variables that a term leads to, through the types and the values of
  definitions.
* `Telescope.nest`: one `let` for each definition, needed or not.
* `Definitions.InOrder`: a definition mentions no definition that is listed after it. This is what
  lets one pass find everything that is needed (`needs_iff_later`).
* `usage_wrap`: what is free in the term that has been built so far.
* `wrap_keeps_dependencies`: `wrap` is the nest of the needed definitions.
-/
namespace DepLang

/-! ## Counting under a let -/

namespace Term

theorem usage_closeAt (b c : Binding) (t : Term) (k : Nat) :
    (closeAt b k t).usage c = if c = b then 0 else t.usage c := by
  induction t generalizing k with
  | bound | bool | boolType | type => simp [closeAt, usage]
  | free a =>
    by_cases hab : a = b
    · subst hab
      by_cases hca : c = a
      · simp [closeAt, usage, hca]
      · simp [closeAt, usage, hca, Ne.symm hca]
    · by_cases hcb : c = b
      · subst hcb
        simp [closeAt, usage, hab]
      · simp [closeAt, usage, hab, hcb]
  | lam body ih => simp [closeAt, usage, ih]
  | pi _ _ _ ihd ihc =>
    simp only [closeAt, usage, ihd, ihc]
    split <;> rfl
  | app _ _ ihf iha =>
    simp only [closeAt, usage, ihf, iha]
    split <;> rfl
  | letIn _ _ _ _ iht ihv ihb =>
    simp only [closeAt, usage, iht, ihv, ihb]
    split <;> rfl

theorem usage_close (b c : Binding) (t : Term) :
    (t.close b).usage c = if c = b then 0 else t.usage c :=
  usage_closeAt b c t 0

end Term

/-! ## What a term depends on -/

/-- The definition mentions the variable, in its type or in its value. -/
def Definition.Mentions (d : Definition) (b : Binding) : Prop :=
  d.ty.usage b ≠ 0 ∨ d.value.usage b ≠ 0

/-- Puts a term under all the definitions of a telescope. -/
def Telescope.nest (definitions : Telescope) (t : Term) : Term :=
  definitions.foldr
    (fun entry body => .letIn entry.1.name entry.2.ty entry.2.value (body.close entry.1)) t

namespace Definitions

/-- The variables that a term leads to: those that are free in it, and those that a definition of
one of them mentions. -/
inductive Needs (definitions : Definitions) (t : Term) : Binding → Prop where
  | free {b : Binding} : t.usage b ≠ 0 → Needs definitions t b
  | through {b c : Binding} {d : Definition} : Needs definitions t b →
      definitions.lookup b = some d → d.Mentions c → Needs definitions t c

/-- Of the variables that are defined, each definition mentions only such as are listed before
it. -/
def InOrder (definitions : Definitions) : Prop :=
  ∀ before b d after, definitions.bindings = before ++ (b, d) :: after →
    ∀ c, d.Mentions c → (definitions.lookup c).isSome → c ∈ before.map Prod.fst

section

variable {definitions : Definitions}

theorem nodup_bindings (definitions : Definitions) :
    (definitions.bindings.map Prod.fst).Nodup := by
  rw [Scope.map_fst_bindings]
  exact definitions.nodup_keys

theorem not_mem_before {before after : Telescope} (heq : definitions.bindings = before ++ after)
    {b : Binding} (hb : b ∈ after.map Prod.fst) : b ∉ before.map Prod.fst := by
  have hnodup := definitions.nodup_bindings
  rw [heq, List.map_append, List.nodup_append] at hnodup
  exact fun hbefore => hnodup.2.2 b hbefore b hb rfl

theorem not_mem_after {before after : Telescope} {b : Binding} {d : Definition}
    (heq : definitions.bindings = before ++ (b, d) :: after) : b ∉ after.map Prod.fst := by
  have heq' : definitions.bindings = (before ++ [(b, d)]) ++ after := by simp [heq]
  exact fun hb => not_mem_before heq' hb (by simp)

theorem isSome_lookup_of_mem {before after : Telescope}
    (heq : definitions.bindings = before ++ after) {b : Binding} (hb : b ∈ after.map Prod.fst) :
    (definitions.lookup b).isSome := by
  rw [← Scope.mem_keys, ← Scope.map_fst_bindings, heq, List.map_append]
  exact List.mem_append_right _ hb

theorem InOrder.not_mentions (h : definitions.InOrder) {before after : Telescope} {b : Binding}
    {d : Definition} (heq : definitions.bindings = before ++ (b, d) :: after) {c : Binding}
    (hc : c ∈ ((b, d) :: after).map Prod.fst) : ¬ d.Mentions c := by
  intro hm
  exact not_mem_before heq hc (h before b d after heq c hm (isSome_lookup_of_mem heq hc))

/-- A defined variable that is needed is free in the term, or a later definition needs it. -/
theorem InOrder.needs_iff_later (h : definitions.InOrder) {t : Term} {before after : Telescope}
    {b : Binding} {d : Definition} (heq : definitions.bindings = before ++ (b, d) :: after) :
    definitions.Needs t b ↔
      t.usage b ≠ 0 ∨ ∃ entry ∈ after, definitions.Needs t entry.1 ∧ entry.2.Mentions b := by
  constructor
  · intro hb
    cases hb with
    | free hb => exact .inl hb
    | @through c _ e hc hlookup hm =>
      have hmem : (c, e) ∈ before ++ (b, d) :: after := heq ▸ Scope.mem_bindings.2 hlookup
      rcases List.mem_append.1 hmem with hbefore | hafter
      · -- a definition before that of `b` does not mention `b`
        obtain ⟨first, second, rfl⟩ := List.append_of_mem hbefore
        have heq' : definitions.bindings = first ++ (c, e) :: (second ++ (b, d) :: after) := by
          simp [heq]
        exact absurd hm (h.not_mentions heq' (by simp))
      · rcases List.mem_cons.1 hafter with hself | hafter
        · cases hself
          exact absurd hm (h.not_mentions heq List.mem_cons_self)
        · exact .inr ⟨(c, e), hafter, hc, hm⟩
  · rintro (hb | ⟨⟨c, e⟩, hmem, hc, hm⟩)
    · exact .free hb
    · refine .through hc (Scope.mem_bindings.1 ?_) hm
      simp [heq, hmem]

end

/-! ## The chain of lets -/

section

variable {definitions : Definitions} {t : Term}

theorem usage_letIn_close (name : String) (d : Definition) (body : Term) (b c : Binding) :
    (Term.letIn name d.ty d.value (body.close b)).usage c ≠ 0 ↔
      d.Mentions c ∨ c ≠ b ∧ body.usage c ≠ 0 := by
  unfold Definition.Mentions
  rw [Term.usage, Term.usage_close]
  by_cases hcb : c = b
  · simp only [hcb, if_true, ne_eq, not_true_eq_false, false_and, or_false]
    omega
  · simp only [hcb, if_false, ne_eq, not_false_eq_true, true_and]
    omega

/-- A term that mentions what is not listed later, and what is needed later, mentions a variable
exactly if the variable is needed. -/
theorem InOrder.usage_ne_zero_iff_needs (h : definitions.InOrder) {before after : Telescope}
    {b : Binding} {d : Definition} (heq : definitions.bindings = before ++ (b, d) :: after)
    {u : Term} (hu : u.usage b ≠ 0 ↔ b ∉ after.map Prod.fst ∧
      (t.usage b ≠ 0 ∨ ∃ entry ∈ after, definitions.Needs t entry.1 ∧ entry.2.Mentions b)) :
    u.usage b ≠ 0 ↔ definitions.Needs t b := by
  rw [hu, h.needs_iff_later heq]
  exact and_iff_right (not_mem_after heq)

/-- **What is free under the rest of the table.** Nothing that the rest defines, and otherwise what
is free in the term or in a needed definition of the rest. -/
theorem InOrder.usage_wrap (h : definitions.InOrder) {before after : Telescope}
    (heq : definitions.bindings = before ++ after) (c : Binding) :
    (Telescope.wrap after t).usage c ≠ 0 ↔ c ∉ after.map Prod.fst ∧
      (t.usage c ≠ 0 ∨ ∃ entry ∈ after, definitions.Needs t entry.1 ∧ entry.2.Mentions c) := by
  induction after generalizing before c with
  | nil => simp [Telescope.wrap]
  | cons entry after ih =>
    obtain ⟨b, d⟩ := entry
    have ih := @ih (before ++ [(b, d)]) (by simp [heq])
    have hneeded := h.usage_ne_zero_iff_needs heq (ih b)
    have hown : c ∈ ((b, d) :: after).map Prod.fst → ¬ d.Mentions c := h.not_mentions heq
    have hcons : Telescope.wrap ((b, d) :: after) t =
        .makeLet b d.ty d.value (Telescope.wrap after t) := rfl
    rw [hcons, Term.makeLet]
    simp only [List.map_cons, List.mem_cons, not_or, exists_eq_or_imp] at hown ⊢
    by_cases hb : definitions.Needs t b
    · rw [if_neg (hneeded.2 hb), usage_letIn_close, ih c]
      grind
    · rw [if_pos (Classical.not_not.1 (mt hneeded.1 hb)), ih c]
      have hcb : c = b → ¬ (Telescope.wrap after t).usage c ≠ 0 := by
        rintro rfl
        exact mt hneeded.1 hb
      rw [ih c] at hcb
      grind

open Classical in
/-- **One pass keeps what is needed.** -/
theorem InOrder.wrap_eq_nest (h : definitions.InOrder) {before after : Telescope}
    (heq : definitions.bindings = before ++ after) : Telescope.wrap after t =
      Telescope.nest (after.filter fun entry => definitions.Needs t entry.1) t := by
  induction after generalizing before with
  | nil => rfl
  | cons entry after ih =>
    obtain ⟨b, d⟩ := entry
    have ih := @ih (before ++ [(b, d)]) (by simp [heq])
    have heq' : definitions.bindings = (before ++ [(b, d)]) ++ after := by simp [heq]
    have hneeded := h.usage_ne_zero_iff_needs heq (h.usage_wrap (t := t) heq' b)
    have hcons : Telescope.wrap ((b, d) :: after) t =
        .makeLet b d.ty d.value (Telescope.wrap after t) := rfl
    rw [hcons, Term.makeLet]
    by_cases hb : definitions.Needs t b
    · rw [if_neg (hneeded.2 hb), List.filter_cons_of_pos (by simpa using hb), ih]
      rfl
    · rw [if_pos (Classical.not_not.1 (mt hneeded.1 hb)),
        List.filter_cons_of_neg (by simpa using hb), ih]

end

end Definitions

open Classical in
/-- **A chain of `let`s keeps exactly the dependencies.** Take definitions of which each mentions,
among the variables that are defined, only such as are listed before it. A term under these
definitions is the nest of the `let`s of exactly those that the term leads to through types and
values, as a lookup finds them, in the order of the list. What is free in the whole is not defined,
and free in the term or in one of the definitions that are kept. -/
theorem wrap_keeps_dependencies {definitions : Definitions} (h : definitions.InOrder) (t : Term) :
    let kept := definitions.bindings.filter fun entry => definitions.Needs t entry.1
    definitions.wrap t = Telescope.nest kept t ∧
      ∀ c, (definitions.wrap t).usage c ≠ 0 ↔ definitions.lookup c = none ∧
        (t.usage c ≠ 0 ∨ ∃ entry ∈ kept, entry.2.Mentions c) := by
  intro kept
  refine ⟨h.wrap_eq_nest (List.nil_append _).symm, fun c => ?_⟩
  have hlisted : c ∉ definitions.bindings.map Prod.fst ↔ definitions.lookup c = none := by
    rw [Scope.map_fst_bindings, Scope.mem_keys, Bool.not_eq_true, Option.isSome_eq_false_iff,
      Option.isNone_iff_eq_none]
  rw [Definitions.wrap, h.usage_wrap (List.nil_append _).symm, hlisted]
  simp [kept, List.mem_filter, and_assoc]

/-- `a` is needed for the type of `c`, and `c` for the value that a child scope has given to `e`.
Nothing leads to `b`, which the old value of `e` mentions. The undefined `x` stays free. -/
theorem wrap_keeps_dependencies_overridden :
    let a : Binding := ⟨0, "a"⟩
    let b : Binding := ⟨1, "b"⟩
    let c : Binding := ⟨2, "c"⟩
    let e : Binding := ⟨3, "e"⟩
    let x : Binding := ⟨4, "x"⟩
    let definitions : Definitions :=
      { inner := [(e, ⟨.free c, .boolType⟩)]
        outer := [[(a, ⟨.boolType, .type⟩), (b, ⟨.bool true, .boolType⟩), (c, ⟨.free x, .free a⟩),
          (e, ⟨.free b, .boolType⟩)]] }
    definitions.InOrder ∧
      definitions.wrap (.free e) = Telescope.nest [(a, ⟨.boolType, .type⟩), (c, ⟨.free x, .free a⟩),
        (e, ⟨.free c, .boolType⟩)] (.free e) ∧
      (definitions.wrap (.free e)).usage x ≠ 0 := by
  intro a b c e x definitions
  have hbindings : definitions.bindings = [(a, ⟨.boolType, .type⟩), (b, ⟨.bool true, .boolType⟩),
      (c, ⟨.free x, .free a⟩), (e, ⟨.free c, .boolType⟩)] := by decide +kernel
  have horder : definitions.InOrder := by
    intro before y d after heq z hm hz
    rw [hbindings] at heq
    rcases before with _ | ⟨_, _ | ⟨_, _ | ⟨_, _ | ⟨_, _ | _⟩⟩⟩⟩ <;> cases heq
    · simp [Definition.Mentions, Term.usage] at hm
    · simp [Definition.Mentions, Term.usage] at hm
    · have hzx : a = z ∨ x = z := by simpa [Definition.Mentions, Term.usage] using hm
      rcases hzx with rfl | rfl
      · simp
      · cases hz
    · have hzc : c = z := by simpa [Definition.Mentions, Term.usage] using hm
      simp [hzc]
  have he : definitions.Needs (.free e) e := .free (by simp [Term.usage])
  have hc : definitions.Needs (.free e) c :=
    .through he rfl (by simp [Definition.Mentions, Term.usage])
  have ha : definitions.Needs (.free e) a :=
    .through hc rfl (by simp [Definition.Mentions, Term.usage])
  have hb : ¬ definitions.Needs (.free e) b := by
    have hsplit : definitions.bindings = [(a, ⟨.boolType, .type⟩)] ++
        (b, ⟨.bool true, .boolType⟩) :: [(c, ⟨.free x, .free a⟩), (e, ⟨.free c, .boolType⟩)] :=
      hbindings
    rw [horder.needs_iff_later hsplit]
    simp [Definition.Mentions, Term.usage, e, b, c, a, x]
  obtain ⟨hwrap, hfree⟩ := wrap_keeps_dependencies horder (.free e)
  refine ⟨horder, ?_, (hfree x).2 ⟨rfl, .inr ⟨(c, ⟨.free x, .free a⟩), ?_, ?_⟩⟩⟩
  · rw [hwrap, hbindings]
    simp [ha, hb, hc, he]
  · simp [hbindings, hc]
  · simp [Definition.Mentions, Term.usage]

end DepLang
