import DepLang.Proofs.LocallyNameless

/-!
# Convertible terms

`Convertible E t u` says that two terms are equal in the theory generated by

* **beta**: a function applied to an argument is its body at the argument,
* **delta**: a defined variable is its value; `E` gives the values,
* **zeta**: a `let` is its body at the value that it binds,
* **eta**: a function is what applies it to its argument,

and by congruence. The names that `pi` and `let` carry for display are ignored. Nothing is typed,
and nothing is said about how a term is normalised or compared.

Under a binder the rules speak of all variables from some identity on. Since a table of definitions
is finite, that is every variable new enough. One such variable is as good as all of them
(`Convertible.rename`).

The theory has one substitution lemma, `Convertible.substAll`. It says that a substitution which
respects the definitions respects convertibility. Renaming, changing to another table of definitions
and unfolding a definition altogether are instances of it.
-/
namespace DepLang

/-- The values of the variables that are defined. -/
abbrev Values := Binding → Option Term

namespace Values

/-- Defines one more variable. -/
def define (E : Values) (b : Binding) (v : Term) : Values := fun c => if c = b then some v else E c

/-- The variable is not defined, and no value mentions it. -/
def Fresh (E : Values) (b : Binding) : Prop :=
  E b = none ∧ ∀ c v, E c = some v → v.Over (· ≠ b)

/-- The variables that are defined and those that values mention have identities below `n`. -/
def Below (E : Values) (n : Nat) : Prop := ∀ b v, E b = some v → b.id < n ∧ v.Below n

@[simp] theorem define_self (E : Values) (b : Binding) (v : Term) : E.define b v b = some v :=
  if_pos rfl

theorem define_of_ne (E : Values) {b c : Binding} (v : Term) (h : c ≠ b) :
    E.define b v c = E c :=
  if_neg h

theorem define_eq_some {E : Values} {b c : Binding} {w : Term} (hb : E b = none) (v : Term)
    (hc : E c = some w) : E.define b v c = some w := by
  have hcb : c ≠ b := by
    rintro rfl
    rw [hb] at hc
    cases hc
  rw [define_of_ne _ _ hcb, hc]

theorem forall_define {E : Values} {b : Binding} {v : Term} {Q : Binding → Term → Prop} (hv : Q b v)
    (hE : ∀ c w, c ≠ b → E c = some w → Q c w) : ∀ c w, E.define b v c = some w → Q c w := by
  intro c w hc
  by_cases hcb : c = b
  · subst hcb
    rw [define_self] at hc
    cases hc
    exact hv
  · rw [define_of_ne _ _ hcb] at hc
    exact hE c w hcb hc

theorem Below.fresh {E : Values} {n : Nat} (h : E.Below n) {b : Binding} (hb : n ≤ b.id) :
    E.Fresh b := by
  refine ⟨?_, fun c v hc => (h c v hc).2.ne hb⟩
  cases he : E b with
  | none => rfl
  | some v => have := (h b v he).1; omega

theorem Below.mono {E : Values} {m n : Nat} (h : E.Below m) (hmn : m ≤ n) : E.Below n :=
  fun b v hb => ⟨by have := (h b v hb).1; omega, (h b v hb).2.mono hmn⟩

theorem Below.define {E : Values} {n : Nat} (h : E.Below n) {b : Binding} (hb : b.id < n)
    {v : Term} (hv : v.Below n) : (E.define b v).Below n :=
  forall_define ⟨hb, hv⟩ fun c w _ => h c w

end Values

/-- Two terms are equal by beta, delta, zeta, eta and congruence. -/
inductive Convertible (E : Values) : Term → Term → Prop where
  | refl {t : Term} : t.LocallyClosed → Convertible E t t
  | symm {t u : Term} : Convertible E t u → Convertible E u t
  | trans {t u v : Term} : Convertible E t u → Convertible E u v → Convertible E t v
  | beta {body a : Term} : (Term.lam body).LocallyClosed → a.LocallyClosed →
      Convertible E (.app (.lam body) a) (body.instantiate a)
  | delta {b : Binding} {v : Term} : E b = some v → v.LocallyClosed → Convertible E (.free b) v
  | zeta {name : String} {ty v body : Term} : (Term.letIn name ty v body).LocallyClosed →
      Convertible E (.letIn name ty v body) (body.instantiate v)
  | eta {f : Term} : f.LocallyClosed → Convertible E (.lam (.app f (.bound 0))) f
  | lam {t u : Term} (n : Nat) :
      (∀ b : Binding, n ≤ b.id → Convertible E (t.openWith b) (u.openWith b)) →
      Convertible E (.lam t) (.lam u)
  | pi {name name' : String} {A A' B B' : Term} (n : Nat) : Convertible E A A' →
      (∀ b : Binding, n ≤ b.id → Convertible E (B.openWith b) (B'.openWith b)) →
      Convertible E (.pi name A B) (.pi name' A' B')
  | app {f f' a a' : Term} : Convertible E f f' → Convertible E a a' →
      Convertible E (.app f a) (.app f' a')
  | letIn {name name' : String} {A A' v v' t u : Term} (n : Nat) : Convertible E A A' →
      Convertible E v v' →
      (∀ b : Binding, n ≤ b.id → Convertible E (t.openWith b) (u.openWith b)) →
      Convertible E (.letIn name A v t) (.letIn name' A' v' u)

namespace Convertible

variable {E F : Values}

instance : Trans (Convertible E) (Convertible E) (Convertible E) := ⟨Convertible.trans⟩

theorem locallyClosed {t u : Term} (h : Convertible E t u) : t.LocallyClosed ∧ u.LocallyClosed := by
  induction h with
  | refl ht => exact ⟨ht, ht⟩
  | symm _ ih => exact ⟨ih.2, ih.1⟩
  | trans _ _ ih₁ ih₂ => exact ⟨ih₁.1, ih₂.2⟩
  | beta hb ha => exact ⟨⟨hb, ha⟩, Term.ClosedAt.instantiate hb ha⟩
  | delta _ hv => exact ⟨trivial, hv⟩
  | zeta h => exact ⟨h, Term.ClosedAt.instantiate h.2.2 h.2.1⟩
  | eta hf => exact ⟨⟨Term.ClosedAt.mono hf (Nat.zero_le 1), Nat.zero_lt_one⟩, hf⟩
  | lam n _ ih =>
    have := ih ⟨n, ""⟩ (Nat.le_refl n)
    exact ⟨.of_openWith this.1, .of_openWith this.2⟩
  | pi n _ _ ihA ihB =>
    have := ihB ⟨n, ""⟩ (Nat.le_refl n)
    exact ⟨⟨ihA.1, .of_openWith this.1⟩, ⟨ihA.2, .of_openWith this.2⟩⟩
  | app _ _ ihf iha => exact ⟨⟨ihf.1, iha.1⟩, ⟨ihf.2, iha.2⟩⟩
  | letIn n _ _ _ ihA ihv iht =>
    have := iht ⟨n, ""⟩ (Nat.le_refl n)
    exact ⟨⟨ihA.1, ihv.1, .of_openWith this.1⟩, ⟨ihA.2, ihv.2, .of_openWith this.2⟩⟩

/-- **Substitution.** A substitution that turns defined variables into terms convertible with what
it makes of their values respects convertibility. It has to leave all but finitely many variables
alone. -/
theorem substAll {t u : Term} (h : Convertible E t u) {σ : Binding → Term} {m : Nat}
    (hlc : ∀ b, (σ b).LocallyClosed) (hσ : ∀ b : Binding, m ≤ b.id → σ b = .free b)
    (hE : ∀ b v, E b = some v → v.LocallyClosed → Convertible F (σ b) (v.substAll σ)) :
    Convertible F (t.substAll σ) (u.substAll σ) := by
  -- Under a binder, only variables that the substitution leaves alone are considered.
  have under : ∀ {t u : Term} {n : Nat},
      (∀ b : Binding, n ≤ b.id →
        Convertible F ((t.openWith b).substAll σ) ((u.openWith b).substAll σ)) →
      ∀ b : Binding, max n m ≤ b.id →
        Convertible F ((t.substAll σ).openWith b) ((u.substAll σ).openWith b) := by
    intro t u n ih b hb
    have hσb := hσ b (by omega)
    rw [← Term.substAll_openWith hlc t hσb, ← Term.substAll_openWith hlc u hσb]
    exact ih b (by omega)
  induction h with
  | refl ht => exact .refl (ht.substAll hlc)
  | symm _ ih => exact ih.symm
  | trans _ _ ih₁ ih₂ => exact ih₁.trans ih₂
  | beta hb ha =>
    rw [Term.substAll_instantiate hlc]
    exact .beta (Term.ClosedAt.substAll hb hlc) (ha.substAll hlc)
  | delta hb hv => exact hE _ _ hb hv
  | zeta hl =>
    rw [Term.substAll_instantiate hlc]
    exact .zeta (Term.ClosedAt.substAll hl hlc)
  | eta hf => exact .eta (hf.substAll hlc)
  | lam n _ ih => exact .lam (max n m) (under ih)
  | pi n _ _ ihA ihB => exact .pi (max n m) ihA (under ihB)
  | app _ _ ihf iha => exact .app ihf iha
  | letIn n _ _ _ ihA ihv iht => exact .letIn (max n m) ihA ihv (under iht)

/-- What is convertible with some definitions is so with others that the values agree with. -/
theorem change {t u : Term} (h : Convertible E t u)
    (hE : ∀ b v, E b = some v → v.LocallyClosed → Convertible F (.free b) v) :
    Convertible F t u := by
  have := h.substAll (m := 0) Term.locallyClosed_free (fun _ _ => rfl) (fun b v hb hv => by
    rw [Term.substAll_free]; exact hE b v hb hv)
  rwa [Term.substAll_free, Term.substAll_free] at this

theorem mono {t u : Term} (h : Convertible E t u) (hE : ∀ b v, E b = some v → F b = some v) :
    Convertible F t u :=
  h.change fun b v hb hv => .delta (hE b v hb) hv

theorem subst_fresh {t u : Term} (h : Convertible E t u) {b : Binding} (hb : E.Fresh b) {s : Term}
    (hs : s.LocallyClosed) :
    Convertible E (t.substAll (Term.only b s)) (u.substAll (Term.only b s)) := by
  refine h.substAll (m := b.id + 1) (Term.only_locallyClosed hs) ?_ ?_
  · intro c hc
    exact Term.only_of_ne s fun e => by subst e; omega
  · intro c v hc hv
    have hcb : c ≠ b := by
      rintro rfl
      rw [hb.1] at hc
      cases hc
    rw [Term.only_of_ne s hcb, Term.substAll_only_of_fresh (hb.2 c v hc)]
    exact .delta hc hv

/-- One new variable under a binder is as good as all variables. -/
theorem rename {t u : Term} {b : Binding} (h : Convertible E (t.openWith b) (u.openWith b))
    (hb : E.Fresh b) (ht : t.Over (· ≠ b)) (hu : u.Over (· ≠ b)) (c : Binding) :
    Convertible E (t.openWith c) (u.openWith c) := by
  have hc := Term.locallyClosed_free c
  have := h.subst_fresh hb hc
  rwa [← Term.instantiate_eq_substAll ht hc, ← Term.instantiate_eq_substAll hu hc] at this

/-- A new definition is used up by substituting its value. -/
theorem undefine {t u : Term} {b : Binding} {v : Term} (h : Convertible (E.define b v) t u)
    (hb : E.Fresh b) (hv : v.LocallyClosed) (hvb : v.Over (· ≠ b)) :
    Convertible E (t.substAll (Term.only b v)) (u.substAll (Term.only b v)) := by
  refine h.substAll (m := b.id + 1) (Term.only_locallyClosed hv) ?_ ?_
  · intro c hc
    exact Term.only_of_ne v fun e => by subst e; omega
  · refine Values.forall_define (fun _ => ?_) fun c w hcb hc hw => ?_
    · rw [Term.only_self, Term.substAll_only_of_fresh hvb]
      exact .refl hv
    · rw [Term.only_of_ne v hcb, Term.substAll_only_of_fresh (hb.2 c w hc)]
      exact .delta hc hw

theorem forget {t u : Term} {b : Binding} {v : Term} (h : Convertible (E.define b v) t u)
    (hb : E.Fresh b) (hv : v.LocallyClosed) (hvb : v.Over (· ≠ b)) (ht : t.Over (· ≠ b))
    (hu : u.Over (· ≠ b)) : Convertible E t u := by
  have := h.undefine hb hv hvb
  rwa [Term.substAll_only_of_fresh ht, Term.substAll_only_of_fresh hu] at this

theorem define_mono {t u : Term} (h : Convertible E t u) {b : Binding} (hb : E b = none)
    (v : Term) : Convertible (E.define b v) t u :=
  h.mono fun _ _ => Values.define_eq_some hb v

theorem instantiate {t u a a' : Term} {n : Nat}
    (h : ∀ b : Binding, n ≤ b.id → Convertible E (t.openWith b) (u.openWith b))
    (ha : Convertible E a a') : Convertible E (t.instantiate a) (u.instantiate a') := by
  have hlam : Convertible E (.lam t) (.lam u) := .lam n h
  have hlc := hlam.locallyClosed
  calc Convertible E (t.instantiate a) (.app (.lam t) a) := (beta hlc.1 ha.locallyClosed.1).symm
    Convertible E _ (.app (.lam u) a') := .app hlam ha
    Convertible E _ (u.instantiate a') := .beta hlc.2 ha.locallyClosed.2

theorem instantiate_right {t a a' : Term} (ht : t.ClosedAt 1) (ha : Convertible E a a') :
    Convertible E (t.instantiate a) (t.instantiate a') :=
  instantiate (n := 0) (fun b _ => .refl (ht.openWith b)) ha

theorem makeLet {b : Binding} {ty v body : Term} (hty : ty.LocallyClosed) (hv : v.LocallyClosed)
    (hbody : body.LocallyClosed) :
    Convertible E (Term.makeLet b ty v body) (body.substAll (Term.only b v)) := by
  rcases Term.makeLet_cases b ty v body with ⟨hfresh, he⟩ | he
  · rw [he, Term.substAll_only_of_fresh hfresh]
    exact .refl hbody
  · rw [he, ← Term.instantiate_close hbody]
    exact .zeta ⟨hty, hv, hbody.close b⟩

end Convertible

end DepLang
