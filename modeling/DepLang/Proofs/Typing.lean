import DepLang.Proofs.Convertible

/-!
# Typed terms

`Typed Γ t T` is the declarative type system of the calculus. It has one universe, which contains
itself, dependent function types, truth values, and `let`, whose body is typed with the variable
defined. A type may be replaced by a convertible one that is a type as well. Nothing is said about
how types are found or compared.

An environment `Γ` gives a variable its type, and its value if it is defined. Under a binder the
rules speak of all variables from some identity on, as those of `Convertible` do.

* `Typed.mono`: a larger environment types as much.
* `Typed.substAll`: a substitution that is typed and respects definitions respects typing. Renaming,
  instantiating a binder, unfolding a definition and replacing a type or a value in the environment
  by a convertible one are instances of it.
* `Typed.regular`: what is the type of something is a type.
* `Typed.makeLet`: a `let` around a term and its type, each kept only if it is used.
-/
namespace DepLang

/-- What an environment says about a variable. -/
structure Entry where
  ty : Term
  value : Option Term

/-- The types of the variables in scope, and the values of those that are defined. -/
abbrev Environment := Binding → Option Entry

namespace Environment

/-- Nothing is in scope. -/
def empty : Environment := fun _ => none

def set (Γ : Environment) (b : Binding) (e : Entry) : Environment :=
  fun c => if c = b then some e else Γ c

/-- Brings a variable into scope. -/
def assume (Γ : Environment) (b : Binding) (ty : Term) : Environment := Γ.set b ⟨ty, none⟩

/-- Brings a variable into scope that is defined. -/
def define (Γ : Environment) (b : Binding) (ty v : Term) : Environment := Γ.set b ⟨ty, some v⟩

/-- The values of the variables that are defined. -/
def values (Γ : Environment) : Values := fun b => (Γ b).bind Entry.value

/-- The variable is in scope. -/
def Binds (Γ : Environment) (b : Binding) : Prop := ∃ e, Γ b = some e

/-- What `Γ` says, `Δ` says too. -/
def Le (Γ Δ : Environment) : Prop := ∀ b e, Γ b = some e → Δ b = some e

variable {Γ Δ : Environment} {b c : Binding} {e : Entry}

@[simp] theorem set_self (Γ : Environment) (b : Binding) (e : Entry) : Γ.set b e b = some e :=
  if_pos rfl

theorem set_of_ne (Γ : Environment) (e : Entry) (h : c ≠ b) : Γ.set b e c = Γ c := if_neg h

theorem values_eq_some {v : Term} :
    Γ.values b = some v ↔ ∃ e, Γ b = some e ∧ e.value = some v := by
  unfold values
  exact Option.bind_eq_some_iff

theorem values_define (Γ : Environment) (b : Binding) (A v : Term) :
    (Γ.define b A v).values = Γ.values.define b v := by
  funext c
  by_cases h : c = b
  · subst h
    simp [values, define]
  · simp [values, define, set_of_ne _ _ h, Values.define_of_ne _ _ h]

theorem le_set (hb : Γ b = none) (e : Entry) : Γ.Le (Γ.set b e) := by
  intro c d hc
  have hcb : c ≠ b := by
    rintro rfl
    rw [hb] at hc
    cases hc
  rw [set_of_ne _ _ hcb, hc]

theorem Le.set (h : Γ.Le Δ) : (Γ.set b e).Le (Δ.set b e) := by
  intro c d hc
  by_cases hcb : c = b
  · subst hcb
    rwa [set_self] at hc ⊢
  · rw [set_of_ne _ _ hcb] at hc ⊢
    exact h c d hc

theorem Le.convertible (h : Γ.Le Δ) {t u : Term} (hc : Convertible Γ.values t u) :
    Convertible Δ.values t u := by
  refine hc.mono fun c v hv => ?_
  obtain ⟨d, hd, hv⟩ := values_eq_some.1 hv
  exact values_eq_some.2 ⟨d, h c d hd, hv⟩

end Environment

/-- The term has the type in the environment. -/
inductive Typed : Environment → Term → Term → Prop where
  | type {Γ : Environment} : Typed Γ .type .type
  | boolType {Γ : Environment} : Typed Γ .boolType .type
  | bool {Γ : Environment} {value : Bool} : Typed Γ (.bool value) .boolType
  | var {Γ : Environment} {b : Binding} {e : Entry} : Γ b = some e → e.ty.LocallyClosed →
      Typed Γ (.free b) e.ty
  | pi {Γ : Environment} {name : String} {A B : Term} (n : Nat) : Typed Γ A .type →
      (∀ b : Binding, n ≤ b.id → Typed (Γ.assume b A) (B.openWith b) .type) →
      Typed Γ (.pi name A B) .type
  | lam {Γ : Environment} {name : String} {A B t : Term} (n : Nat) : Typed Γ A .type →
      (∀ b : Binding, n ≤ b.id → Typed (Γ.assume b A) (t.openWith b) (B.openWith b)) →
      Typed Γ (.lam t) (.pi name A B)
  | app {Γ : Environment} {name : String} {A B f a : Term} : Typed Γ f (.pi name A B) →
      Typed Γ a A → Typed Γ (.app f a) (B.instantiate a)
  | letIn {Γ : Environment} {name : String} {A B v t : Term} (n : Nat) : Typed Γ A .type →
      Typed Γ v A →
      (∀ b : Binding, n ≤ b.id → Typed (Γ.define b A v) (t.openWith b) (B.openWith b)) →
      Typed Γ (.letIn name A v t) (B.instantiate v)
  | conv {Γ : Environment} {A B t : Term} : Typed Γ t A → Typed Γ B .type →
      Convertible Γ.values A B → Typed Γ t B

namespace Typed

variable {Γ Δ : Environment} {t T : Term}

theorem locallyClosed (h : Typed Γ t T) : t.LocallyClosed ∧ T.LocallyClosed := by
  induction h with
  | type | boolType | bool => exact ⟨trivial, trivial⟩
  | var _ hty => exact ⟨trivial, hty⟩
  | pi n _ _ ihA ihB => exact ⟨⟨ihA.1, .of_openWith (ihB ⟨n, ""⟩ (Nat.le_refl n)).1⟩, trivial⟩
  | lam n _ _ ihA iht =>
    have := iht ⟨n, ""⟩ (Nat.le_refl n)
    exact ⟨.of_openWith this.1, ihA.1, .of_openWith this.2⟩
  | app _ _ ihf iha => exact ⟨⟨ihf.1, iha.1⟩, Term.ClosedAt.instantiate ihf.2.2 iha.1⟩
  | letIn n _ _ _ ihA ihv iht =>
    have := iht ⟨n, ""⟩ (Nat.le_refl n)
    exact ⟨⟨ihA.1, ihv.1, .of_openWith this.1⟩, .instantiate (.of_openWith this.2) ihv.1⟩
  | conv _ _ _ iht ihB => exact ⟨iht.1, ihB.1⟩

theorem vars_over (h : Typed Γ t T) : t.Over Γ.Binds := by
  -- A body is opened with a variable that is new to it.
  have under : ∀ {Γ : Environment} {t : Term} {e : Binding → Entry} {n : Nat},
      (∀ b : Binding, n ≤ b.id → (t.openWith b).Over (Γ.set b (e b)).Binds) → t.Over Γ.Binds := by
    intro Γ t e n h
    obtain ⟨m, hm⟩ := t.exists_below
    let b : Binding := ⟨max n m, ""⟩
    have hne := hm.ne (b := b) (Nat.le_max_right n m)
    refine ((h b (Nat.le_max_left n m)).of_openWith.and hne).mono ?_
    rintro c ⟨⟨d, hd⟩, hc⟩
    rw [Environment.set_of_ne _ _ hc] at hd
    exact ⟨d, hd⟩
  induction h with
  | type | boolType | bool => trivial
  | var hb _ => exact ⟨_, hb⟩
  | pi n _ _ ihA ihB => exact ⟨ihA, under ihB⟩
  | @lam _ _ _ _ t n _ _ _ iht => exact under (t := t) iht
  | app _ _ ihf iha => exact ⟨ihf, iha⟩
  | letIn n _ _ _ ihA ihv iht => exact ⟨ihA, ihv, under iht⟩
  | conv _ _ _ iht _ => exact iht

theorem over_ne (h : Typed Γ t T) {b : Binding} (hb : Γ b = none) : t.Over (· ≠ b) := by
  refine h.vars_over.mono ?_
  rintro c ⟨e, hc⟩ rfl
  rw [hb] at hc
  cases hc

/-- **Weakening.** A larger environment types as much. -/
theorem mono (h : Typed Γ t T) (hΓ : Γ.Le Δ) : Typed Δ t T := by
  induction h generalizing Δ with
  | type => exact .type
  | boolType => exact .boolType
  | bool => exact .bool
  | var hb hty => exact .var (hΓ _ _ hb) hty
  | pi n _ _ ihA ihB => exact .pi n (ihA hΓ) fun b hb => ihB b hb hΓ.set
  | lam n _ _ ihA iht => exact .lam n (ihA hΓ) fun b hb => iht b hb hΓ.set
  | app _ _ ihf iha => exact .app (ihf hΓ) (iha hΓ)
  | letIn n _ _ _ ihA ihv iht =>
    exact .letIn n (ihA hΓ) (ihv hΓ) fun b hb => iht b hb hΓ.set
  | conv _ _ hc iht ihB => exact .conv (iht hΓ) (ihB hΓ) (hΓ.convertible hc)

end Typed

/-! ## Substitution -/

/-- The substitution puts for each variable of `Γ` a term that `Δ` gives the type of the variable,
and that is convertible with its value if it has one. From the identity `m` on it leaves variables
alone. -/
structure Maps (σ : Binding → Term) (Γ Δ : Environment) (m : Nat) : Prop where
  closed : ∀ b, (σ b).LocallyClosed
  above : ∀ b : Binding, m ≤ b.id → σ b = .free b
  new : ∀ b : Binding, m ≤ b.id → Δ b = none
  typed : ∀ b e, Γ b = some e → e.ty.LocallyClosed → Typed Δ (σ b) (e.ty.substAll σ)
  values : ∀ b v, Γ.values b = some v → v.LocallyClosed →
    Convertible Δ.values (σ b) (v.substAll σ)

/-- The entry after a substitution. -/
def Entry.substAll (σ : Binding → Term) (e : Entry) : Entry :=
  ⟨e.ty.substAll σ, e.value.map (Term.substAll σ)⟩

/-- A substitution goes under a binder. -/
theorem Maps.set {σ : Binding → Term} {Γ Δ : Environment} {m : Nat} (h : Maps σ Γ Δ m)
    {b : Binding} (hb : m ≤ b.id) (e : Entry) :
    Maps σ (Γ.set b e) (Δ.set b (e.substAll σ)) (b.id + 1) where
  closed := h.closed
  above c hc := h.above c (by omega)
  new c hc := by
    rw [Environment.set_of_ne _ _ fun e => by subst e; omega]
    exact h.new c (by omega)
  typed := by
    intro c d hc hd
    by_cases hcb : c = b
    · subst hcb
      rw [Environment.set_self] at hc
      cases hc
      rw [h.above c hb]
      exact .var (e := e.substAll σ) (Environment.set_self ..) (hd.substAll h.closed)
    · rw [Environment.set_of_ne _ _ hcb] at hc
      exact (h.typed c d hc hd).mono (Environment.le_set (h.new b hb) _)
  values := by
    intro c v hv hlc
    obtain ⟨d, hc, hd⟩ := Environment.values_eq_some.1 hv
    by_cases hcb : c = b
    · subst hcb
      rw [Environment.set_self] at hc
      cases hc
      rw [h.above c hb]
      refine .delta (Environment.values_eq_some.2 ⟨_, Environment.set_self .., ?_⟩)
        (hlc.substAll h.closed)
      simp [Entry.substAll, hd]
    · rw [Environment.set_of_ne _ _ hcb] at hc
      exact (Environment.le_set (h.new b hb) _).convertible
        (h.values c v (Environment.values_eq_some.2 ⟨d, hc, hd⟩) hlc)

/-- **Substitution.** -/
theorem Typed.substAll {Γ Δ : Environment} {t T : Term} (h : Typed Γ t T) {σ : Binding → Term}
    {m : Nat} (hm : Maps σ Γ Δ m) : Typed Δ (t.substAll σ) (T.substAll σ) := by
  induction h generalizing Δ m with
  | type => exact .type
  | boolType => exact .boolType
  | bool => exact .bool
  | var hb hty => exact hm.typed _ _ hb hty
  | @pi Γ name A B n _ _ ihA ihB =>
    refine .pi (max n m) (ihA hm) fun b hb => ?_
    have := ihB b (by omega) (hm.set (b := b) (by omega) ⟨A, none⟩)
    rwa [Term.substAll_openWith hm.closed B (hm.above b (by omega))] at this
  | @lam Γ name A B t n _ _ ihA iht =>
    refine .lam (max n m) (ihA hm) fun b hb => ?_
    have := iht b (by omega) (hm.set (b := b) (by omega) ⟨A, none⟩)
    rwa [Term.substAll_openWith hm.closed t (hm.above b (by omega)),
      Term.substAll_openWith hm.closed B (hm.above b (by omega))] at this
  | app _ _ ihf iha =>
    rw [Term.substAll_instantiate hm.closed]
    exact .app (ihf hm) (iha hm)
  | @letIn Γ name A B v t n _ _ _ ihA ihv iht =>
    rw [Term.substAll_instantiate hm.closed]
    refine .letIn (max n m) (ihA hm) (ihv hm) fun b hb => ?_
    have := iht b (by omega) (hm.set (b := b) (by omega) ⟨A, some v⟩)
    rwa [Term.substAll_openWith hm.closed t (hm.above b (by omega)),
      Term.substAll_openWith hm.closed B (hm.above b (by omega))] at this
  | conv _ _ hc iht ihB =>
    exact .conv (iht hm) (ihB hm) (hc.substAll hm.closed hm.above hm.values)

/-! ## Well-typed environments -/

/-- The type of the entry is a type, and its value has it. -/
structure Entry.WellTyped (Γ : Environment) (e : Entry) : Prop where
  ty : Typed Γ e.ty .type
  value : ∀ v, e.value = some v → Typed Γ v e.ty

/-- Every entry is typed by the environment itself, and finitely many variables are in scope. -/
structure Environment.WellTyped (Γ : Environment) : Prop where
  bounded : ∃ m : Nat, ∀ b : Binding, m ≤ b.id → Γ b = none
  entries : ∀ b e, Γ b = some e → e.WellTyped Γ

theorem Entry.WellTyped.mono {Γ Δ : Environment} {e : Entry} (h : e.WellTyped Γ)
    (hΓ : Γ.Le Δ) : e.WellTyped Δ :=
  ⟨h.ty.mono hΓ, fun v hv => (h.value v hv).mono hΓ⟩

theorem Entry.wellTyped_assume {Γ : Environment} {A : Term} (hA : Typed Γ A .type) :
    Entry.WellTyped Γ ⟨A, none⟩ :=
  ⟨hA, fun _ hv => by cases hv⟩

theorem Entry.wellTyped_define {Γ : Environment} {A v : Term} (hA : Typed Γ A .type)
    (hv : Typed Γ v A) : Entry.WellTyped Γ ⟨A, some v⟩ :=
  ⟨hA, fun _ hw => by cases hw; exact hv⟩

namespace Environment.WellTyped

variable {Γ : Environment}

theorem empty : Environment.empty.WellTyped :=
  ⟨⟨0, fun _ _ => rfl⟩, fun _ _ h => by cases h⟩

theorem set (hΓ : Γ.WellTyped) {b : Binding} (hb : Γ b = none) {e : Entry} (he : e.WellTyped Γ) :
    (Γ.set b e).WellTyped := by
  have hle := le_set hb e
  obtain ⟨m, hm⟩ := hΓ.bounded
  refine ⟨⟨max m (b.id + 1), fun c hc => ?_⟩, fun c d hc => ?_⟩
  · rw [set_of_ne _ _ fun e => by subst e; omega]
    exact hm c (by omega)
  · by_cases hcb : c = b
    · subst hcb
      rw [set_self] at hc
      cases hc
      exact he.mono hle
    · rw [set_of_ne _ _ hcb] at hc
      exact (hΓ.entries c d hc).mono hle

theorem below (hΓ : Γ.WellTyped) : ∃ m, Γ.values.Below m := by
  obtain ⟨m, hm⟩ := hΓ.bounded
  have hlt : ∀ b, Γ.Binds b → b.id < m := by
    rintro b ⟨e, he⟩
    by_cases h : b.id < m
    · exact h
    · rw [hm b (by omega)] at he
      cases he
  refine ⟨m, fun b v hv => ?_⟩
  obtain ⟨e, he, hv⟩ := values_eq_some.1 hv
  exact ⟨hlt b ⟨e, he⟩, ((hΓ.entries b e he).value v hv).vars_over.mono hlt⟩

/-- There is a variable that is new to the environment and to a term, as high as one likes. -/
theorem exists_new (hΓ : Γ.WellTyped) (t : Term) (n : Nat) :
    ∃ b : Binding, n ≤ b.id ∧ Γ b = none ∧ t.Over (· ≠ b) := by
  obtain ⟨m, hm⟩ := hΓ.bounded
  obtain ⟨b, hb, ht, -⟩ := t.exists_fresh t (max n m)
  exact ⟨b, by omega, hm b (by omega), ht⟩

end Environment.WellTyped

theorem Maps.only {Γ Δ : Environment} {b : Binding} {e : Entry} {a : Term} {m : Nat}
    (hΓ : Γ.WellTyped) (hb : Γ b = none) (he : e.WellTyped Γ) (hle : Γ.Le Δ)
    (hm : ∀ c : Binding, m ≤ c.id → Δ c = none)
    (ha : Typed Δ a e.ty) (hv : ∀ v, e.value = some v → Convertible Δ.values a v) :
    Maps (Term.only b a) (Γ.set b e) Δ (max m (b.id + 1)) where
  closed := Term.only_locallyClosed ha.locallyClosed.1
  above c hc := Term.only_of_ne a fun e => by subst e; omega
  new c hc := hm c (by omega)
  typed := by
    intro c d hc hlc
    by_cases hcb : c = b
    · subst hcb
      rw [Environment.set_self] at hc
      cases hc
      rwa [Term.only_self, Term.substAll_only_of_fresh (he.ty.over_ne hb)]
    · rw [Environment.set_of_ne _ _ hcb] at hc
      rw [Term.only_of_ne a hcb,
        Term.substAll_only_of_fresh ((hΓ.entries c d hc).ty.over_ne hb)]
      exact .var (hle c d hc) hlc
  values := by
    intro c v hval hlc
    obtain ⟨d, hc, hd⟩ := Environment.values_eq_some.1 hval
    by_cases hcb : c = b
    · subst hcb
      rw [Environment.set_self] at hc
      cases hc
      rw [Term.only_self, Term.substAll_only_of_fresh ((he.value v hd).over_ne hb)]
      exact hv v hd
    · rw [Environment.set_of_ne _ _ hcb] at hc
      rw [Term.only_of_ne a hcb,
        Term.substAll_only_of_fresh (((hΓ.entries c d hc).value v hd).over_ne hb)]
      exact .delta (Environment.values_eq_some.2 ⟨d, hle c d hc, hd⟩) hlc

namespace Typed

variable {Γ : Environment} {b c : Binding} {e : Entry} {t T a : Term}

theorem substOnly (h : Typed (Γ.set b e) t T) (hΓ : Γ.WellTyped) (hb : Γ b = none)
    (he : e.WellTyped Γ) (ha : Typed Γ a e.ty)
    (hv : ∀ v, e.value = some v → Convertible Γ.values a v) :
    Typed Γ (t.substAll (Term.only b a)) (T.substAll (Term.only b a)) := by
  obtain ⟨m, hm⟩ := hΓ.bounded
  exact h.substAll (.only hΓ hb he (fun _ _ h => h) hm ha hv)

theorem rename (h : Typed (Γ.set b e) t T) (hΓ : Γ.WellTyped) (hb : Γ b = none)
    (he : e.WellTyped Γ) (hc : Γ c = none) :
    Typed (Γ.set c e) ((t.close b).openWith c) ((T.close b).openWith c) := by
  have hlc := h.locallyClosed
  obtain ⟨m, hm⟩ := (hΓ.set hc he).bounded
  have hvar : Typed (Γ.set c e) (.free c) e.ty :=
    .var (Environment.set_self ..) he.ty.locallyClosed.1
  unfold Term.openWith
  rw [Term.instantiate_close hlc.1, Term.instantiate_close hlc.2]
  refine h.substAll (.only hΓ hb he (Environment.le_set hc e) hm hvar fun v hv => ?_)
  exact .delta (Environment.values_eq_some.2 ⟨e, Environment.set_self .., hv⟩)
    (he.value v hv).locallyClosed.1

/-- What is typed at all variables from some identity on is typed at every new one. -/
theorem open_fresh {n : Nat}
    (h : ∀ b : Binding, n ≤ b.id → Typed (Γ.set b e) (t.openWith b) (T.openWith b))
    (hΓ : Γ.WellTyped) (he : e.WellTyped Γ) (hc : Γ c = none) :
    Typed (Γ.set c e) (t.openWith c) (T.openWith c) := by
  obtain ⟨m, hm⟩ := hΓ.bounded
  obtain ⟨b, hb, htb, hTb⟩ := Term.exists_fresh t T (max n m)
  have := (h b (by omega)).rename hΓ (hm b (by omega)) he hc
  rwa [Term.close_openWith htb, Term.close_openWith hTb] at this

/-- What is typed at all variables from some identity on is typed at every term of their type. -/
theorem instantiate {n : Nat}
    (h : ∀ b : Binding, n ≤ b.id → Typed (Γ.set b e) (t.openWith b) (T.openWith b))
    (hΓ : Γ.WellTyped) (he : e.WellTyped Γ) (ha : Typed Γ a e.ty)
    (hv : ∀ v, e.value = some v → Convertible Γ.values a v) :
    Typed Γ (t.instantiate a) (T.instantiate a) := by
  obtain ⟨m, hm⟩ := hΓ.bounded
  obtain ⟨b, hb, htb, hTb⟩ := Term.exists_fresh t T (max n m)
  have := (h b (by omega)).substOnly hΓ (hm b (by omega)) he ha hv
  rwa [← Term.instantiate_eq_substAll htb ha.locallyClosed.1,
    ← Term.instantiate_eq_substAll hTb ha.locallyClosed.1] at this

/-- What is said about a variable may be replaced by something convertible. -/
theorem replace {e' : Entry} (h : Typed (Γ.set b e) t T) (hΓ : Γ.WellTyped) (hb : Γ b = none)
    (he : Typed Γ e.ty .type) (he' : e'.ty.LocallyClosed)
    (hty : Convertible Γ.values e.ty e'.ty)
    (hv : ∀ v, e.value = some v → ∃ v', e'.value = some v' ∧ Convertible Γ.values v v') :
    Typed (Γ.set b e') t T := by
  have hle : Γ.Le (Γ.set b e') := Environment.le_set hb _
  obtain ⟨m, hm⟩ := hΓ.bounded
  have hmaps : Maps .free (Γ.set b e) (Γ.set b e') (max m (b.id + 1)) := by
    refine ⟨Term.locallyClosed_free, fun _ _ => rfl, fun c hc => ?_, ?_, ?_⟩
    · have hcb : c ≠ b := fun e => by subst e; omega
      exact (Environment.set_of_ne _ _ hcb).trans (hm c (by omega))
    · intro c d hc hlc
      rw [Term.substAll_free]
      by_cases hcb : c = b
      · subst hcb
        cases (Environment.set_self Γ c _).symm.trans hc
        refine .conv (.var (Environment.set_self ..) he') (he.mono hle) ?_
        exact hle.convertible hty.symm
      · rw [Environment.set_of_ne _ _ hcb] at hc
        exact .var (hle c d hc) hlc
    · intro c w hw hlc
      rw [Term.substAll_free]
      obtain ⟨d, hc, hd⟩ := Environment.values_eq_some.1 hw
      by_cases hcb : c = b
      · subst hcb
        cases (Environment.set_self Γ c _).symm.trans hc
        obtain ⟨v', hv', hconv⟩ := hv w hd
        refine .trans (.delta ?_ hconv.locallyClosed.2) (hle.convertible hconv.symm)
        exact Environment.values_eq_some.2 ⟨e', Environment.set_self .., hv'⟩
      · rw [Environment.set_of_ne _ _ hcb] at hc
        exact .delta (Environment.values_eq_some.2 ⟨d, hle c d hc, hd⟩) hlc
  have := h.substAll hmaps
  rwa [Term.substAll_free, Term.substAll_free] at this

theorem redefine {A A' v v' : Term} (h : Typed (Γ.define b A v) t T) (hΓ : Γ.WellTyped)
    (hb : Γ b = none) (hA : Typed Γ A .type) (hA' : Typed Γ A' .type)
    (hAA' : Convertible Γ.values A A') (hvv' : Convertible Γ.values v v') :
    Typed (Γ.define b A' v') t T :=
  h.replace hΓ hb hA hA'.locallyClosed.1 hAA' fun w hw => by
    cases hw
    exact ⟨v', rfl, hvv'⟩

theorem reassume {A A' : Term} (h : Typed (Γ.assume b A) t T) (hΓ : Γ.WellTyped) (hb : Γ b = none)
    (hA : Typed Γ A .type) (hAA' : Convertible Γ.values A A') : Typed (Γ.assume b A') t T :=
  h.replace hΓ hb hA hAA'.locallyClosed.2 hAA' fun w hw => by cases hw

/-! ## Inversion -/

theorem var_inv (h : Typed Γ (.free b) T) :
    ∃ e, Γ b = some e ∧ Convertible Γ.values e.ty T := by
  generalize ht : Term.free b = t at h
  induction h with
  | var hb hty =>
    cases ht
    exact ⟨_, hb, .refl hty⟩
  | conv _ _ hc iht _ =>
    obtain ⟨e, he, hT⟩ := iht ht
    exact ⟨e, he, hT.trans hc⟩
  | _ => cases ht

theorem pi_inv {name : String} {A B : Term} (h : Typed Γ (.pi name A B) T) :
    Typed Γ A .type ∧
      ∃ n : Nat, ∀ b : Binding, n ≤ b.id → Typed (Γ.assume b A) (B.openWith b) .type := by
  generalize ht : Term.pi name A B = t at h
  induction h with
  | pi n hA hB =>
    cases ht
    exact ⟨hA, n, hB⟩
  | conv _ _ _ iht _ => exact iht ht
  | _ => cases ht

theorem lam_inv {u : Term} (h : Typed Γ (.lam u) T) :
    ∃ name A B, Typed Γ A .type ∧
      (∃ n : Nat, ∀ b : Binding, n ≤ b.id →
        Typed (Γ.assume b A) (u.openWith b) (B.openWith b)) ∧
      Convertible Γ.values (.pi name A B) T := by
  generalize ht : Term.lam u = t at h
  induction h with
  | @lam Γ name A B t n hA hu =>
    cases ht
    have hlc := (lam n hA hu : Typed Γ _ (.pi name A B)).locallyClosed
    exact ⟨name, A, B, hA, ⟨n, hu⟩, .refl hlc.2⟩
  | conv _ _ hc iht _ =>
    obtain ⟨name, A, B, hA, hu, hT⟩ := iht ht
    exact ⟨name, A, B, hA, hu, hT.trans hc⟩
  | _ => cases ht

theorem app_inv {f a : Term} (h : Typed Γ (.app f a) T) :
    ∃ name A B, Typed Γ f (.pi name A B) ∧ Typed Γ a A ∧
      Convertible Γ.values (B.instantiate a) T := by
  generalize ht : Term.app f a = t at h
  induction h with
  | @app Γ name A B f a hf ha =>
    cases ht
    exact ⟨name, A, B, hf, ha, .refl (app hf ha).locallyClosed.2⟩
  | conv _ _ hc iht _ =>
    obtain ⟨name, A, B, hf, ha, hT⟩ := iht ht
    exact ⟨name, A, B, hf, ha, hT.trans hc⟩
  | _ => cases ht

theorem letIn_inv {name : String} {A v u : Term} (h : Typed Γ (.letIn name A v u) T) :
    Typed Γ A .type ∧ Typed Γ v A ∧
      ∃ B : Term, (∃ n : Nat, ∀ b : Binding, n ≤ b.id →
        Typed (Γ.define b A v) (u.openWith b) (B.openWith b)) ∧
      Convertible Γ.values (B.instantiate v) T := by
  generalize ht : Term.letIn name A v u = t at h
  induction h with
  | @letIn Γ name A B v u n hA hv hu =>
    cases ht
    have hlc := (letIn n hA hv hu : Typed Γ (.letIn name A v u) _).locallyClosed
    exact ⟨hA, hv, B, ⟨n, hu⟩, .refl hlc.2⟩
  | conv _ _ hc iht _ =>
    obtain ⟨hA, hv, B, hu, hT⟩ := iht ht
    exact ⟨hA, hv, B, hu, hT.trans hc⟩
  | _ => cases ht

/-! ## Types of terms are types -/

/-- **Regularity.** What is the type of something is a type. -/
theorem regular (h : Typed Γ t T) (hΓ : Γ.WellTyped) : Typed Γ T .type := by
  induction h with
  | type | boolType | pi => exact .type
  | bool => exact .boolType
  | var hb _ => exact (hΓ.entries _ _ hb).ty
  | @lam Γ name A B t n hA _ _ iht =>
    obtain ⟨m, hm⟩ := hΓ.bounded
    refine .pi (max n m) hA fun b hb => iht b (by omega) ?_
    exact hΓ.set (hm b (by omega)) (Entry.wellTyped_assume hA)
  | @app Γ name A B f a _ ha ihf _ =>
    obtain ⟨hA, n, hB⟩ := (ihf hΓ).pi_inv
    exact instantiate (T := .type) hB hΓ (Entry.wellTyped_assume hA) ha fun v hv => by cases hv
  | @letIn Γ name A B v t n hA hv _ _ _ iht =>
    obtain ⟨m, hm⟩ := hΓ.bounded
    have he := Entry.wellTyped_define hA hv
    have hB : ∀ b : Binding, max n m ≤ b.id → Typed (Γ.define b A v) (B.openWith b) .type :=
      fun b hb => iht b (by omega) (hΓ.set (hm b (by omega)) he)
    refine instantiate (T := .type) hB hΓ he hv fun w hw => ?_
    cases hw
    exact .refl hv.locallyClosed.1
  | conv _ hB _ _ _ => exact hB

/-! ## Lets that may be dropped -/

theorem makeLet_unfolded {A v : Term} (hΓ : Γ.WellTyped) (hb : Γ b = none) (hA : Typed Γ A .type)
    (hv : Typed Γ v A) (h : Typed (Γ.define b A v) t T) :
    Typed Γ (.makeLet b A v t) (T.substAll (Term.only b v)) := by
  have he := Entry.wellTyped_define hA hv
  have hlc := h.locallyClosed
  rcases Term.makeLet_cases b A v t with ⟨hfresh, heq⟩ | heq
  · have := h.substOnly hΓ hb he hv fun w hw => by cases hw; exact .refl hv.locallyClosed.1
    rw [Term.substAll_only_of_fresh hfresh] at this
    rwa [heq]
  · obtain ⟨m, hm⟩ := hΓ.bounded
    rw [heq, ← Term.instantiate_close hlc.2]
    exact .letIn m hA hv fun c hc => h.rename hΓ hb he (hm c hc)

/-- **Lets around a term and its type**, each only if it is used there. -/
theorem makeLet {A v : Term} (hΓ : Γ.WellTyped) (hb : Γ b = none) (hA : Typed Γ A .type)
    (hv : Typed Γ v A) (h : Typed (Γ.define b A v) t T) :
    Typed Γ (.makeLet b A v t) (.makeLet b A v T) := by
  have hT := h.regular (hΓ.set hb (Entry.wellTyped_define hA hv))
  refine .conv (makeLet_unfolded hΓ hb hA hv h) (makeLet_unfolded hΓ hb hA hv hT) ?_
  exact (Convertible.makeLet hA.locallyClosed.1 hv.locallyClosed.1 h.locallyClosed.2).symm

end Typed

end DepLang
