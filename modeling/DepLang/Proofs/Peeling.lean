import DepLang.Proofs.Idempotence
import DepLang.Proofs.Preservation

/-!
# Peeling and putting back is normalising

`peelLets` normalises a term, moves the outermost `let` of the normal form into the store,
normalises the opened body, and goes on like this until no `let` is left. `Telescope.wrap` puts the
`let`s back, and leaves out those that are not used.

Both give the same as `whnf` does on its own. A normal form is inert, and so is its body once the
variable of the `let` is defined: only the first normalisation has anything to do
(`Normalizes.eq_of_inert`). The values that went into the store are normal, so nothing is remembered
on the way, and every `let` of a normal form is used, so all of them are put back
(`TakesApart.peel`).
-/
namespace DepLang

/-- Normalising what is inert gives it back and leaves the definitions alone. -/
theorem Normalizes.eq_of_inert {t u : Term} {s s' : Store} (h : Normalizes t s u s')
    (ht : t.Inert fun b => (s.definitions.lookup b).isSome = true) (hb : t.Below s.supply.next) :
    u = t ∧ ∃ m, s.supply.next ≤ m ∧ s' = { s with supply := ⟨m⟩ } := by
  obtain ⟨m, hm, hself⟩ := ht.normalizes hb
  obtain ⟨hu, hs'⟩ := hself.unique h
  exact ⟨hu, m, hm, hs'⟩

/-- What is left is not a `let`, putting the `let`s back gives the term, and they stand after what
was defined before, the outermost first. -/
structure TakesApart (t : Term) (s : Store) (peeled : Telescope) (u : Term) (s' : Store) :
    Prop where
  isLet : u.isLet = false
  wrap : peeled.wrap u = t
  definitions : s'.definitions = { s.definitions with inner := s.definitions.inner ++ peeled }

section Inert

variable {s s' : Store} {name : String} {A v body u : Term} {peeled : Telescope}
  (ht : (Term.letIn name A v body).Inert fun b => (s.definitions.lookup b).isSome = true)
  (hb : (Term.letIn name A v body).Below s.supply.next)
include ht hb

/-- The body of a `let` that is inert is inert once the variable of the `let` is defined. -/
theorem Term.Inert.enter :
    ((body.openWith (s.supply.mint name).1).Inert fun c =>
      ((s.enter name ⟨v, A⟩).definitions.lookup c).isSome = true) ∧
    (body.openWith (s.supply.mint name).1).Below (s.enter name ⟨v, A⟩).supply.next := by
  have hfresh : body.Over (· ≠ (s.supply.mint name).1) := Term.Below.ne hb.2.2 (Nat.le_refl _)
  have hopen : (body.openWith (s.supply.mint name).1).Below (s.enter name ⟨v, A⟩).supply.next :=
    Term.Over.openWith (Term.Below.mono hb.2.2 (Nat.le_succ _)) (Nat.lt_succ_self _)
  refine ⟨((ht.2.2.1.define hfresh).replaceAt _ 0).mono hopen fun c _ hc => ?_, hopen⟩
  by_cases hcb : c = (s.supply.mint name).1
  · exact .inl hcb
  · rw [Store.lookup_enter_of_ne s hcb] at hc
    exact .inr hc

theorem TakesApart.peel (h : TakesApart (body.openWith (s.supply.mint name).1)
    (s.enter name ⟨v, A⟩) peeled u s') :
    TakesApart (.letIn name A v body) s (((s.supply.mint name).1, ⟨v, A⟩) :: peeled) u s' where
  isLet := h.isLet
  wrap := by
    have hfresh : body.Over (· ≠ (s.supply.mint name).1) := Term.Below.ne hb.2.2 (Nat.le_refl _)
    calc Telescope.wrap (((s.supply.mint name).1, ⟨v, A⟩) :: peeled) u
      _ = .makeLet (s.supply.mint name).1 A v (peeled.wrap u) := rfl
      _ = .makeLet (s.supply.mint name).1 A v (body.openWith _) := congrArg _ h.wrap
      _ = .letIn name A v body := Term.makeLet_openWith hfresh ht.2.2.2
  definitions := by
    rw [h.definitions]
    exact congrArg (Scope.mk · _) (List.append_assoc ..)

end Inert

/-- **Peeling what is inert takes it apart.** -/
theorem Peels.takesApart {t u : Term} {peeled : Telescope} {s s' : Store}
    (h : Peels t s peeled u s') (ht : t.Inert fun b => (s.definitions.lookup b).isSome = true)
    (hb : t.Below s.supply.next) :
    TakesApart t s peeled u s' := by
  induction h with
  | head hn hlet =>
    obtain ⟨rfl, m, -, rfl⟩ := hn.eq_of_inert ht hb
    exact ⟨hlet, rfl, by rw [List.append_nil]⟩
  | @peel t A v body u name b peeled s s₁ s₂ hn hmint _ ih =>
    subst hmint
    -- Normalising again has used up identities, and nothing else has changed.
    obtain ⟨rfl, m, hm, rfl⟩ := hn.eq_of_inert ht hb
    have hb' : (Term.letIn name A v body).Below m := Term.Below.mono hb hm
    obtain ⟨hinert, hopen⟩ := Term.Inert.enter (s := { s with supply := ⟨m⟩ }) ht hb'
    obtain ⟨hlet, hwrap, hdefinitions⟩ :=
      TakesApart.peel (s := { s with supply := ⟨m⟩ }) ht hb' (ih hinert hopen)
    exact ⟨hlet, hwrap, hdefinitions⟩

/-- **Peeling and putting back is normalising.** Take a term without dangling indices, and
definitions whose values have none; cyclic ones are allowed, and so are terms without a type. If the
term can be peeled, what is left is not a `let`. The term has a normal form, which is what putting
the `let`s back gives, and peeling leaves the definitions that normalising leaves, with the `let`s
after them, the outermost first. -/
theorem wrap_peelLets_eq_whnf {fuel : Nat} {t u : Term} {peeled : Telescope} {s s' : Store}
    (hs : s.WellScoped) (hlc : t.LocallyClosed) (ht : t.Below s.supply.next)
    (h : peelLets fuel t s = some ((peeled, u), s')) :
    u.isLet = false ∧ ∃ s₁,
      (∃ N, ∀ fuel, N ≤ fuel → whnf fuel t s = some (peeled.wrap u, s₁)) ∧
      s'.definitions = { s₁.definitions with inner := s₁.definitions.inner ++ peeled } := by
  cases peels_of_peelLets h with
  | head hn hlet => exact ⟨hlet, s', hn.runs, by rw [List.append_nil]⟩
  | peel hn hmint hrest =>
    subst hmint
    have hinert := hn.inert hs hlc ht
    have hbelow := (hs.minted_of_normalizes hn ⟨hlc, ht⟩).vars
    obtain ⟨hinert', hbelow'⟩ := hinert.enter hbelow
    have hapart := (hrest.takesApart hinert' hbelow').peel hinert hbelow
    exact ⟨hapart.isLet, _, hapart.wrap ▸ hn.runs, hapart.definitions⟩

/-- Two `let`s that functions use are peeled off, after `f` has been unfolded for the value of the
first. They come after `f` and `loop`, and putting them back gives the normal form. -/
theorem wrap_peelLets_eq_whnf_two :
    let s := loopingStore selfApplied 3
    let t : Term := .letIn "x" .boolType (.app (.free ⟨0, "f"⟩) (.bool true))
      (.letIn "z" .boolType (.bound 0)
        (.app (.app (.free ⟨2, "y"⟩) (.lam (.bound 2))) (.lam (.bound 1))))
    let peeled : Telescope :=
      [(⟨5, "x"⟩, ⟨.bool true, .boolType⟩), (⟨7, "z"⟩, ⟨.bool true, .boolType⟩)]
    let u : Term := .app (.app (.free ⟨2, "y"⟩) (.lam (.free ⟨5, "x"⟩))) (.lam (.free ⟨7, "z"⟩))
    let normal : Term := .letIn "x" .boolType (.bool true) (.letIn "z" .boolType (.bool true)
      (.app (.app (.free ⟨2, "y"⟩) (.lam (.bound 2))) (.lam (.bound 1))))
    s.WellScoped ∧ t.LocallyClosed ∧ t.Below 3 ∧
      ∃ s', peelLets 6 t s = some ((peeled, u), s') ∧ u.isLet = false ∧
        ∃ s₁, (∃ N, ∀ fuel, N ≤ fuel → whnf fuel t s = some (normal, s₁)) ∧
          s'.definitions = { s₁.definitions with inner := s₁.definitions.inner ++ peeled } := by
  intro s t peeled u normal
  have hlc : t.LocallyClosed := by simp [t, Term.LocallyClosed, Term.ClosedAt]
  have ht : t.Below 3 := by simp [t, Term.Below, Term.Over]
  have hpeeled : (peelLets 6 t s).map Prod.fst = some (peeled, u) := by decide +kernel
  obtain ⟨⟨_, s'⟩, hrun, rfl⟩ := Option.map_eq_some_iff.1 hpeeled
  have hresult := wrap_peelLets_eq_whnf loopingStore_wellScoped hlc ht hrun
  rw [show peeled.wrap u = normal by decide] at hresult
  exact ⟨loopingStore_wellScoped, hlc, ht, s', hrun, hresult⟩

end DepLang
