import DepLang.Proofs.Transparency

/-!
# Normalising twice is normalising once

A normal form that is normalised again, in the store that the first run left, comes back as it is,
and the store keeps its definitions. The second run opens the `let`s of the normal form under new
identities, so only the supply moves on.

The argument has two halves. What a run gives is inert (`Normalizes.inert`): the variables that a
normaliser comes across have no definition, neither in the store before the run nor in the one after
it, which defines the same variables. And an inert term comes back as it is (`Term.Inert.runs`).

The second run takes no more fuel than the first. A normaliser looks into a normal form no deeper
than it went to find it (`whnf_reach`); for a `let` this needs the same of the values that the run
has remembered, since the value of the `let` is read back from the store.
-/
namespace DepLang

/-- What a run gives is inert for the store that it leaves. -/
theorem Normalizes.inert {t u : Term} {s s' : Store} (h : Normalizes t s u s') (hs : s.WellScoped)
    (hlc : t.LocallyClosed) (ht : t.Below s.supply.next) :
    u.Inert fun b => (s'.definitions.lookup b).isSome = true := by
  obtain ⟨u', hu', halike⟩ := h.evaluates hs.memoized_minted (.refl_same ht) hlc
  obtain rfl := halike.eq_of_same
  refine hu'.inert.mono halike.over_left fun b _ hb => ?_
  obtain ⟨d', hd'⟩ := Option.isSome_iff_exists.1 hb
  obtain ⟨d, hd, -⟩ := h.ages.lookup_eq_some hd'
  simp [Store.values, hd]

/-! ## How deep a normaliser looks -/

namespace Store

/-- Where the later store has another definition, its value reaches at most `n` deep. -/
def Deepens (n : Nat) (s s' : Store) : Prop :=
  ∀ b d, s'.definitions.lookup b = some d → s.definitions.lookup b = some d ∨ d.value.reach ≤ n

namespace Deepens

variable {n : Nat} {s s₁ s₂ : Store}

theorem refl (s : Store) : Deepens n s s := fun _ _ => .inl

theorem trans (h₁ : Deepens n s s₁) (h₂ : Deepens n s₁ s₂) : Deepens n s s₂ := fun b d hd =>
  (h₂ b d hd).elim (h₁ b d) .inr

theorem succ (h : Deepens n s s₁) : Deepens (n + 1) s s₁ := fun b d hd =>
  (h b d hd).imp_right Nat.le_succ_of_le

theorem remember (h : Deepens n s s₁) {value : Term} (hvalue : value.reach ≤ n) (b : Binding) :
    Deepens n s (s₁.remember b value) := by
  intro c d hd
  by_cases hcb : c = b
  · subst hcb
    rw [lookup_remember_self] at hd
    obtain ⟨_, -, rfl⟩ := Option.map_eq_some_iff.1 hd
    exact .inr hvalue
  · rw [lookup_remember_of_ne _ _ hcb] at hd
    exact h c d hd

end Deepens

end Store

/-- A run with this fuel gives a normal form that a normaliser looks into no deeper than that, and
remembers only such values. -/
theorem whnf_reach {fuel : Nat} {t u : Term} {s s' : Store} (h : whnf fuel t s = some (u, s')) :
    u.reach ≤ fuel ∧ Store.Deepens fuel s s' := by
  induction fuel generalizing t u s s' with
  | zero => exact absurd h Reduction.not_exhausted
  | succ fuel ih =>
    cases normalizesBy_of_whnf h with
    | stable hfree happ hlet =>
      refine ⟨?_, .refl s⟩
      cases t with
      | app f a => exact absurd rfl (happ f a)
      | letIn => cases hlet
      | _ => exact Nat.le_add_left 1 fuel
    | undefined => exact ⟨Nat.le_add_left 1 fuel, .refl s⟩
    | defined _ hv =>
      obtain ⟨hu, hs⟩ := ih hv
      exact ⟨Nat.le_succ_of_le hu, (hs.remember hu _).succ⟩
    | apply hf ha hu =>
      obtain ⟨hu, hs₃⟩ := ih hu
      exact ⟨Nat.le_succ_of_le hu, (((ih hf).2.trans (ih ha).2).trans hs₃).succ⟩
    | stuck hf ha =>
      obtain ⟨hf, hs₁⟩ := ih hf
      obtain ⟨ha, hs₂⟩ := ih ha
      exact ⟨Nat.succ_le_succ (Nat.max_le.2 ⟨hf, ha⟩), (hs₁.trans hs₂).succ⟩
    | @letIn name b _ ty' _ v' _ body' _ s₁ s₂ s₃ hty hv hb hbody =>
      obtain ⟨hty, hs₁⟩ := ih hty
      obtain ⟨hv, hs₂⟩ := ih hv
      obtain ⟨hbody, hs₃⟩ := ih hbody
      have hvalue : ((s₃.definitions.lookup b).elim v' Definition.value).reach ≤ fuel := by
        cases hd : s₃.definitions.lookup b with
        | none => exact hv
        | some d =>
          rcases hs₃ b d hd with hold | hnew
          · rw [hb, Store.lookup_let_self] at hold
            cases hold
            exact hv
          · exact hnew
      exact ⟨Term.reach_makeLet_le hty hvalue hbody, (hs₁.trans hs₂).succ⟩

/-- **Normalisation is idempotent.** Take a term without dangling indices, and definitions whose
values have none; cyclic ones are allowed, and so are terms without a type. If the term has a normal
form, then that normal form is its own: normalising it with the definitions that the first run left,
and with as much fuel, gives it back and leaves the definitions as they are. -/
theorem whnf_idempotent {fuel : Nat} {t u : Term} {s s' : Store} (hs : s.WellScoped)
    (hlc : t.LocallyClosed) (ht : t.Below s.supply.next) (h : whnf fuel t s = some (u, s')) :
    ∃ supply, ∀ fuel', fuel ≤ fuel' → whnf fuel' u s' = some (u, { s' with supply }) := by
  have hn := normalizes_of_whnf h
  have hminted := hs.minted_of_normalizes hn ⟨hlc, ht⟩
  obtain ⟨m, -, hruns⟩ := (hn.inert hs hlc ht).runs (fun _ => id) hminted.vars (whnf_reach h).1
  exact ⟨⟨m⟩, hruns⟩

/-- A `let` whose variable stays under a function. The first run drops the `let` inside it, and
remembers what `f` is. The definition of `loop` mentions `loop`. -/
theorem whnf_idempotent_let :
    let f : Binding := ⟨0, "f"⟩
    let loop : Binding := ⟨1, "loop"⟩
    let y : Binding := ⟨2, "y"⟩
    let arrow : Term := .pi "x" .boolType .boolType
    let again : Term := .lam (.app (.free loop) (.bound 0))
    let store : Term → Nat → Store := fun value next => {
      definitions := { inner := [(f, ⟨value, arrow⟩), (loop, ⟨again, arrow⟩)] }
      supply := ⟨next⟩ }
    let t : Term := .letIn "x" .boolType (.app (.free f) (.bool true))
      (.app (.free y) (.letIn "z" .boolType (.bound 0) (.lam (.app (.free loop) (.bound 2)))))
    let u : Term := .letIn "x" .boolType (.bool true)
      (.app (.free y) (.lam (.app (.free loop) (.bound 1))))
    let twice : Term := .app (.lam (.bound 0)) (.lam (.bound 0))
    let s := store twice 3
    let s' := store (.lam (.bound 0)) 5
    s.WellScoped ∧ t.LocallyClosed ∧ t.Below 3 ∧ whnf 5 t s = some (u, s') ∧
      ∃ supply, ∀ fuel, 5 ≤ fuel → whnf fuel u s' = some (u, { s' with supply }) := by
  intro f loop y arrow again store t u twice s s'
  have hentries : ∀ b d, s.definitions.lookup b = some d →
      b.id < 3 ∧ d.value.LocallyClosed ∧ d.value.Below 3 := by
    intro b d hd
    have hmem := Scope.mem_bindings.2 hd
    have hbindings : s.definitions.bindings =
        [(f, ⟨twice, arrow⟩), (loop, ⟨again, arrow⟩)] := rfl
    rw [hbindings] at hmem
    simp only [List.mem_cons, Prod.mk.injEq, List.not_mem_nil, or_false] at hmem
    rcases hmem with ⟨rfl, rfl⟩ | ⟨rfl, rfl⟩
    · simp [f, twice, Term.LocallyClosed, Term.ClosedAt, Term.Below, Term.Over]
    · simp [loop, again, Term.LocallyClosed, Term.ClosedAt, Term.Below, Term.Over]
  have hs : s.WellScoped := ⟨fun b d hd => (hentries b d hd).1, fun b d hd => (hentries b d hd).2.1,
    fun b d hd => (hentries b d hd).2.2⟩
  have hlc : t.LocallyClosed := by simp [t, Term.LocallyClosed, Term.ClosedAt]
  have ht : t.Below 3 := by simp [t, f, loop, y, Term.Below, Term.Over]
  have hrun : whnf 5 t s = some (u, s') := rfl
  exact ⟨hs, hlc, ht, hrun, whnf_idempotent hs hlc ht hrun⟩

end DepLang
