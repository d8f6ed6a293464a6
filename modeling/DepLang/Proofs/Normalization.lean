import DepLang.Proofs.Reduces
import DepLang.Proofs.Runs
import DepLang.Proofs.Scopes

/-!
# What normalisation does

`Normalizes t s u s'` is `whnf` as a relation without fuel: from the store `s`, the term `t`
normalises to `u` and leaves the store `s'`. `NormalizesBy` has one rule for each thing that `whnf`
can do, with the recursive calls left open. Where the fuel matters they are runs with less of it;
where it does not, `Normalizes.layer` and `Normalizes.induction` make the rules those of a relation
defined by induction. `Peels` does the same for `peelLets`.

A store holds more than the definitions a term depends on: normalising the type of something may
define variables for the `let`s of that type. `Tracks S E s` therefore speaks of a set `S` of
variables only. Each of them has in `s` a reduct of the value that `E` gives it, or no value if `E`
gives none. What stands in the store outside of `S` may be anything.

* `Normalizes.tracks`: normalising any term at all keeps what the store has of `S`.
* `Normalizes.reduces`: a term over `S` reduces to its normal form.
* `Peels.keeps`: peeling any term at all does so too, since the variables it defines are new.
-/
namespace DepLang

open Reduction

/-- Remembers a value for a variable that is defined. -/
def Store.remember (s : Store) (b : Binding) (value : Term) : Store :=
  match s.definitions.override b value with
  | .ok (_, definitions) => { s with definitions }
  | .error _ => s

/-- Defines the variable of a `let` around a term, under a new binding. -/
def Store.enter (s : Store) (name : String) (d : Definition) : Store where
  definitions := s.definitions.bind (s.supply.mint name).1 d
  supply := (s.supply.mint name).2

/-- A scope inside that of the store. -/
def Store.derive (s : Store) : Store := { s with definitions := s.definitions.derive }

theorem memoize_eq_some {b : Binding} {value : Term} {s s' : Store} {u : Unit} :
    memoize b value s = some (u, s') ↔ s' = s.remember b value := by
  unfold memoize Store.remember
  cases s.definitions.override b value with
  | error e => simp [eq_comm]
  | ok r => simp [eq_comm]

/-- One layer of `whnf`: what it answers, given the answers of its recursive calls. -/
inductive NormalizesBy (call : Term → Store → Term → Store → Prop) :
    Term → Store → Term → Store → Prop where
  | stable {t : Term} {s : Store} : (∀ b, t ≠ .free b) → (∀ f a, t ≠ .app f a) →
      t.isLet = false → NormalizesBy call t s t s
  | undefined {b : Binding} {s : Store} : s.definitions.lookup b = none →
      NormalizesBy call (.free b) s (.free b) s
  | defined {b : Binding} {d : Definition} {v : Term} {s s₁ : Store} :
      s.definitions.lookup b = some d → call d.value s v s₁ →
      NormalizesBy call (.free b) s v (s₁.remember b v)
  | apply {f a a' body t : Term} {s s₁ s₂ s₃ : Store} : call f s (.lam body) s₁ →
      call a s₁ a' s₂ → call (body.instantiate a') s₂ t s₃ → NormalizesBy call (.app f a) s t s₃
  | stuck {f f' a a' : Term} {s s₁ s₂ : Store} : call f s f' s₁ → call a s₁ a' s₂ →
      (∀ body, f' ≠ .lam body) → NormalizesBy call (.app f a) s (.app f' a') s₂
  | letIn {name : String} {b : Binding} {ty ty' v v' body body' : Term} {s s₁ s₂ s₃ : Store} :
      call ty s ty' s₁ → call v s₁ v' s₂ → b = (s₂.supply.mint name).1 →
      call (body.openWith b) (s₂.derive.enter name ⟨v', ty'⟩) body' s₃ →
      NormalizesBy call (.letIn name ty v body) s
        (.makeLet b ty' ((s₃.definitions.lookup b).elim v' Definition.value) body')
        { s₃ with definitions := s₂.definitions }

namespace NormalizesBy

variable {call call' : Term → Store → Term → Store → Prop} {t u : Term} {s s' : Store}

theorem mono (h : NormalizesBy call t s u s')
    (hcall : ∀ t s u s', call t s u s' → call' t s u s') : NormalizesBy call' t s u s' := by
  cases h with
  | stable hfree happ hlet => exact .stable hfree happ hlet
  | undefined hb => exact .undefined hb
  | defined hd hv => exact .defined hd (hcall _ _ _ _ hv)
  | apply hf ha ht => exact .apply (hcall _ _ _ _ hf) (hcall _ _ _ _ ha) (hcall _ _ _ _ ht)
  | stuck hf ha hne => exact .stuck (hcall _ _ _ _ hf) (hcall _ _ _ _ ha) hne
  | letIn hty hv hb hbody =>
    exact .letIn (hcall _ _ _ _ hty) (hcall _ _ _ _ hv) hb (hcall _ _ _ _ hbody)

end NormalizesBy

/-- A run with this fuel ends with the term and the store. -/
def RunsIn (fuel : Nat) (t : Term) (s : Store) (u : Term) (s' : Store) : Prop :=
  whnf fuel t s = some (u, s')

/-- A run is a layer over runs with less fuel. -/
theorem normalizesBy_of_whnf {fuel : Nat} {t u : Term} {s s' : Store}
    (h : whnf (fuel + 1) t s = some (u, s')) : NormalizesBy (RunsIn fuel) t s u s' := by
  cases t with
  | bound | lam | pi | bool | boolType | type =>
    obtain ⟨rfl, rfl⟩ := pure_eq_some.1 h
    exact .stable (by simp) (by simp) rfl
  | free b =>
    rw [whnf] at h
    obtain ⟨d, s₁, hd, h⟩ := bind_eq_some.1 h
    obtain ⟨rfl, rfl⟩ := definition?_eq_some.1 hd
    cases hd : s₁.definitions.lookup b with
    | none =>
      rw [hd] at h
      obtain ⟨rfl, rfl⟩ := pure_eq_some.1 h
      exact .undefined hd
    | some d =>
      rw [hd] at h
      obtain ⟨v, s₂, hv, h⟩ := bind_eq_some.1 h
      obtain ⟨_, s₃, hm, h⟩ := bind_eq_some.1 h
      obtain ⟨rfl, rfl⟩ := pure_eq_some.1 h
      rw [memoize_eq_some.1 hm]
      exact .defined hd hv
  | app f a =>
    rw [whnf] at h
    obtain ⟨f', s₁, hf, h⟩ := bind_eq_some.1 h
    obtain ⟨a', s₂, ha, h⟩ := bind_eq_some.1 h
    split at h
    · exact .apply hf ha h
    · rename_i hne
      obtain ⟨rfl, rfl⟩ := pure_eq_some.1 h
      exact .stuck hf ha hne
  | letIn name ty v body =>
    rw [whnf] at h
    obtain ⟨ty', s₁, hty, h⟩ := bind_eq_some.1 h
    obtain ⟨v', s₂, hv, h⟩ := bind_eq_some.1 h
    obtain ⟨b, s₃, hb, h⟩ := bind_eq_some.1 h
    obtain ⟨rfl, rfl⟩ := mint_eq_some.1 hb
    obtain ⟨s₄, hl, rfl⟩ := locally_eq_some.1 h
    obtain ⟨_, s₅, hdef, hl⟩ := bind_eq_some.1 hl
    obtain ⟨body', s₆, hbody, hl⟩ := bind_eq_some.1 hl
    obtain ⟨d, s₇, hd, hl⟩ := bind_eq_some.1 hl
    obtain ⟨rfl, rfl⟩ := definition?_eq_some.1 hd
    obtain ⟨rfl, rfl⟩ := pure_eq_some.1 hl
    rw [defineFresh_eq_some.1 hdef] at hbody
    exact @NormalizesBy.letIn (RunsIn fuel) name _ _ _ _ _ _ _ s s₁ s₂ _ hty hv rfl hbody

/-- A layer over runs is a run with more fuel. -/
theorem whnf_of_normalizesBy {fuel : Nat} {t u : Term} {s s' : Store}
    (h : NormalizesBy (RunsIn fuel) t s u s') : whnf (fuel + 1) t s = some (u, s') := by
  cases h with
  | stable hfree happ hlet =>
    cases t with
    | free b => exact absurd rfl (hfree b)
    | app f a => exact absurd rfl (happ f a)
    | letIn => cases hlet
    | bound | lam | pi | bool | boolType | type => rfl
  | undefined hb =>
    rw [whnf]
    refine bind_eq_some.2 ⟨_, _, definition?_eq_some.2 ⟨rfl, rfl⟩, ?_⟩
    rw [hb]
    rfl
  | defined hd hv =>
    rw [whnf]
    refine bind_eq_some.2 ⟨_, _, definition?_eq_some.2 ⟨rfl, rfl⟩, ?_⟩
    rw [hd]
    exact bind_eq_some.2 ⟨_, _, hv, bind_eq_some.2 ⟨(), _, memoize_eq_some.2 rfl, rfl⟩⟩
  | apply hf ha ht =>
    rw [whnf]
    exact bind_eq_some.2 ⟨_, _, hf, bind_eq_some.2 ⟨_, _, ha, ht⟩⟩
  | stuck hf ha hne =>
    rw [whnf]
    refine bind_eq_some.2 ⟨_, _, hf, bind_eq_some.2 ⟨_, _, ha, ?_⟩⟩
    split
    · exact absurd rfl (hne _)
    · rfl
  | @letIn _ _ _ _ _ _ _ _ _ _ _ s₃ hty hv hb hbody =>
    subst hb
    rw [whnf]
    refine bind_eq_some.2 ⟨_, _, hty, bind_eq_some.2 ⟨_, _, hv,
      bind_eq_some.2 ⟨_, _, mint_eq_some.2 ⟨rfl, rfl⟩, locally_eq_some.2 ⟨s₃, ?_, rfl⟩⟩⟩⟩
    exact bind_eq_some.2 ⟨(), _, defineFresh_eq_some.2 rfl, bind_eq_some.2 ⟨_, _,
      hbody, bind_eq_some.2 ⟨_, _, definition?_eq_some.2 ⟨rfl, rfl⟩, rfl⟩⟩⟩

theorem RunsIn.mono {fuel fuel' : Nat} {t u : Term} {s s' : Store} (h : RunsIn fuel t s u s')
    (hle : fuel ≤ fuel') : RunsIn fuel' t s u s' := by
  induction fuel generalizing t u s s' fuel' with
  | zero => exact absurd h not_exhausted
  | succ fuel ih =>
    obtain ⟨fuel', rfl⟩ : ∃ k, fuel' = k + 1 := ⟨fuel' - 1, by omega⟩
    exact whnf_of_normalizesBy ((normalizesBy_of_whnf h).mono fun _ _ _ _ h => ih h (by omega))

/-- `whnf` as a relation: there is a run that ends. -/
def Normalizes (t : Term) (s : Store) (u : Term) (s' : Store) : Prop :=
  ∃ fuel, RunsIn fuel t s u s'

theorem normalizes_of_whnf {fuel : Nat} {t u : Term} {s s' : Store}
    (h : whnf fuel t s = some (u, s')) : Normalizes t s u s' :=
  ⟨fuel, h⟩

namespace Normalizes

variable {t u : Term} {s s' : Store}

/-- **Rules.** The answer of `whnf` follows from those of its recursive calls. -/
theorem layer (h : NormalizesBy Normalizes t s u s') : Normalizes t s u s' := by
  cases h with
  | stable hfree happ hlet => exact ⟨1, whnf_of_normalizesBy (.stable hfree happ hlet)⟩
  | undefined hb => exact ⟨1, whnf_of_normalizesBy (.undefined hb)⟩
  | defined hd hv =>
    obtain ⟨fuel, hv⟩ := hv
    exact ⟨fuel + 1, whnf_of_normalizesBy (.defined hd hv)⟩
  | apply hf ha ht =>
    obtain ⟨k, hf⟩ := hf
    obtain ⟨m, ha⟩ := ha
    obtain ⟨n, ht⟩ := ht
    exact ⟨k + m + n + 1, whnf_of_normalizesBy
      (.apply (hf.mono (by omega)) (ha.mono (by omega)) (ht.mono (by omega)))⟩
  | stuck hf ha hne =>
    obtain ⟨k, hf⟩ := hf
    obtain ⟨m, ha⟩ := ha
    exact ⟨k + m + 1, whnf_of_normalizesBy (.stuck (hf.mono (by omega)) (ha.mono (by omega)) hne)⟩
  | letIn hty hv hb hbody =>
    obtain ⟨k, hty⟩ := hty
    obtain ⟨m, hv⟩ := hv
    obtain ⟨n, hbody⟩ := hbody
    exact ⟨k + m + n + 1, whnf_of_normalizesBy
      (.letIn (hty.mono (by omega)) (hv.mono (by omega)) hb (hbody.mono (by omega)))⟩

/-- A recursive call in a proof by induction. -/
structure Call (motive : ∀ t s u s', Normalizes t s u s' → Prop) (t : Term) (s : Store) (u : Term)
    (s' : Store) : Prop where
  run : Normalizes t s u s'
  ih : motive t s u s' run

/-- **Rule induction.** What a layer gives if its recursive calls have it holds of all runs. -/
@[elab_as_elim]
theorem induction {motive : ∀ t s u s', Normalizes t s u s' → Prop}
    (layer : ∀ {t u : Term} {s s' : Store} (h : Normalizes t s u s'),
      NormalizesBy (Call motive) t s u s' → motive t s u s' h)
    {t : Term} {s : Store} {u : Term} {s' : Store} (h : Normalizes t s u s') :
    motive t s u s' h := by
  obtain ⟨fuel, hrun⟩ := h
  induction fuel generalizing t u s s' with
  | zero => exact absurd hrun not_exhausted
  | succ fuel ih =>
    exact layer ⟨_, hrun⟩ ((normalizesBy_of_whnf hrun).mono fun _ _ _ _ h => ⟨⟨fuel, h⟩, ih h⟩)

theorem runs (h : Normalizes t s u s') : ∃ N, ∀ fuel, N ≤ fuel → whnf fuel t s = some (u, s') := by
  obtain ⟨N, hN⟩ := h
  exact ⟨N, fun _ => hN.mono⟩

theorem unique {v : Term} {s₁ s₂ : Store} (h : Normalizes t s u s₁) (h' : Normalizes t s v s₂) :
    v = u ∧ s₂ = s₁ := by
  obtain ⟨N, hN⟩ := h.runs
  obtain ⟨M, hM⟩ := h'.runs
  have hsame := (hM (max N M) (Nat.le_max_right ..)).symm.trans (hN _ (Nat.le_max_left ..))
  rwa [Option.some_inj, Prod.mk.injEq] at hsame

end Normalizes

/-- `peelLets` as a relation. -/
inductive Peels : Term → Store → Telescope → Term → Store → Prop where
  | head {t u : Term} {s s' : Store} : Normalizes t s u s' → u.isLet = false → Peels t s [] u s'
  | peel {t ty v body u : Term} {name : String} {b : Binding} {peeled : Telescope}
      {s s₁ s₂ : Store} : Normalizes t s (.letIn name ty v body) s₁ →
      b = (s₁.supply.mint name).1 → Peels (body.openWith b) (s₁.enter name ⟨v, ty⟩) peeled u s₂ →
      Peels t s ((b, ⟨v, ty⟩) :: peeled) u s₂

/-- Every run of `peelLets` that ends is a derivation. -/
theorem peels_of_peelLets {fuel : Nat} {t u : Term} {peeled : Telescope} {s s' : Store}
    (h : peelLets fuel t s = some ((peeled, u), s')) : Peels t s peeled u s' := by
  induction fuel generalizing t u peeled s s' with
  | zero => exact absurd h not_exhausted
  | succ fuel ih =>
    rw [peelLets] at h
    obtain ⟨v, s₁, hv, h⟩ := bind_eq_some.1 h
    split at h
    · obtain ⟨b, s₂, hb, h⟩ := bind_eq_some.1 h
      obtain ⟨rfl, rfl⟩ := mint_eq_some.1 hb
      obtain ⟨_, s₃, hdef, h⟩ := bind_eq_some.1 h
      obtain ⟨⟨_, _⟩, s₄, hrest, h⟩ := bind_eq_some.1 h
      obtain ⟨⟨⟩, rfl⟩ := pure_eq_some.1 h
      rw [defineFresh_eq_some.1 hdef] at hrest
      exact .peel (normalizes_of_whnf hv) rfl (ih hrest)
    · rename_i hne
      obtain ⟨⟨⟩, rfl⟩ := pure_eq_some.1 h
      refine .head (normalizes_of_whnf hv) ?_
      cases u with
      | letIn name ty value body => exact absurd rfl (hne name ty value body)
      | _ => rfl

/-! ## What a run leaves behind -/

namespace Store

theorem lookup_remember_self (s : Store) (b : Binding) (value : Term) :
    (s.remember b value).definitions.lookup b =
      (s.definitions.lookup b).map fun d => { d with value } := by
  cases hb : s.definitions.lookup b with
  | some d =>
    obtain ⟨definitions, hd, hself, -⟩ := Definitions.override_of_lookup hb value
    simp [remember, hd, hself]
  | none => simp [remember, Definitions.override_of_none hb, hb]

theorem lookup_remember_of_ne (s : Store) {b c : Binding} (value : Term) (h : c ≠ b) :
    (s.remember b value).definitions.lookup c = s.definitions.lookup c := by
  cases hb : s.definitions.lookup b with
  | some d =>
    obtain ⟨definitions, hd, -, hother⟩ := Definitions.override_of_lookup hb value
    simp [remember, hd, hother c h]
  | none => simp [remember, Definitions.override_of_none hb]

@[simp] theorem remember_supply (s : Store) (b : Binding) (value : Term) :
    (s.remember b value).supply = s.supply := by
  unfold remember
  split <;> rfl

@[simp] theorem enter_supply_next (s : Store) (name : String) (d : Definition) :
    (s.enter name d).supply.next = s.supply.next + 1 := rfl

@[simp] theorem derive_supply (s : Store) : s.derive.supply = s.supply := rfl

@[simp] theorem lookup_derive (s : Store) (b : Binding) :
    s.derive.definitions.lookup b = s.definitions.lookup b :=
  Scope.lookup_derive _ b

theorem lookup_enter_of_ne (s : Store) {name : String} {d : Definition} {c : Binding}
    (h : c ≠ (s.supply.mint name).1) :
    (s.enter name d).definitions.lookup c = s.definitions.lookup c :=
  Scope.lookup_bind_of_ne _ _ h

theorem lookup_let_self (s : Store) (name : String) (d : Definition) :
    (s.derive.enter name d).definitions.lookup (s.supply.mint name).1 = some d :=
  Scope.lookup_bind_self_of_inner _ d rfl

theorem lookup_let_of_ne (s : Store) {name : String} {d : Definition} {c : Binding}
    (h : c ≠ (s.supply.mint name).1) :
    (s.derive.enter name d).definitions.lookup c = s.definitions.lookup c :=
  (s.derive.lookup_enter_of_ne h).trans (s.lookup_derive c)

/-- The later store has used up identities and may know other values, but it defines the same
variables at the same types. -/
structure Ages (s s' : Store) : Prop where
  supply : s.supply.next ≤ s'.supply.next
  types : ∀ b, (s'.definitions.lookup b).map Definition.ty =
    (s.definitions.lookup b).map Definition.ty

namespace Ages

variable {s s₁ s₂ : Store}

theorem refl (s : Store) : s.Ages s := ⟨Nat.le_refl _, fun _ => rfl⟩

theorem trans (h₁ : s.Ages s₁) (h₂ : s₁.Ages s₂) : s.Ages s₂ :=
  ⟨Nat.le_trans h₁.supply h₂.supply, fun b => (h₂.types b).trans (h₁.types b)⟩

theorem isSome_lookup (h : s.Ages s₁) (b : Binding) :
    (s₁.definitions.lookup b).isSome = (s.definitions.lookup b).isSome := by
  simpa using congrArg Option.isSome (h.types b)

theorem lookup_eq_some (h : s.Ages s₁) {b : Binding} {d₁ : Definition}
    (hd₁ : s₁.definitions.lookup b = some d₁) :
    ∃ d, s.definitions.lookup b = some d ∧ d.ty = d₁.ty := by
  have hty := h.types b
  rw [hd₁] at hty
  exact Option.map_eq_some_iff.1 hty.symm

theorem remember (h : s.Ages s₁) (b : Binding) (value : Term) : s.Ages (s₁.remember b value) := by
  refine ⟨by simpa using h.supply, fun c => ?_⟩
  rw [← h.types c]
  by_cases hc : c = b
  · subst hc
    rw [lookup_remember_self, Option.map_map]
    rfl
  · rw [lookup_remember_of_ne _ _ hc]

end Ages

end Store

theorem Normalizes.ages {t u : Term} {s s' : Store} (h : Normalizes t s u s') : s.Ages s' := by
  induction h using Normalizes.induction with
  | layer _ h =>
    cases h with
    | stable | undefined => exact .refl _
    | defined _ hv => exact hv.ih.remember _ _
    | apply hf ha ht => exact (hf.ih.trans ha.ih).trans ht.ih
    | stuck hf ha => exact hf.ih.trans ha.ih
    | letIn hty hv _ hbody =>
      have hv := hty.ih.trans hv.ih
      have hbody := hbody.ih.supply
      rw [Store.enter_supply_next, Store.derive_supply] at hbody
      exact ⟨Nat.le_trans hv.supply (Nat.le_of_succ_le hbody), hv.types⟩

/-- The variable of a `let` is still defined after its body has been normalised. -/
theorem Normalizes.exists_let_value {t u : Term} {s s' : Store} {name : String} {d : Definition}
    (h : Normalizes t (s.derive.enter name d) u s') :
    ∃ d', s'.definitions.lookup (s.supply.mint name).1 = some d' := by
  rw [← Option.isSome_iff_exists, h.ages.isSome_lookup, Store.lookup_let_self]
  rfl

theorem Peels.supply_le {t u : Term} {peeled : Telescope} {s s' : Store}
    (h : Peels t s peeled u s') : s.supply.next ≤ s'.supply.next := by
  induction h with
  | head h _ => exact h.ages.supply
  | peel h _ _ ih =>
    have := h.ages.supply
    rw [Store.enter_supply_next] at ih
    omega

/-! ## Tracked variables -/

/-- What a store knows of the variables in `S`, which `E` gives their values: a reduct of the value,
or nothing if there is none. -/
structure Tracks (S : Binding → Prop) (E : Values) (s : Store) : Prop where
  minted : ∀ b, S b → b.id < s.supply.next
  keys : ∀ b d, s.definitions.lookup b = some d → b.id < s.supply.next
  values : ∀ b v, E b = some v → S b ∧ v.LocallyClosed ∧ v.Over S
  undefined : ∀ b, S b → E b = none → s.definitions.lookup b = none
  defined : ∀ b v, E b = some v → ∃ d, s.definitions.lookup b = some d ∧ Reduces E v d.value

namespace Tracks

variable {S : Binding → Prop} {E : Values} {s : Store}

theorem below (h : Tracks S E s) : E.Below s.supply.next := by
  intro b v hb
  obtain ⟨hS, -, hv⟩ := h.values b v hb
  exact ⟨h.minted b hS, hv.mono h.minted⟩

theorem over_ne (h : Tracks S E s) {t : Term} (ht : t.Over S) {b : Binding}
    (hb : s.supply.next ≤ b.id) : t.Over (· ≠ b) :=
  Term.Below.ne (ht.mono h.minted) hb

theorem lookup_eq_none (h : Tracks S E s) {b : Binding} (hb : s.supply.next ≤ b.id) :
    s.definitions.lookup b = none := by
  cases hd : s.definitions.lookup b with
  | none => rfl
  | some d => have := h.keys b d hd; omega

theorem reduct_over (h : Tracks S E s) {t u : Term} (hr : Reduces E t u) (ht : t.Over S) :
    u.Over S :=
  hr.vars_over (fun b v _ hb => (h.values b v hb).2.2) ht

theorem of_lookup (h : Tracks S E s) {s' : Store} (hs : s.supply.next ≤ s'.supply.next)
    (hl : ∀ b, s'.definitions.lookup b = s.definitions.lookup b) : Tracks S E s' where
  minted b hb := Nat.lt_of_lt_of_le (h.minted b hb) hs
  keys b d hd := Nat.lt_of_lt_of_le (h.keys b d (hl b ▸ hd)) hs
  values := h.values
  undefined b hb he := (hl b).trans (h.undefined b hb he)
  defined b v hb := by rw [hl]; exact h.defined b v hb

theorem derive (h : Tracks S E s) : Tracks S E s.derive :=
  h.of_lookup (Nat.le_refl _) s.lookup_derive

/-- A definition of a variable that is not tracked does not show. -/
theorem hide (h : Tracks S E s) (name : String) (d : Definition) :
    Tracks S E (s.enter name d) := by
  have hne : ∀ b : Binding, b.id < s.supply.next → b ≠ (s.supply.mint name).1 := by
    rintro b hb rfl
    exact Nat.lt_irrefl _ hb
  refine ⟨fun b hb => Nat.lt_succ_of_lt (h.minted b hb), ?_, h.values, ?_, ?_⟩
  · intro b e he
    by_cases hb : b = (s.supply.mint name).1
    · subst hb
      exact Nat.lt_succ_self _
    · rw [Store.lookup_enter_of_ne _ hb] at he
      exact Nat.lt_succ_of_lt (h.keys b e he)
  · intro b hb he
    rw [Store.lookup_enter_of_ne _ (hne b (h.minted b hb))]
    exact h.undefined b hb he
  · intro b v hb
    rw [Store.lookup_enter_of_ne _ (hne b (h.minted b (h.values b v hb).1))]
    exact h.defined b v hb

theorem assume (h : Tracks S E s) {b : Binding} (hb : s.definitions.lookup b = none) {s' : Store}
    (hs : s.supply.next ≤ s'.supply.next) (hbs : b.id < s'.supply.next)
    (hl : ∀ c, s'.definitions.lookup c = s.definitions.lookup c) :
    Tracks (fun c => c = b ∨ S c) E s' := by
  have h' := h.of_lookup hs hl
  refine ⟨?_, h'.keys, ?_, ?_, h'.defined⟩
  · rintro c (rfl | hc)
    · exact hbs
    · exact h'.minted c hc
  · intro c v hc
    obtain ⟨hS, hv, hover⟩ := h.values c v hc
    exact ⟨.inr hS, hv, hover.mono fun _ => .inr⟩
  · rintro c (rfl | hc) he
    · rw [hl, hb]
    · exact h'.undefined c hc he

theorem define (h : Tracks S E s) {b : Binding} (hb : E b = none) {v : Term} {d : Definition}
    {s' : Store} (hs : s.supply.next ≤ s'.supply.next) (hbs : b.id < s'.supply.next)
    (hself : s'.definitions.lookup b = some d)
    (hother : ∀ c, c ≠ b → s'.definitions.lookup c = s.definitions.lookup c) (hv : v.Over S)
    (hd : Reduces E v d.value) : Tracks (fun c => c = b ∨ S c) (E.define b v) s' := by
  refine ⟨?_, ?_, ?_, ?_, ?_⟩
  · rintro c (rfl | hc)
    · exact hbs
    · exact Nat.lt_of_lt_of_le (h.minted c hc) hs
  · intro c e he
    by_cases hcb : c = b
    · rw [hcb]
      exact hbs
    · rw [hother c hcb] at he
      exact Nat.lt_of_lt_of_le (h.keys c e he) hs
  · refine Values.forall_define ⟨.inl rfl, hd.locallyClosed.1, hv.mono fun _ => .inr⟩
      fun c w _ hc => ?_
    obtain ⟨hS, hw, hover⟩ := h.values c w hc
    exact ⟨.inr hS, hw, hover.mono fun _ => .inr⟩
  · intro c hc he
    by_cases hcb : c = b
    · subst hcb
      rw [Values.define_self] at he
      cases he
    · rw [Values.define_of_ne _ _ hcb] at he
      rw [hother c hcb]
      exact h.undefined c (hc.resolve_left hcb) he
  · refine Values.forall_define ⟨d, hself, hd.define_mono hb _⟩ fun c w hcb hc => ?_
    obtain ⟨e, hl, hr⟩ := h.defined c w hc
    exact ⟨e, (hother c hcb).trans hl, hr.define_mono hb _⟩

theorem enter (h : Tracks S E s) (name : String) {v : Term} {d : Definition} (hv : v.Over S)
    (hd : Reduces E v d.value) :
    Tracks (fun c => c = (s.supply.mint name).1 ∨ S c) (E.define (s.supply.mint name).1 v)
      (s.enter name d) :=
  h.define (h.below.fresh (Nat.le_refl _)).1 (Nat.le_succ _) (Nat.lt_succ_self _)
    (Scope.lookup_bind_self d (h.lookup_eq_none (Nat.le_refl _)))
    (fun _ => Store.lookup_enter_of_ne s) hv hd

/-- A value may be replaced by another reduct. For a variable that is not tracked, or has no value,
it does not matter. -/
theorem remember (h : Tracks S E s) {b : Binding} {value : Term}
    (hb : ∀ v, E b = some v → Reduces E v value) : Tracks S E (s.remember b value) := by
  refine ⟨fun c hc => by simpa using h.minted c hc, ?_, h.values, ?_, ?_⟩
  · intro c d hd
    rw [Store.remember_supply]
    by_cases hc : c = b
    · subst hc
      rw [Store.lookup_remember_self] at hd
      obtain ⟨e, he, -⟩ := Option.map_eq_some_iff.1 hd
      exact h.keys c e he
    · rw [Store.lookup_remember_of_ne _ _ hc] at hd
      exact h.keys c d hd
  · intro c hc he
    have hnone := h.undefined c hc he
    by_cases hcb : c = b
    · subst hcb
      rw [Store.lookup_remember_self, hnone]
      rfl
    · rwa [Store.lookup_remember_of_ne _ _ hcb]
  · intro c v hv
    obtain ⟨d, hd, hr⟩ := h.defined c v hv
    by_cases hcb : c = b
    · subst hcb
      rw [Store.lookup_remember_self, hd]
      exact ⟨_, rfl, hb v hv⟩
    · rw [Store.lookup_remember_of_ne _ _ hcb]
      exact ⟨d, hd, hr⟩

end Tracks

/-! ## Normalisation is reduction -/

/-- The step for a `let`: if the body, opened with the new variable, reduces to `body'`, then the
`let` reduces to the one around `body'`, or to `body'` itself if it does not use the variable. -/
theorem Reduces.makeLet {E : Values} {m : Nat} (hE : E.Below m) {b : Binding} (hb : m ≤ b.id)
    {A A' v v' body body' : Term} (hA : Reduces E A A') (hv : Reduces E v v')
    (hbody : Reduces (E.define b v) (body.openWith b) body') (hvb : v.Over (· ≠ b))
    (hbb : body.Over (· ≠ b)) :
    Reduces E (.letIn b.name A v body) (.makeLet b A' v' body') := by
  have hlc := hbody.locallyClosed.2
  have hlet : Reduces E (.letIn b.name A v body) (.letIn b.name A' v' (body'.close b)) := by
    refine .letIn (max m (b.id + 1)) hA hv fun c hc => ?_
    rw [← Term.openWith_close hlc b] at hbody
    exact hbody.rename hE (hE.fresh hb) hv.locallyClosed.1 hvb hbb (body'.close_over_ne b) hc
  rcases Term.makeLet_cases b A' v' body' with ⟨hfresh, he⟩ | he
  · have hcl : body'.close b = body' := Term.closeAt_of_fresh hfresh 0
    rw [hcl] at hlet
    rw [he]
    exact hlet.trans (.drop hA.locallyClosed.2 hv.locallyClosed.2 hlc)
  · rwa [he]

namespace Normalizes

variable {S : Binding → Prop} {E : Values} {t u : Term} {s s' : Store}

/-- What normalisation does to the store and to the term, in one induction: a remembered value has
to be known for a reduct, and a value is looked up to reduce a term. -/
theorem tracks_and_reduces (h : Normalizes t s u s') (hs : Tracks S E s) :
    Tracks S E s' ∧ (t.LocallyClosed → t.Over S → Reduces E t u) := by
  induction h using Normalizes.induction generalizing S E with
  | @layer _ u _ _ _ h =>
    cases h with
    | stable | undefined => exact ⟨hs, fun hlc _ => .refl hlc⟩
    | @defined b d _ _ s₁ hd hv =>
      obtain ⟨hs₁, hr⟩ := hv.ih hs
      have hvalue : ∀ w, E b = some w → Reduces E w u := by
        intro w hw
        obtain ⟨-, hwlc, hwS⟩ := hs.values b w hw
        obtain ⟨e, he, hwd⟩ := hs.defined b w hw
        obtain rfl : e = d := by simpa [hd] using he.symm
        exact hwd.trans (hr hwd.locallyClosed.2 (hs.reduct_over hwd hwS))
      refine ⟨hs₁.remember hvalue, fun _ hb => ?_⟩
      cases hw : E b with
      | none => rw [hs.undefined b hb hw] at hd; cases hd
      | some w => exact (Reduces.delta hw (hs.values b w hw).2.1).trans (hvalue w hw)
    | apply hf ha ht =>
      obtain ⟨hs₁, hf⟩ := hf.ih hs
      obtain ⟨hs₂, ha⟩ := ha.ih hs₁
      obtain ⟨hs₃, ht⟩ := ht.ih hs₂
      refine ⟨hs₃, fun hlc hover => ?_⟩
      have hf := hf hlc.1 hover.1
      have ha := ha hlc.2 hover.2
      have hbeta := Reduces.beta (E := E) hf.locallyClosed.2 ha.locallyClosed.2
      have hfa := (Reduces.app hf ha).trans hbeta
      exact hfa.trans (ht hfa.locallyClosed.2 (hs.reduct_over hfa hover))
    | stuck hf ha =>
      obtain ⟨hs₁, hf⟩ := hf.ih hs
      obtain ⟨hs₂, ha⟩ := ha.ih hs₁
      exact ⟨hs₂, fun hlc hover => .app (hf hlc.1 hover.1) (ha hlc.2 hover.2)⟩
    | @letIn name b _ _ v _ _ _ _ _ s₂ s₃ hty hv hb hbody =>
      obtain ⟨hs₁, hty⟩ := hty.ih hs
      obtain ⟨hs₂, hv⟩ := hv.ih hs₁
      have hle : s₂.supply.next ≤ s₃.supply.next := Nat.le_of_succ_le hbody.run.ages.supply
      refine ⟨hs₂.of_lookup hle fun _ => rfl, fun hlc hover => ?_⟩
      have hty := hty hlc.1 hover.1
      have hv := hv hlc.2.1 hover.2.1
      -- The body is reduced with its variable tracked, and defined as the value before reduction.
      obtain ⟨hs₃, hr⟩ := hbody.ih (hs₂.derive.enter name hover.2.1 hv)
      subst hb
      have hbelow := hs₂.below
      have hfresh : ∀ {t : Term}, t.Over S → t.Over (· ≠ (s₂.supply.mint name).1) :=
        fun ht => hs₂.over_ne ht (Nat.le_refl _)
      have hr := hr (hlc.2.2.openWith _)
        (Term.Over.openWith (hover.2.2.mono fun c => .inr) (.inl rfl))
      obtain ⟨d, hd, hvd⟩ := hs₃.defined _ _ (Values.define_self ..)
      rw [Store.derive_supply] at hd
      rw [hd]
      have hvd := hvd.strengthen hbelow (hbelow.fresh (Nat.le_refl _)) hlc.2.1 (hfresh hover.2.1)
        (hfresh hover.2.1)
      exact Reduces.makeLet hbelow (Nat.le_refl _) hty hvd hr (hfresh hover.2.1) (hfresh hover.2.2)

/-- **Normalisation keeps the store.** Whatever term is normalised, what the store knows of the
tracked variables stays true. -/
theorem tracks (h : Normalizes t s u s') (hs : Tracks S E s) : Tracks S E s' :=
  (h.tracks_and_reduces hs).1

/-- **Normalisation is reduction.** A term over tracked variables reduces to its normal form. -/
theorem reduces (h : Normalizes t s u s') (hs : Tracks S E s) (hlc : t.LocallyClosed)
    (ht : t.Over S) : Reduces E t u :=
  (h.tracks_and_reduces hs).2 hlc ht

end Normalizes

/-- What a computation may do to the store as far as tracked variables are concerned: nothing but
mint bindings and remember reducts. -/
structure Store.Keeps (s s' : Store) : Prop where
  supply : s.supply.next ≤ s'.supply.next
  tracks : ∀ {S : Binding → Prop} {E : Values}, Tracks S E s → Tracks S E s'

namespace Store.Keeps

variable {s s₁ s₂ : Store}

theorem refl (s : Store) : s.Keeps s := ⟨Nat.le_refl _, fun h => h⟩

theorem trans (h₁ : s.Keeps s₁) (h₂ : s₁.Keeps s₂) : s.Keeps s₂ :=
  ⟨Nat.le_trans h₁.supply h₂.supply, fun h => h₂.tracks (h₁.tracks h)⟩

theorem mint (s : Store) (name : String) : s.Keeps { s with supply := (s.supply.mint name).2 } :=
  ⟨Nat.le_succ _, fun h => h.of_lookup (Nat.le_succ _) fun _ => rfl⟩

theorem restore (h : s.derive.Keeps s₁) : s.Keeps { s₁ with definitions := s.definitions } :=
  ⟨h.supply, fun hs => hs.of_lookup h.supply fun _ => rfl⟩

end Store.Keeps

theorem Normalizes.keeps {t u : Term} {s s' : Store} (h : Normalizes t s u s') : s.Keeps s' :=
  ⟨h.ages.supply, fun hs => h.tracks hs⟩

/-- Whatever term is peeled, its `let`s do not show in what the store knows of tracked variables. -/
theorem Peels.keeps {t u : Term} {peeled : Telescope} {s s' : Store} (h : Peels t s peeled u s') :
    s.Keeps s' := by
  refine ⟨h.supply_le, fun hs => ?_⟩
  induction h with
  | head h _ => exact h.tracks hs
  | peel h _ _ ih => exact ih ((h.tracks hs).hide _ _)

end DepLang
