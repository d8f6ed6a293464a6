import DepLang.Check

/-!
# When a run ends in an answer

A computation over a store is a chain of steps, and it ends in an answer exactly if each step does,
from the store that the one before it leaves. The lemmas of this module take a finished run apart,
one for each way to build a computation; later proofs use them in place of the definitions.

Most of them are about runs that end in a value; what follows an error is not run, so where a run
ends in an error is a question for the last step only (`Check.bind_eq_error`). That a computation
ends in no error is said by `Check.Returns`, which has one rule for each way to build a computation
too.
-/
namespace DepLang

theorem except_bind_eq_ok {ε α β : Type} {x : Except ε α} {f : α → Except ε β} {b : β} :
    (x >>= f) = .ok b ↔ ∃ a, x = .ok a ∧ f a = .ok b := by
  cases x with
  | error e => simp [bind, Except.bind]
  | ok a => simp [bind, Except.bind]

theorem except_bind_eq_error {ε α β : Type} {x : Except ε α} {f : α → Except ε β} {e : ε} :
    (x >>= f) = .error e ↔ x = .error e ∨ ∃ a, x = .ok a ∧ f a = .error e := by
  cases x with
  | error e' => simp [bind, Except.bind]
  | ok a => simp [bind, Except.bind]

theorem except_map_eq_ok {ε α β : Type} {x : Except ε α} {f : α → β} {b : β} :
    f <$> x = .ok b ↔ ∃ a, x = .ok a ∧ f a = b := by
  cases x with
  | error e => simp [Functor.map, Except.map]
  | ok a => simp [Functor.map, Except.map]

/-- A function takes a step of fuel for itself, and leaves the rest to its calls. -/
theorem forall_fuel_succ {P : Nat → Prop} {N : Nat} (h : ∀ fuel, N ≤ fuel → P (fuel + 1)) :
    ∀ fuel, N + 1 ≤ fuel → P fuel := by
  intro fuel hfuel
  obtain ⟨fuel, rfl⟩ := Nat.exists_eq_add_of_le' (Nat.le_trans (Nat.le_add_left 1 N) hfuel)
  exact h fuel (Nat.le_of_succ_le_succ hfuel)

namespace Reduction

variable {α β : Type} {s u : Store}

theorem bind_eq_some {x : Reduction α} {f : α → Reduction β} {b : β} :
    (x >>= f) s = some (b, u) ↔ ∃ a t, x s = some (a, t) ∧ f a t = some (b, u) := by
  rw [bind_apply]
  cases x s with
  | none => simp
  | some r =>
    obtain ⟨a, t⟩ := r
    constructor
    · intro h; exact ⟨a, t, rfl, h⟩
    · rintro ⟨_, _, ⟨⟩, h⟩; exact h

theorem pure_eq_some {a b : α} : (pure a : Reduction α) s = some (b, u) ↔ a = b ∧ s = u := by
  show some (a, s) = some (b, u) ↔ _
  simp

theorem mint_eq_some {name : String} {b : Binding} :
    mint name s = some (b, u) ↔
      b = (s.supply.mint name).1 ∧ u = { s with supply := (s.supply.mint name).2 } := by
  simp [mint, eq_comm]

theorem definition?_eq_some {b : Binding} {d : Option Definition} :
    definition? b s = some (d, u) ↔ d = s.definitions.lookup b ∧ u = s := by
  simp [definition?, eq_comm]

theorem defineFresh_eq_some {b : Binding} {d : Definition} {v : Unit} :
    defineFresh b d s = some (v, u) ↔ u = { s with definitions := s.definitions.bind b d } := by
  simp [defineFresh, eq_comm]

theorem not_exhausted {a : α} : ¬ (exhausted : Reduction α) s = some (a, u) := by
  simp [exhausted]

theorem map_eq_some {x : Reduction α} {f : α → β} {b : β} :
    (f <$> x) s = some (b, u) ↔ ∃ a, x s = some (a, u) ∧ f a = b := by
  show ((do let a ← x; pure (f a)) : Reduction β) s = some (b, u) ↔ _
  rw [bind_eq_some]
  simp only [pure_eq_some]
  constructor
  · rintro ⟨a, t, hx, rfl, rfl⟩
    exact ⟨a, hx, rfl⟩
  · rintro ⟨a, hx, rfl⟩
    exact ⟨a, u, hx, rfl, rfl⟩

end Reduction

namespace Check

variable {α β : Type} {s u : Store}

theorem bind_eq_ok {x : Check α} {f : α → Check β} {b : β} :
    (x >>= f).run s = some (.ok b, u) ↔
      ∃ a t, x.run s = some (.ok a, t) ∧ (f a).run t = some (.ok b, u) := by
  rw [bind_apply]
  cases x.run s with
  | none => simp
  | some r =>
    obtain ⟨_ | a, t⟩ := r
    · simp
    · constructor
      · intro h; exact ⟨a, t, rfl, h⟩
      · rintro ⟨_, _, ⟨⟩, h⟩; exact h

theorem pure_eq_ok {a b : α} : (pure a : Check α).run s = some (.ok b, u) ↔ a = b ∧ s = u := by
  show some (Except.ok a, s) = some (.ok b, u) ↔ _
  simp

theorem lift_eq_ok {x : Reduction α} {a : α} :
    (liftM x : Check α).run s = some (.ok a, u) ↔ x s = some (a, u) := by
  show ((do let a ← x; pure (.ok a)) : Reduction (Except ElaborationError α)) s = _ ↔ _
  rw [Reduction.bind_eq_some]
  simp only [Reduction.pure_eq_some, Except.ok.injEq]
  constructor
  · rintro ⟨b, t, hx, rfl, rfl⟩
    exact hx
  · intro hx
    exact ⟨a, u, hx, rfl, rfl⟩

theorem fail_ne_ok {error : ElaborationError} {a : α} :
    ¬ (fail error : Check α).run s = some (.ok a, u) := by
  simp [fail, ExceptT.mk, ExceptT.run]

theorem ofScope_eq_ok {r : Except ScopeError α} {a : α} :
    (ofScope r).run s = some (.ok a, u) ↔ r = .ok a ∧ s = u := by
  cases r with
  | error e => simpa [ofScope] using fail_ne_ok
  | ok b => simpa [ofScope] using pure_eq_ok

theorem ofResolution_eq_ok {r : Except Unresolved α} {a : α} :
    (ofResolution r).run s = some (.ok a, u) ↔ r = .ok a ∧ s = u := by
  cases r with
  | error e => simpa [ofResolution] using fail_ne_ok
  | ok b => simpa [ofResolution] using pure_eq_ok

/-- A run in a derived scope hands on the supply, and nothing else. -/
theorem locally_eq_ok {x : Check α} {a : α} :
    (locally x).run s = some (.ok a, u) ↔
      ∃ t, x.run { s with definitions := s.definitions.derive } = some (.ok a, t) ∧
        u = { t with definitions := s.definitions } :=
  Reduction.locally_eq_some

theorem define_eq_ok {b : Binding} {d : Definition} {v : Unit} :
    (define b d).run s = some (.ok v, u) ↔
      ∃ definitions, s.definitions.insert b d = .ok definitions ∧ u = { s with definitions } := by
  unfold define ExceptT.mk ExceptT.run
  cases h : s.definitions.insert b d with
  | error e => simp [h]
  | ok definitions => simp [h, eq_comm (a := u)]

theorem bind_eq_error {x : Check α} {f : α → Check β} {error : ElaborationError} :
    (x >>= f).run s = some (.error error, u) ↔ x.run s = some (.error error, u) ∨
      ∃ a t, x.run s = some (.ok a, t) ∧ (f a).run t = some (.error error, u) := by
  rw [bind_apply]
  cases x.run s with
  | none => simp
  | some r =>
    obtain ⟨e | a, t⟩ := r
    · simp
    · constructor
      · intro h; exact .inr ⟨a, t, rfl, h⟩
      · rintro (h | ⟨_, _, ⟨⟩, h⟩)
        · cases h
        · exact h

theorem pure_ne_error {a : α} {error : ElaborationError} :
    ¬ (pure a : Check α).run s = some (.error error, u) := by
  intro h
  cases h

theorem lift_ne_error {x : Reduction α} {error : ElaborationError} :
    ¬ (liftM x : Check α).run s = some (.error error, u) := by
  intro h
  obtain ⟨a, t, -, h⟩ := Reduction.bind_eq_some.1
    (show (do let a ← x; pure (.ok a) : Reduction (Except ElaborationError α)) s = _ from h)
  cases (Reduction.pure_eq_some.1 h).1

theorem define_eq_error {b : Binding} {d : Definition} {error : ElaborationError}
    (h : (define b d).run s = some (.error error, u)) : u = s := by
  unfold define ExceptT.mk ExceptT.run at h
  dsimp only at h
  split at h
  · cases h
  · cases h
    rfl

theorem define_of_none {b : Binding} {d : Definition} (h : s.definitions.lookup b = none) :
    (define b d).run s = some (.ok (), { s with definitions := s.definitions.bind b d }) := by
  simp [define, ExceptT.run, ExceptT.mk, Scope.insert, Scope.contains, h]

theorem define_of_some {b : Binding} {d e : Definition} (h : s.definitions.lookup b = some e) :
    (define b d).run s = some (.error (.scope (.alreadyInScope b)), s) := by
  simp [define, ExceptT.run, ExceptT.mk, Scope.insert, Scope.contains, h]

theorem map_eq_bind (f : α → β) (x : Check α) : f <$> x = do return f (← x) :=
  map_eq_pure_bind f x

/-- The answer of a run from the given store, if it ends in one. -/
def answer? (x : Check α) (s : Store) : Option α := (x.run s).bind fun r => r.1.toOption

theorem answer?_eq_some {x : Check α} {a : α} :
    x.answer? s = some a ↔ ∃ u, x.run s = some (.ok a, u) := by
  unfold answer?
  cases x.run s with
  | none => simp
  | some r =>
    obtain ⟨_ | b, t⟩ := r
    · simp [Except.toOption]
    · simp [Except.toOption]

/-- Whenever a run from the store ends, it ends in an answer and in a store that satisfy `Q`. It may
run out of fuel. -/
def Returns (x : Check α) (s : Store) (Q : α → Store → Prop) : Prop :=
  ∀ r u, x.run s = some (r, u) → ∃ a, r = .ok a ∧ Q a u

namespace Returns

variable {x : Check α} {f : α → Check β} {P Q : α → Store → Prop} {R : β → Store → Prop}

theorem mono (h : x.Returns s P) (hPQ : ∀ a u, P a u → Q a u) : x.Returns s Q := by
  intro r u hrun
  obtain ⟨a, rfl, ha⟩ := h r u hrun
  exact ⟨a, rfl, hPQ a u ha⟩

theorem and_run (h : x.Returns s P) : x.Returns s fun a u => P a u ∧ x.run s = some (.ok a, u) := by
  intro r u hrun
  obtain ⟨a, rfl, ha⟩ := h r u hrun
  exact ⟨a, rfl, ha, hrun⟩

theorem pure {a : α} (h : P a s) : (pure a : Check α).Returns s P := by
  intro r u hrun
  cases hrun
  exact ⟨a, rfl, h⟩

theorem bind (hx : x.Returns s P) (hf : ∀ a t, P a t → (f a).Returns t R) :
    (x >>= f).Returns s R := by
  intro r u hrun
  rw [bind_apply] at hrun
  cases hxs : x.run s with
  | none => rw [hxs] at hrun; cases hrun
  | some result =>
    obtain ⟨outcome, t⟩ := result
    obtain ⟨a, rfl, ha⟩ := hx outcome t hxs
    rw [hxs] at hrun
    exact hf a t ha r u hrun

theorem lift {y : Reduction α} (h : ∀ a u, y s = some (a, u) → P a u) :
    (liftM y : Check α).Returns s P := by
  intro r u hrun
  replace hrun : (do let a ← y; Pure.pure (.ok a) : Reduction (Except ElaborationError α)) s =
    some (r, u) := hrun
  obtain ⟨a, t, ha, hr⟩ := Reduction.bind_eq_some.1 hrun
  obtain ⟨rfl, rfl⟩ := Reduction.pure_eq_some.1 hr
  exact ⟨a, rfl, h a t ha⟩

theorem mint {name : String} {f : Binding → Check β}
    (h : (f (s.supply.mint name).1).Returns { s with supply := (s.supply.mint name).2 } R) :
    (liftM (Reduction.mint name) >>= f : Check β).Returns s R := by
  refine bind (lift fun b u hb => Reduction.mint_eq_some.1 hb) ?_
  rintro b u ⟨rfl, rfl⟩
  exact h

theorem locally (h : x.Returns { s with definitions := s.definitions.derive }
    fun a u => P a { u with definitions := s.definitions }) : (locally x).Returns s P := by
  intro r u hrun
  obtain ⟨t, ht, rfl⟩ := Reduction.locally_eq_some.1 hrun
  obtain ⟨a, rfl, ha⟩ := h r t ht
  exact ⟨a, rfl, ha⟩

end Returns

end Check

namespace Scope

theorem insert_eq_ok {α : Type} {s s' : Scope α} {b : Binding} {a : α} :
    s.insert b a = .ok s' ↔ s.lookup b = none ∧ s' = s.bind b a := by
  unfold insert contains
  cases s.lookup b with
  | none => simp [eq_comm (a := s')]
  | some _ => simp

end Scope

theorem Check.insert_eq_ok {α : Type} {Γ Γ' : Scope α} {b : Binding} {a : α} {s u : Store} :
    (ofScope (Γ.insert b a)).run s = some (.ok Γ', u) ↔
      Γ.lookup b = none ∧ Γ' = Γ.bind b a ∧ u = s := by
  rw [ofScope_eq_ok, Scope.insert_eq_ok, and_assoc, eq_comm (a := s)]

end DepLang
