import DepLang.Proofs.Twins

/-!
# Computations in lockstep

Two computations are in **lockstep** if, whenever the first ends, the second ends too with enough
fuel, and what they end in is the same up to the identities of variables. They start from twin
stores and leave twin stores, so the computations that follow can be in lockstep again.

A `World` says how far two runs have come: which variables stand for each other, and which
identities each side has used up. Worlds only grow, and only by variables that both sides mint.

`Check.Lockstep W x X P`: from the world `W`, the computation `x` and the computations `X fuel` are
in lockstep, and `P` relates their values for the pairs at the end. Errors are alike too, but may
mention variables that have gone out of scope on the way; `World.Outcome` pairs these for the error
only. There is one rule for each way to build a computation.
-/
namespace DepLang

/-! ## Worlds -/

/-- How far two runs have come. -/
structure World where
  /-- Which variables stand for each other. -/
  pairs : Pairs
  /-- The identities below are used up on the left. -/
  left : Nat
  /-- The identities below are used up on the right. -/
  right : Nat

namespace World

/-- More identities are used up, and some of them paired. -/
structure Grows (W W' : World) : Prop where
  pairs : ∀ x y, W.pairs x y → W'.pairs x y
  fresh : ∀ x y, W'.pairs x y → W.pairs x y ∨ W.left ≤ x.id ∧ W.right ≤ y.id
  left : W.left ≤ W'.left
  right : W.right ≤ W'.right

namespace Grows

theorem refl (W : World) : W.Grows W :=
  ⟨fun _ _ => id, fun _ _ => .inl, Nat.le_refl _, Nat.le_refl _⟩

theorem trans {W W' W'' : World} (h : W.Grows W') (h' : W'.Grows W'') : W.Grows W'' where
  pairs x y hxy := h'.pairs x y (h.pairs x y hxy)
  fresh x y hxy := by
    rcases h'.fresh x y hxy with hxy | ⟨hx, hy⟩
    · exact h.fresh x y hxy
    · exact .inr ⟨Nat.le_trans h.left hx, Nat.le_trans h.right hy⟩
  left := Nat.le_trans h.left h'.left
  right := Nat.le_trans h.right h'.right

end Grows

/-- Both sides mint a variable under one name. -/
def mint (W : World) (name : String) : World where
  pairs := W.pairs.add ⟨W.left, name⟩ ⟨W.right, name⟩
  left := W.left + 1
  right := W.right + 1

theorem grows_mint (W : World) (name : String) : W.Grows (W.mint name) where
  pairs _ _ := .inr
  fresh x y hxy := by
    rcases hxy with ⟨rfl, rfl⟩ | hxy
    · exact .inr ⟨Nat.le_refl _, Nat.le_refl _⟩
    · exact .inl hxy
  left := Nat.le_succ _
  right := Nat.le_succ _

/-- The same variables are paired, after identities have been used up. -/
def advance (W : World) (left right : Nat) : World := { W with left, right }

theorem grows_advance {W : World} {l r : Nat} (hl : W.left ≤ l) (hr : W.right ≤ r) :
    W.Grows (W.advance l r) :=
  ⟨fun _ _ => id, fun _ _ => .inl, hl, hr⟩

/-- No more variables are paired in the end, and the values are related. -/
def still {α β : Type} (W : World) (P : α → β → Prop) : Pairs → α → β → Prop :=
  fun R a b => R = W.pairs ∧ P a b

/-- The stores are where the world says. -/
structure Holds (W : World) (S : Binding → Prop) (n : Nat) (E : Values) (s₁ s₂ : Store) : Prop where
  twins : Twins W.pairs S n E s₁ s₂
  left : s₁.supply.next = W.left
  right : s₂.supply.next = W.right

namespace Holds

variable {W W' : World} {S : Binding → Prop} {n : Nat} {E : Values} {s₁ s₂ t₁ t₂ : Store}

theorem pairs (h : W.Holds S n E s₁ s₂) : W.pairs.Matches W.left W.right := by
  have := h.twins.pairs
  rwa [h.left, h.right] at this

theorem mint (h : W.Holds S n E s₁ s₂) (name : String) :
    (W.mint name).Holds S n E { s₁ with supply := (s₁.supply.mint name).2 }
      { s₂ with supply := (s₂.supply.mint name).2 } where
  twins := by
    have := h.twins.mint name
    rwa [h.left, h.right] at this
  left := congrArg (· + 1) h.left
  right := congrArg (· + 1) h.right

theorem restore (h : W.Holds S n E s₁ s₂) (hW : W.Grows W') (ht₁ : t₁.supply.next = W'.left)
    (ht₂ : t₂.supply.next = W'.right) :
    (W.advance W'.left W'.right).Holds S n E { t₁ with definitions := s₁.definitions }
      { t₂ with definitions := s₂.definitions } where
  twins := by
    refine h.twins.of_lookup ?_ ?_ (fun _ => rfl) (fun _ => rfl)
    · have := hW.left
      rwa [← h.left, ← ht₁] at this
    · have := hW.right
      rwa [← h.right, ← ht₂] at this
  left := ht₁
  right := ht₂

theorem derive (h : W.Holds S n E s₁ s₂) : W.Holds S n E s₁.derive s₂.derive :=
  ⟨h.twins.derive, h.left, h.right⟩

theorem of_twins (h : W.Holds S n E s₁ s₂) (hT : Twins W.pairs S n E t₁ t₂)
    (hs₁ : s₁.supply.next ≤ t₁.supply.next) (hs₂ : s₂.supply.next ≤ t₂.supply.next) :
    ∃ l r, W.Grows (W.advance l r) ∧ (W.advance l r).Holds S n E t₁ t₂ :=
  ⟨t₁.supply.next, t₂.supply.next, grows_advance (h.left ▸ hs₁) (h.right ▸ hs₂), hT, rfl, rfl⟩

end Holds

end World

/-! ## Contexts -/

/-- The contexts give alike types to variables that are paired, and bind none that is still to be
minted. -/
structure Context.Alike (W : World) (Γ Γ' : Context) : Prop where
  left : ∀ b A, Γ.lookup b = some A → b.id < W.left
  right : ∀ b A, Γ'.lookup b = some A → b.id < W.right
  types : ∀ b c, W.pairs b c → Option.Rel (Term.Alike W.pairs) (Γ.lookup b) (Γ'.lookup c)

namespace Context.Alike

variable {W W' : World} {Γ Γ' : Context}

theorem lookup_eq_none_left (h : Context.Alike W Γ Γ') {b : Binding} (hb : W.left ≤ b.id) :
    Γ.lookup b = none := by
  refine Option.eq_none_iff_forall_ne_some.2 fun A hA => ?_
  have := h.left b A hA
  omega

theorem lookup_eq_none_right (h : Context.Alike W Γ Γ') {b : Binding} (hb : W.right ≤ b.id) :
    Γ'.lookup b = none := by
  refine Option.eq_none_iff_forall_ne_some.2 fun A hA => ?_
  have := h.right b A hA
  omega

theorem mono (h : Context.Alike W Γ Γ') (hW : W.Grows W') : Context.Alike W' Γ Γ' where
  left b A hA := Nat.lt_of_lt_of_le (h.left b A hA) hW.left
  right b A hA := Nat.lt_of_lt_of_le (h.right b A hA) hW.right
  types b c hbc := by
    rcases hW.fresh b c hbc with hbc | ⟨hb, hc⟩
    · exact rel_mono (h.types b c hbc) fun _ _ hA => hA.mono hW.pairs
    · rw [h.lookup_eq_none_left hb, h.lookup_eq_none_right hc]
      exact .none

theorem bind (h : Context.Alike W Γ Γ') (hW : W.pairs.Matches W.left W.right) {b c : Binding}
    (hbc : W.pairs b c) (hb : Γ.lookup b = none) (hc : Γ'.lookup c = none) {A B : Term}
    (hAB : A.Alike W.pairs B) : Context.Alike W (Γ.bind b A) (Γ'.bind c B) where
  left x X hX := by
    by_cases hx : x = b
    · rw [hx]
      exact hW.left hbc
    · rw [Scope.lookup_bind_of_ne _ _ hx] at hX
      exact h.left x X hX
  right x X hX := by
    by_cases hx : x = c
    · rw [hx]
      exact hW.right hbc
    · rw [Scope.lookup_bind_of_ne _ _ hx] at hX
      exact h.right x X hX
  types x y hxy := by
    by_cases hx : x = b
    · have hy := (hW.unique hxy hbc).1 hx
      rw [hx, hy, Scope.lookup_bind_self A hb, Scope.lookup_bind_self B hc]
      exact .some hAB
    · have hy := mt (hW.unique hxy hbc).2 hx
      rw [Scope.lookup_bind_of_ne _ _ hx, Scope.lookup_bind_of_ne _ _ hy]
      exact h.types x y hxy

theorem bind_mint (h : Context.Alike W Γ Γ') (hW : W.pairs.Matches W.left W.right) (name : String)
    {A B : Term} (hAB : A.Alike W.pairs B) :
    Context.Alike (W.mint name) (Γ.bind ⟨W.left, name⟩ A) (Γ'.bind ⟨W.right, name⟩ B) :=
  (h.mono (W.grows_mint name)).bind (hW.mint name) (.inl ⟨rfl, rfl⟩)
    (h.lookup_eq_none_left (Nat.le_refl _)) (h.lookup_eq_none_right (Nat.le_refl _))
    (hAB.mono fun _ _ => .inr)

end Context.Alike

/-! ## Runs with enough fuel -/

/-- With enough fuel, the computations end in the result and leave the store. -/
def Ends {α : Type} (X : Nat → Check α) (s : Store) (r : Except ElaborationError α) (t : Store) :
    Prop :=
  ∃ N, ∀ fuel, N ≤ fuel → (X fuel).run s = some (r, t)

namespace Ends

variable {α β : Type} {X : Nat → Check α} {F : Nat → α → Check β} {s t u : Store}

theorem const {x : Check α} {r : Except ElaborationError α} (h : x.run s = some (r, t)) :
    Ends (fun _ => x) s r t :=
  ⟨0, fun _ _ => h⟩

theorem bind_ok {a : α} {r : Except ElaborationError β} (hX : Ends X s (.ok a) t)
    (hF : Ends (F · a) t r u) : Ends (fun fuel => X fuel >>= F fuel) s r u := by
  obtain ⟨N, hN⟩ := hX
  obtain ⟨N', hN'⟩ := hF
  refine ⟨max N N', fun fuel hfuel => ?_⟩
  rw [Check.bind_apply, hN fuel (by omega)]
  exact hN' fuel (by omega)

theorem bind_error {e : ElaborationError} (hX : Ends X s (.error e) t) :
    Ends (fun fuel => X fuel >>= F fuel) s (.error e) t := by
  obtain ⟨N, hN⟩ := hX
  refine ⟨N, fun fuel hfuel => ?_⟩
  rw [Check.bind_apply, hN fuel hfuel]
  rfl

theorem succ {r : Except ElaborationError α} (hX : Ends (fun fuel => X (fuel + 1)) s r t) :
    Ends X s r t := by
  obtain ⟨N, hN⟩ := hX
  exact enough_fuel_succ N hN

theorem locally {r : Except ElaborationError α} (hX : Ends X s.derive r t) :
    Ends (fun fuel => Check.locally (X fuel)) s r { t with definitions := s.definitions } := by
  obtain ⟨N, hN⟩ := hX
  exact ⟨N, fun fuel hfuel => Reduction.locally_eq_some.2 ⟨t, hN fuel hfuel, rfl⟩⟩

end Ends

/-! ## Lockstep -/

/-- What two computations end in: values that `P` relates, or errors that are alike. An error may
mention variables that have gone out of scope, which are paired for it. -/
inductive World.Outcome {α β : Type} (W : World) (P : Pairs → α → β → Prop) :
    Except ElaborationError α → Except ElaborationError β → Prop where
  | ok {a : α} {b : β} : P W.pairs a b → Outcome W P (.ok a) (.ok b)
  | error {e e' : ElaborationError} {Q : Pairs} : (∀ x y, W.pairs x y → Q x y) →
      Q.Matches W.left W.right → e.Alike Q e' → Outcome W P (.error e) (.error e')

/-- The same outcome: equal values, or errors that are the same up to the identities of variables
from `n` on. -/
inductive SameOutcome {α : Type} (n : Nat) :
    Except ElaborationError α → Except ElaborationError α → Prop where
  | ok (a : α) : SameOutcome n (.ok a) (.ok a)
  | error {e e' : ElaborationError} {Q : Pairs} {l r : Nat} : Q.Matches l r →
      (∀ b : Binding, b.id < n → Q b b) → e.Alike Q e' → SameOutcome n (.error e) (.error e')

theorem World.Outcome.same {α : Type} {W : World} {P : Pairs → α → α → Prop} {n : Nat}
    {r r' : Except ElaborationError α} (h : W.Outcome P r r')
    (hn : ∀ b : Binding, b.id < n → W.pairs b b) (hP : ∀ a b, P W.pairs a b → a = b) :
    SameOutcome n r r' := by
  cases h with
  | ok hab => exact hP _ _ hab ▸ .ok _
  | error hsub hmatch he => exact .error hmatch (fun b hb => hsub b b (hn b hb)) he

/-- From the world `W`, whenever the first computation ends, the second one does with enough fuel,
and it ends alike. -/
structure Check.Lockstep {α β : Type} (S : Binding → Prop) (n : Nat) (E : Values) (W : World)
    (x : Check α) (X : Nat → Check β) (P : Pairs → α → β → Prop) : Prop where
  run : ∀ {s₁ s₂ t₁ : Store} {r : Except ElaborationError α}, W.Holds S n E s₁ s₂ →
    x.run s₁ = some (r, t₁) → ∃ W' r' t₂, W.Grows W' ∧ Ends X s₂ r' t₂ ∧ W'.Holds S n E t₁ t₂ ∧
      W'.Outcome P r r'

namespace Check.Lockstep

variable {α β γ δ : Type} {S : Binding → Prop} {n : Nat} {E : Values} {W : World} {x : Check α}
  {X : Nat → Check β} {P Q : Pairs → α → β → Prop} {f : α → Check γ} {F : Nat → β → Check δ}
  {R : Pairs → γ → δ → Prop}

/-- A world that no stores are in is of no interest. -/
theorem of_matches (h : W.pairs.Matches W.left W.right → Lockstep S n E W x X P) :
    Lockstep S n E W x X P :=
  ⟨fun hW hrun => (h hW.pairs).run hW hrun⟩

theorem mono (h : Lockstep S n E W x X P)
    (hPQ : ∀ W' a b, W.Grows W' → P W'.pairs a b → Q W'.pairs a b) : Lockstep S n E W x X Q := by
  refine ⟨fun hW hrun => ?_⟩
  obtain ⟨W', r', t₂, hgrows, hends, hW', hout⟩ := h.run hW hrun
  refine ⟨W', r', t₂, hgrows, hends, hW', ?_⟩
  cases hout with
  | ok hab => exact .ok (hPQ W' _ _ hgrows hab)
  | error hsub hmatch he => exact .error hsub hmatch he

theorem succ (h : Lockstep S n E W x (fun fuel => X (fuel + 1)) P) : Lockstep S n E W x X P := by
  refine ⟨fun hW hrun => ?_⟩
  obtain ⟨W', r', t₂, hgrows, hends, hW', hout⟩ := h.run hW hrun
  exact ⟨W', r', t₂, hgrows, hends.succ, hW', hout⟩

theorem pure {a : α} {b : β} (h : P W.pairs a b) :
    Lockstep S n E W (Pure.pure a) (fun _ => Pure.pure b) P := by
  refine ⟨fun {s₁ s₂ t₁ r} hW hrun => ?_⟩
  cases hrun
  exact ⟨W, .ok b, s₂, .refl W, .const rfl, hW, .ok h⟩

theorem fail {e e' : ElaborationError} (h : e.Alike W.pairs e') :
    Lockstep S n E W (Check.fail e) (fun _ => Check.fail e') P := by
  refine ⟨fun {s₁ s₂ t₁ r} hW hrun => ?_⟩
  cases hrun
  exact ⟨W, .error e', s₂, .refl W, .const rfl, hW, .error (fun _ _ => id) hW.pairs h⟩

theorem bind (hx : Lockstep S n E W x X P)
    (hf : ∀ W' a b, W.Grows W' → P W'.pairs a b → Lockstep S n E W' (f a) (F · b) R) :
    Lockstep S n E W (x >>= f) (fun fuel => X fuel >>= F fuel) R := by
  refine ⟨fun {s₁ s₂ t₁ r} hW hrun => ?_⟩
  rw [bind_apply] at hrun
  cases hxs : x.run s₁ with
  | none => rw [hxs] at hrun; cases hrun
  | some result =>
    obtain ⟨outcome, u₁⟩ := result
    rw [hxs] at hrun
    obtain ⟨W', r', u₂, hgrows, hends, hW', hout⟩ := hx.run hW hxs
    cases hout with
    | error hsub hmatch he =>
      cases hrun
      exact ⟨W', _, u₂, hgrows, hends.bind_error, hW', .error hsub hmatch he⟩
    | ok hab =>
      obtain ⟨W'', r'', t₂, hgrows', hends', hW'', hout⟩ := (hf W' _ _ hgrows hab).run hW' hrun
      exact ⟨W'', r'', t₂, hgrows.trans hgrows', hends.bind_ok hends', hW'', hout⟩

theorem bind_still {P : α → β → Prop} (hx : Lockstep S n E W x X (W.still P))
    (hf : ∀ l r a b, W.Grows (W.advance l r) → P a b →
      Lockstep S n E (W.advance l r) (f a) (F · b) R) :
    Lockstep S n E W (x >>= f) (fun fuel => X fuel >>= F fuel) R := by
  refine .bind hx fun W' a b hW' hab => ?_
  obtain ⟨pairs, l, r⟩ := W'
  obtain ⟨rfl, hab⟩ := hab
  exact hf l r a b hW' hab

theorem map {P : α → β → Prop} {Q : γ → δ → Prop} {g : α → γ} {g' : β → δ}
    (hx : Lockstep S n E W x X (W.still P)) (hg : ∀ a b, P a b → Q (g a) (g' b)) :
    Lockstep S n E W (g <$> x) (fun fuel => g' <$> X fuel) (W.still Q) := by
  simp only [map_eq_bind]
  exact .bind_still hx fun l r a b _ hab => .pure ⟨rfl, hg a b hab⟩

theorem lift {y : Reduction α} {Y : Nat → Reduction β}
    (h : ∀ {s₁ s₂ t₁ a}, W.Holds S n E s₁ s₂ → y s₁ = some (a, t₁) →
      ∃ W' b t₂, W.Grows W' ∧ (∃ N, ∀ fuel, N ≤ fuel → Y fuel s₂ = some (b, t₂)) ∧
        W'.Holds S n E t₁ t₂ ∧ P W'.pairs a b) :
    Lockstep S n E W (liftM y) (fun fuel => liftM (Y fuel)) P := by
  refine ⟨fun {s₁ s₂ t₁ r} hW hrun => ?_⟩
  cases r with
  | error e => exact absurd hrun lift_ne_error
  | ok a =>
    obtain ⟨W', b, t₂, hgrows, ⟨N, hN⟩, hW', hab⟩ := h hW (lift_eq_ok.1 hrun)
    exact ⟨W', .ok b, t₂, hgrows, ⟨N, fun fuel hfuel => lift_eq_ok.2 (hN fuel hfuel)⟩, hW', .ok hab⟩

/-- What happens in a derived scope is forgotten on both sides, and no more variables are paired
afterwards. -/
theorem locally {P : α → β → Prop} (h : Lockstep S n E W x X fun _ => P) :
    Lockstep S n E W (Check.locally x) (fun fuel => Check.locally (X fuel)) (W.still P) := by
  refine ⟨fun {s₁ s₂ t₁ r} hW hrun => ?_⟩
  obtain ⟨u₁, hu₁, rfl⟩ := Reduction.locally_eq_some.1 hrun
  obtain ⟨W', r', u₂, hgrows, hends, hW', hout⟩ := h.run hW.derive hu₁
  refine ⟨W.advance W'.left W'.right, r', _, World.grows_advance hgrows.left hgrows.right,
    hends.locally, hW.restore hgrows hW'.left hW'.right, ?_⟩
  cases hout with
  | ok hab => exact .ok ⟨rfl, hab⟩
  | error hsub hmatch he =>
    exact .error (fun x y hxy => hsub x y (hgrows.pairs x y hxy)) hmatch he

/-! ## What reduction does -/

variable {t t' : Term} {Γ Γ' : Context} {b c : Binding}

theorem mint_bind {name : String} {f : Binding → Check γ} {F : Nat → Binding → Check δ}
    (h : Lockstep S n E (W.mint name) (f ⟨W.left, name⟩) (F · ⟨W.right, name⟩) R) :
    Lockstep S n E W (liftM (Reduction.mint name) >>= f)
      (fun fuel => liftM (Reduction.mint name) >>= F fuel) R := by
  refine ⟨fun {s₁ s₂ t₁ r} hW hrun => ?_⟩
  have hmint : ∀ s : Store, (liftM (Reduction.mint name) : Check Binding).run s =
      some (.ok (s.supply.mint name).1, { s with supply := (s.supply.mint name).2 }) := fun _ => rfl
  have hb : ∀ {s : Store} {m : Nat}, s.supply.next = m → (s.supply.mint name).1 = ⟨m, name⟩ := by
    rintro s m rfl
    rfl
  rw [bind_apply, hmint] at hrun
  replace hrun : (f (s₁.supply.mint name).1).run _ = some (r, t₁) := hrun
  rw [hb hW.left] at hrun
  obtain ⟨W', r', t₂, hgrows, hends, hW', hout⟩ := h.run (hW.mint name) hrun
  refine ⟨W', r', t₂, (W.grows_mint name).trans hgrows, .bind_ok (.const (hmint s₂)) ?_, hW', hout⟩
  rw [hb hW.right]
  exact hends

theorem whnf (fuel : Nat) (ht : t.Alike W.pairs t') :
    Lockstep S n E W (liftM (whnf fuel t)) (fun fuel => liftM (DepLang.whnf fuel t'))
      (W.still (Term.Alike W.pairs)) := by
  refine .lift fun {s₁ s₂ t₁ u} hW hrun => ?_
  have hn := normalizes_of_whnf hrun
  obtain ⟨u', t₂, hn', hT, huu⟩ := hn.twin hW.twins ht
  obtain ⟨l, r, hgrows, hW'⟩ := hW.of_twins hT hn.ages.supply hn'.ages.supply
  exact ⟨W.advance l r, u', t₂, hgrows, hn'.runs, hW', rfl, huu⟩

theorem peelLets (fuel : Nat) (ht : t.Alike W.pairs t') :
    Lockstep S n E W (liftM (peelLets fuel t)) (fun fuel => liftM (DepLang.peelLets fuel t'))
      fun R r r' => Telescope.Alike W.pairs r.1 r'.1 R ∧ r.2.Alike R r'.2 := by
  refine .lift fun {s₁ s₂ t₁ r} hW hrun => ?_
  have hp := peels_of_peelLets hrun
  obtain ⟨peeled', u', t₂, R', hp', htel, hfresh, hT, huu⟩ := hp.twin hW.twins ht
  refine ⟨⟨R', t₁.supply.next, t₂.supply.next⟩, (peeled', u'), t₂,
    ⟨htel.subset, fun x y hxy => ?_, hW.left ▸ hp.supply_le, hW.right ▸ hp'.supply_le⟩, hp'.runs,
    ⟨hT, rfl, rfl⟩, htel, huu⟩
  rw [← hW.left, ← hW.right]
  exact hfresh x y hxy

theorem peelLets_bind (fuel : Nat) (ht : t.Alike W.pairs t') {f : Telescope × Term → Check γ}
    {F : Nat → Telescope × Term → Check δ}
    (h : ∀ W' peeled peeled' u u', W.Grows W' → Telescope.Alike W.pairs peeled peeled' W'.pairs →
      u.Alike W'.pairs u' → Lockstep S n E W' (f (peeled, u)) (F · (peeled', u')) R) :
    Lockstep S n E W (liftM (DepLang.peelLets fuel t) >>= f)
      (fun fuel => liftM (DepLang.peelLets fuel t') >>= F fuel) R :=
  .bind (.peelLets fuel ht) fun W' (peeled, u) (peeled', u') hW' hr =>
    h W' peeled peeled' u u' hW' hr.1 hr.2

theorem headUnderLets (fuel : Nat) (ht : t.Alike W.pairs t') :
    Lockstep S n E W (liftM (headUnderLets fuel t))
      (fun fuel => liftM (DepLang.headUnderLets fuel t')) Term.Alike := by
  have hhead : ∀ (fuel : Nat) (t : Term), (liftM (DepLang.headUnderLets fuel t) : Check Term) =
      (do return (← DepLang.peelLets fuel t).2 : Check Term) := by
    intro fuel t
    rw [DepLang.headUnderLets, liftM_bind]
    simp
  simp only [hhead]
  exact .bind (.peelLets fuel ht) fun W' r r' _ hr => .pure hr.2

theorem mapM {g : Term → Reduction Term} {G : Nat → Term → Reduction Term}
    (hg : ∀ W t t', t.Alike W.pairs t' →
      Lockstep S n E W (liftM (g t)) (fun fuel => liftM (G fuel t')) Term.Alike)
    {ty ty' : Option Term} (hty : Option.Rel (Term.Alike W.pairs) ty ty') :
    Lockstep S n E W (liftM (ty.mapM g : Reduction (Option Term)))
      (fun fuel => liftM (ty'.mapM (G fuel) : Reduction (Option Term)))
      fun R => Option.Rel (Term.Alike R) := by
  have hsome : ∀ (g : Term → Reduction Term) (t : Term),
      (liftM ((some t).mapM g : Reduction (Option Term)) : Check (Option Term)) =
        (do return some (← g t) : Check (Option Term)) := by
    intro g t
    have hmap : ((some t).mapM g : Reduction (Option Term)) = some <$> g t := rfl
    rw [hmap, liftM_map, map_eq_bind]
  cases hty with
  | none => exact .pure .none
  | some hty =>
    simp only [hsome]
    exact .bind (hg _ _ _ hty) fun W' _ _ _ h => .pure (.some h)

theorem typeOf (hΓ : Context.Alike W Γ Γ') (hbc : W.pairs b c) :
    Lockstep S n E W (typeOf Γ b) (fun _ => Check.typeOf Γ' c) (W.still (Term.Alike W.pairs)) := by
  have hdef : Lockstep S n E W (liftM (Reduction.definition? b))
      (fun _ => liftM (Reduction.definition? c))
      (W.still (Option.Rel fun d e : Definition => d.ty.Alike W.pairs e.ty)) := by
    refine .lift fun {s₁ s₂ t₁ d} hW hrun => ?_
    obtain ⟨rfl, rfl⟩ := Reduction.definition?_eq_some.1 hrun
    exact ⟨W, _, s₂, .refl W, ⟨0, fun _ _ => rfl⟩, hW, rfl,
      rel_mono (hW.twins.entries b c hbc) fun _ _ h => h.1⟩
  refine .bind_still hdef fun l r d e hW' hde => ?_
  cases hde with
  | some hty => exact .pure ⟨rfl, hty⟩
  | none =>
    have hrel := hΓ.types b c hbc
    simp only [Scope.get]
    cases hA : Γ.lookup b with
    | none =>
      cases hB : Γ'.lookup c with
      | none => exact .fail (.notInScope hbc)
      | some B => rw [hA, hB] at hrel; cases hrel
    | some A =>
      cases hB : Γ'.lookup c with
      | none => rw [hA, hB] at hrel; cases hrel
      | some B =>
        rw [hA, hB, Option.rel_some_some] at hrel
        exact .pure ⟨rfl, hrel⟩

theorem insert_bind (hΓ : Context.Alike W Γ Γ') (hbc : W.pairs b c) {A B : Term}
    (hAB : A.Alike W.pairs B) {f : Context → Check γ} {F : Nat → Context → Check δ}
    (h : ∀ Δ Δ', Context.Alike W Δ Δ' → Lockstep S n E W (f Δ) (F · Δ') R) :
    Lockstep S n E W (ofScope (Γ.insert b A) >>= f)
      (fun fuel => ofScope (Γ'.insert c B) >>= F fuel) R := by
  refine .of_matches fun hM => ?_
  have hrel := hΓ.types b c hbc
  unfold Scope.insert Scope.contains
  cases hb : Γ.lookup b with
  | none =>
    cases hc : Γ'.lookup c with
    | none => exact h _ _ (hΓ.bind hM hbc hb hc hAB)
    | some C => rw [hb, hc] at hrel; cases hrel
  | some A =>
    cases hc : Γ'.lookup c with
    | none => rw [hb, hc] at hrel; cases hrel
    | some C =>
      exact .bind (P := fun _ _ _ => False) (.fail (.alreadyInScope hbc)) fun _ _ _ _ h => h.elim

/-- Variables that stand for each other are defined on both sides, or on neither. One that is shared
must have had a value at first: it is then defined already. -/
theorem define (hbc : W.pairs b c) (hb : S b → E b ≠ none) {d e : Definition}
    (hty : d.ty.Alike W.pairs e.ty) (hvalue : d.value.Alike W.pairs e.value) :
    Lockstep S n E W (define b d) (fun _ => Check.define c e) (W.still fun _ _ => True) := by
  refine ⟨fun {s₁ s₂ t₁ r} hW hrun => ?_⟩
  cases hd : s₁.definitions.lookup b with
  | some d₀ =>
    obtain ⟨e₀, he, -⟩ := hW.twins.lookup_eq_some hbc hd
    rw [define_of_some hd] at hrun
    cases hrun
    exact ⟨W, _, s₂, .refl W, .const (define_of_some he), hW,
      .error (fun _ _ => id) hW.pairs (.alreadyInScope hbc)⟩
  | none =>
    have he := hW.twins.lookup_eq_none hbc hd
    rw [define_of_none hd] at hrun
    cases hrun
    have hS : ¬ S b := fun hS => hb hS ((hW.twins.memo₁.undefined_iff ⟨rfl, hS⟩).1 hd)
    refine ⟨W, _, _, .refl W, .const (define_of_none he), ⟨?_, hW.left, hW.right⟩,
      .ok ⟨rfl, trivial⟩⟩
    exact hW.twins.define hbc hS hty hvalue (Nat.le_refl _) (Nat.le_refl _)
      (Scope.lookup_bind_self d hd) (Scope.lookup_bind_self e he)
      (fun _ hx => Scope.lookup_bind_of_ne _ _ hx) (fun _ hx => Scope.lookup_bind_of_ne _ _ hx)

end Check.Lockstep

end DepLang
