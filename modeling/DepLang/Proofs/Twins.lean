import DepLang.Proofs.Memoization

/-!
# Runs that keep pace

Two stores are **twins** if they have the same definitions, up to the identities of variables and up
to what they remember. `R` pairs their variables. What the stores remember may differ for the
variables in `S`, which stand for themselves: each store has their value or their normal form, and
`E` gives the values. All other variables that are paired have values that are alike. They come from
binders that both runs have opened, and are remembered at the same time on both sides. Variables
that are not paired do not matter.

* `Normalizes.twin`: terms that are alike normalise to terms that are, and twins stay twins.
* `Peels.twin`: the same for peeling, where the variables of the `let`s are paired too.
* `Peels.runs`: what a derivation says is what a run does with enough fuel. So the second run is
  there whenever the first one is.
-/
namespace DepLang

open Reduction

theorem Store.lookup_next_eq_none {s : Store}
    (hkeys : ∀ b d, s.definitions.lookup b = some d → b.id < s.supply.next) (name : String) :
    s.definitions.lookup ⟨s.supply.next, name⟩ = none :=
  Option.eq_none_iff_forall_ne_some.2 fun d hd => Nat.lt_irrefl _ (hkeys _ d hd)

/-- Two stores with the same definitions, up to identities and up to what is remembered of the
variables in `S`. -/
structure Twins (R : Pairs) (S : Binding → Prop) (n : Nat) (E : Values) (s₁ s₂ : Store) : Prop where
  pairs : R.Matches s₁.supply.next s₂.supply.next
  keys₁ : ∀ b d, s₁.definitions.lookup b = some d → b.id < s₁.supply.next
  keys₂ : ∀ b d, s₂.definitions.lookup b = some d → b.id < s₂.supply.next
  shared : ∀ b, S b → R b b
  memo₁ : Memoized (.same S) n E s₁
  memo₂ : Memoized (.same S) n E s₂
  entries : ∀ b c, R b c → Option.Rel
    (fun d e => d.ty.Alike R e.ty ∧ (¬ S b → d.value.Alike R e.value))
    (s₁.definitions.lookup b) (s₂.definitions.lookup c)

namespace Twins

variable {R : Pairs} {S : Binding → Prop} {n : Nat} {E : Values} {s₁ s₂ s₁' s₂' : Store}

/-! ## What is defined -/

theorem lookup_eq_none (h : Twins R S n E s₁ s₂) {b c : Binding} (hbc : R b c)
    (hb : s₁.definitions.lookup b = none) : s₂.definitions.lookup c = none := by
  have hrel := h.entries b c hbc
  rw [hb] at hrel
  cases hd : s₂.definitions.lookup c with
  | none => rfl
  | some e => rw [hd] at hrel; cases hrel

theorem lookup_eq_some (h : Twins R S n E s₁ s₂) {b c : Binding} (hbc : R b c) {d : Definition}
    (hd : s₁.definitions.lookup b = some d) :
    ∃ e, s₂.definitions.lookup c = some e ∧ d.ty.Alike R e.ty ∧
      (¬ S b → d.value.Alike R e.value) := by
  have hrel := h.entries b c hbc
  rw [hd] at hrel
  cases he : s₂.definitions.lookup c with
  | none => rw [he] at hrel; cases hrel
  | some e =>
    rw [he, Option.rel_some_some] at hrel
    exact ⟨e, rfl, hrel⟩

theorem eq_of_shared (h : Twins R S n E s₁ s₂) {b c : Binding} (hbc : R b c) (hb : S b) : b = c :=
  (h.pairs.unique (h.shared b hb) hbc).1 rfl

theorem shared_iff (h : Twins R S n E s₁ s₂) {b c : Binding} (hbc : R b c) : S b ↔ S c := by
  refine ⟨fun hb => ?_, fun hc => ?_⟩
  · rwa [← h.eq_of_shared hbc hb]
  · have hcb : c = b := (h.pairs.unique (h.shared c hc) hbc).2 rfl
    rwa [← hcb]

theorem not_shared (h : Twins R S n E s₁ s₂) {b : Binding} (hb : s₁.supply.next ≤ b.id) : ¬ S b :=
  fun hS => Nat.not_lt.2 hb (h.memo₁.pairs.left ⟨rfl, hS⟩)

theorem encloses_shared {s : Store} (h : Memoized (.same S) n E s) : s.Encloses S := by
  intro b d hd hb
  obtain ⟨v, -, N, -, halike⟩ := h.recalls ⟨rfl, hb⟩ hd
  exact halike.over_left.mono fun x ⟨_, hx⟩ => hx.2

theorem encloses (h : Twins R S n E s₁ s₂) : s₁.Encloses fun b => ∃ c, R b c := by
  rintro b d hd ⟨c, hbc⟩
  by_cases hS : S b
  · exact (encloses_shared h.memo₁ b d hd hS).mono fun x hx => ⟨x, h.shared x hx⟩
  · obtain ⟨e, -, -, hvalue⟩ := h.lookup_eq_some hbc hd
    exact (hvalue hS).over_left

/-! ## How twins change together -/

theorem of_lookup (h : Twins R S n E s₁ s₂) (hs₁ : s₁.supply.next ≤ s₁'.supply.next)
    (hs₂ : s₂.supply.next ≤ s₂'.supply.next)
    (hl₁ : ∀ b, s₁'.definitions.lookup b = s₁.definitions.lookup b)
    (hl₂ : ∀ b, s₂'.definitions.lookup b = s₂.definitions.lookup b) : Twins R S n E s₁' s₂' where
  pairs := h.pairs.mono hs₁ hs₂
  keys₁ b d hd := Nat.lt_of_lt_of_le (h.keys₁ b d (hl₁ b ▸ hd)) hs₁
  keys₂ b d hd := Nat.lt_of_lt_of_le (h.keys₂ b d (hl₂ b ▸ hd)) hs₂
  shared := h.shared
  memo₁ := h.memo₁.of_lookup hs₁ fun b _ _ => hl₁ b
  memo₂ := h.memo₂.of_lookup hs₂ fun b _ _ => hl₂ b
  entries b c hbc := by
    rw [hl₁, hl₂]
    exact h.entries b c hbc

theorem derive (h : Twins R S n E s₁ s₂) : Twins R S n E s₁.derive s₂.derive :=
  h.of_lookup (Nat.le_refl _) (Nat.le_refl _) s₁.lookup_derive s₂.lookup_derive

theorem mint (h : Twins R S n E s₁ s₂) (name : String) :
    Twins (R.add ⟨s₁.supply.next, name⟩ ⟨s₂.supply.next, name⟩) S n E
      { s₁ with supply := (s₁.supply.mint name).2 }
      { s₂ with supply := (s₂.supply.mint name).2 } where
  pairs := h.pairs.mint name
  keys₁ b d hd := Nat.lt_succ_of_lt (h.keys₁ b d hd)
  keys₂ b d hd := Nat.lt_succ_of_lt (h.keys₂ b d hd)
  shared b hb := .inr (h.shared b hb)
  memo₁ := h.memo₁.of_lookup (Nat.le_succ _) fun _ _ _ => rfl
  memo₂ := h.memo₂.of_lookup (Nat.le_succ _) fun _ _ _ => rfl
  entries := by
    rintro b c (⟨rfl, rfl⟩ | hbc)
    · rw [Store.lookup_next_eq_none h.keys₁, Store.lookup_next_eq_none h.keys₂]
      exact .none
    · exact rel_mono (h.entries b c hbc) fun d e hde =>
        ⟨hde.1.mono fun _ _ => .inr, fun hS => (hde.2 hS).mono fun _ _ => .inr⟩

/-- A variable that is paired and not shared gets a definition on both sides. -/
theorem define (h : Twins R S n E s₁ s₂) {b c : Binding} {d e : Definition} (hbc : R b c)
    (hS : ¬ S b) (hty : d.ty.Alike R e.ty) (hvalue : d.value.Alike R e.value)
    (hs₁ : s₁.supply.next ≤ s₁'.supply.next) (hs₂ : s₂.supply.next ≤ s₂'.supply.next)
    (hself₁ : s₁'.definitions.lookup b = some d) (hself₂ : s₂'.definitions.lookup c = some e)
    (hother₁ : ∀ x, x ≠ b → s₁'.definitions.lookup x = s₁.definitions.lookup x)
    (hother₂ : ∀ x, x ≠ c → s₂'.definitions.lookup x = s₂.definitions.lookup x) :
    Twins R S n E s₁' s₂' where
  pairs := h.pairs.mono hs₁ hs₂
  keys₁ x d' hd' := by
    refine Nat.lt_of_lt_of_le ?_ hs₁
    by_cases hx : x = b
    · rw [hx]
      exact h.pairs.left hbc
    · rw [hother₁ x hx] at hd'
      exact h.keys₁ x d' hd'
  keys₂ x d' hd' := by
    refine Nat.lt_of_lt_of_le ?_ hs₂
    by_cases hx : x = c
    · rw [hx]
      exact h.pairs.right hbc
    · rw [hother₂ x hx] at hd'
      exact h.keys₂ x d' hd'
  shared := h.shared
  memo₁ := h.memo₁.of_lookup hs₁ fun x y hxy => hother₁ x fun e => hS (e ▸ hxy.2)
  memo₂ := h.memo₂.of_lookup hs₂ fun x y hxy =>
    hother₂ x fun e => hS ((h.shared_iff hbc).2 (e ▸ hxy.2))
  entries x y hxy := by
    by_cases hx : x = b
    · subst hx
      obtain rfl : y = c := (h.pairs.unique hxy hbc).1 rfl
      rw [hself₁, hself₂]
      exact .some ⟨hty, fun _ => hvalue⟩
    · rw [hother₁ x hx, hother₂ y (mt (h.pairs.unique hxy hbc).2 hx)]
      exact h.entries x y hxy

theorem enter (h : Twins R S n E s₁ s₂) {name : String} {d e : Definition}
    (hty : d.ty.Alike R e.ty) (hvalue : d.value.Alike R e.value) :
    Twins (R.add ⟨s₁.supply.next, name⟩ ⟨s₂.supply.next, name⟩) S n E (s₁.enter name d)
      (s₂.enter name e) := by
  have hm := h.mint name
  have hb : R.add ⟨s₁.supply.next, name⟩ ⟨s₂.supply.next, name⟩ (s₁.supply.mint name).1
      (s₂.supply.mint name).1 := .inl ⟨rfl, rfl⟩
  refine hm.define hb (h.not_shared (Nat.le_refl _)) (hty.mono fun _ _ => .inr)
    (hvalue.mono fun _ _ => .inr) (Nat.le_refl _) (Nat.le_refl _) ?_ ?_
    (fun _ => Store.lookup_enter_of_ne s₁) (fun _ => Store.lookup_enter_of_ne s₂)
  · exact Scope.lookup_bind_self d (Store.lookup_next_eq_none h.keys₁ name)
  · exact Scope.lookup_bind_self e (Store.lookup_next_eq_none h.keys₂ name)

theorem remember (h : Twins R S n E s₁ s₂) {b c : Binding} (hbc : R b c) (hS : ¬ S b)
    {d : Definition} (hd : s₁.definitions.lookup b = some d) {v w : Term} (hvw : v.Alike R w) :
    Twins R S n E (s₁.remember b v) (s₂.remember c w) := by
  obtain ⟨e, he, hty, -⟩ := h.lookup_eq_some hbc hd
  refine h.define (d := { d with value := v }) (e := { e with value := w }) hbc hS hty hvw
    (by simp) (by simp) ?_ ?_ (fun _ => s₁.lookup_remember_of_ne v)
    (fun _ => s₂.lookup_remember_of_ne w)
  · rw [Store.lookup_remember_self, hd]
    rfl
  · rw [Store.lookup_remember_self, he]
    rfl

/-- A term over the shared variables normalises alike on both sides, whatever is remembered. All
other variables stay out of it. -/
theorem normalizes_shared (h : Twins R S n E s₁ s₂) {t u : Term} (hn : Normalizes t s₁ u s₁')
    (ht : t.Over S) (hlc : t.LocallyClosed) :
    ∃ s₂', Normalizes t s₂ u s₂' ∧ Twins R S n E s₁' s₂' ∧ u.Alike R u := by
  obtain ⟨s₂', hn₂⟩ := hn.shared h.memo₁ h.memo₂ ht hlc
  have hconf₁ := (hn.confined (encloses_shared h.memo₁)).2 ht
  have hconf₂ := (hn₂.confined (encloses_shared h.memo₂)).2 ht
  have hkeys : ∀ {s s' : Store} {t u : Term}, Normalizes t s u s' →
      (∀ b d, s.definitions.lookup b = some d → b.id < s.supply.next) →
      ∀ b d, s'.definitions.lookup b = some d → b.id < s'.supply.next := by
    intro s s' t u hn hkeys b d hd
    obtain ⟨e, he, -⟩ := hn.ages.lookup_eq_some hd
    exact Nat.lt_of_lt_of_le (hkeys b e he) hn.ages.supply
  refine ⟨s₂', hn₂, ⟨h.pairs.mono hn.ages.supply hn₂.ages.supply, hkeys hn h.keys₁,
    hkeys hn₂ h.keys₂, h.shared, hn.memoized h.memo₁, hn₂.memoized h.memo₂, fun b c hbc => ?_⟩,
    .refl hconf₁.1 h.shared⟩
  by_cases hS : S b
  · obtain rfl := h.eq_of_shared hbc hS
    -- The values may have changed; the types have not.
    have hty : Option.Rel (Term.Alike R) ((s₁.definitions.lookup b).map Definition.ty)
        ((s₂.definitions.lookup b).map Definition.ty) :=
      rel_map.2 (rel_mono (h.entries b b hbc) fun _ _ hde => hde.1)
    rw [← hn.ages.types b, ← hn₂.ages.types b] at hty
    exact rel_mono (rel_map.1 hty) fun _ _ hde => ⟨hde, fun hnot => absurd hS hnot⟩
  · rw [hconf₁.2 b hS, hconf₂.2 c (mt (h.shared_iff hbc).2 hS)]
    exact h.entries b c hbc

/-- The value of a `let`, as it is found after the body. It was over the variables that were paired
before the body, and still is. -/
theorem let_value (h : Twins R S n E s₁ s₂) {name : String} {v w A : Term} (hvw : v.Alike R w)
    {t u : Term} (hn : Normalizes t (s₁.derive.enter name ⟨v, A⟩) u s₁')
    (h' : Twins (R.add (s₁.supply.mint name).1 (s₂.supply.mint name).1) S n E s₁' s₂') :
    ((s₁'.definitions.lookup (s₁.supply.mint name).1).elim v Definition.value).Alike R
      ((s₂'.definitions.lookup (s₂.supply.mint name).1).elim w Definition.value) := by
  obtain ⟨d, hd⟩ := hn.exists_let_value
  obtain ⟨e, he, -, hvalue⟩ := h'.lookup_eq_some (.inl ⟨rfl, rfl⟩) hd
  have hconf := (hn.confined (h.encloses.enter hvw.over_left)).1
  obtain ⟨d₀, hd₀, hstay⟩ := hconf.values _ d hd
  rw [Store.lookup_let_self] at hd₀
  cases hd₀
  rw [hd, he]
  refine (hvalue (h.not_shared (Nat.le_refl _))).restrict (hstay hvw.over_left) ?_
  rintro x y hxy ⟨z, hx⟩
  exact Pairs.Matches.of_add hxy (h.pairs.ne_left hx (Nat.le_refl _))

end Twins

/-! ## Normalising keeps pace -/

/-- **Normalising keeps pace.** From twin stores, terms that are alike normalise to terms that
are. -/
theorem Normalizes.twin {t u : Term} {s₁ s₁' : Store} (h : Normalizes t s₁ u s₁') {R : Pairs}
    {S : Binding → Prop} {n : Nat} {E : Values} {s₂ : Store} (hT : Twins R S n E s₁ s₂) {t' : Term}
    (ht : t.Alike R t') :
    ∃ u' s₂', Normalizes t' s₂ u' s₂' ∧ Twins R S n E s₁' s₂' ∧ u.Alike R u' := by
  induction h using Normalizes.induction generalizing R s₂ t' with
  | @layer _ u _ _ _ h =>
    cases h with
    | stable hfree happ hlet =>
      refine ⟨t', s₂, ?_, hT, ht⟩
      cases ht with
      | free => exact absurd rfl (hfree _)
      | app => exact absurd rfl (happ _ _)
      | letIn => cases hlet
      | bound | lam | pi | bool | boolType | type => exact .layer (.stable (by simp) (by simp) rfl)
    | undefined hb =>
      cases ht with
      | free hbc => exact ⟨_, s₂, .layer (.undefined (hT.lookup_eq_none hbc hb)), hT, .free hbc⟩
    | @defined b _ _ _ _ hd hn =>
      cases ht with
      | @free _ c hbc =>
        by_cases hS : S b
        · obtain rfl := hT.eq_of_shared hbc hS
          obtain ⟨s₂', hn₂, hT', hvv⟩ :=
            hT.normalizes_shared (.layer (.defined hd hn.run)) hS trivial
          exact ⟨u, s₂', hn₂, hT', hvv⟩
        · obtain ⟨e, he, -, hvalue⟩ := hT.lookup_eq_some hbc hd
          obtain ⟨w, s₂', hn₂, hT', hvw⟩ := hn.ih hT (hvalue hS)
          have hsome := hn.run.ages.isSome_lookup b
          rw [hd] at hsome
          obtain ⟨d', hd'⟩ := Option.isSome_iff_exists.1 hsome
          exact ⟨w, _, .layer (.defined he hn₂), hT'.remember hbc hS hd' hvw, hvw⟩
    | apply hf ha hu =>
      cases ht with
      | app hft hat =>
        obtain ⟨f', s, hnf, hT₁, hlam⟩ := hf.ih hT hft
        obtain ⟨a', s', hna, hT₂, haa⟩ := ha.ih hT₁ hat
        cases hlam with
        | lam hbody =>
          obtain ⟨u', s'', hnu, hT₃, huu⟩ := hu.ih hT₂ (hbody.instantiate haa)
          exact ⟨u', s'', .layer (.apply hnf hna hnu), hT₃, huu⟩
    | stuck hf ha hne =>
      cases ht with
      | app hft hat =>
        obtain ⟨f', s, hnf, hT₁, hff⟩ := hf.ih hT hft
        obtain ⟨a', s', hna, hT₂, haa⟩ := ha.ih hT₁ hat
        exact ⟨_, s', .layer (.stuck hnf hna (hff.ne_lam hne)), hT₂, .app hff haa⟩
    | @letIn name _ _ A' _ v' _ _ _ _ s₁₂ s₁₃ hA hv hb hbody =>
      cases ht with
      | letIn _ hAt hvt hbt =>
        obtain ⟨B, s₂₁, hnA, hT₁, hAB⟩ := hA.ih hT hAt
        obtain ⟨w, s₂₂, hnv, hT₂, hvw⟩ := hv.ih hT₁ hvt
        subst hb
        let R' := R.add (s₁₂.supply.mint name).1 (s₂₂.supply.mint name).1
        have hin : Twins R' S n E (s₁₂.derive.enter name ⟨v', A'⟩) (s₂₂.derive.enter name ⟨w, B⟩) :=
          hT₂.derive.enter hAB hvw
        obtain ⟨body₂, s₂₃, hnb, hT₃, hbb⟩ := hbody.ih hin (hbt.openWith_add _ _)
        have hle₁ : s₁₂.supply.next ≤ s₁₃.supply.next := Nat.le_of_succ_le hbody.run.ages.supply
        have hle₂ : s₂₂.supply.next ≤ s₂₃.supply.next := Nat.le_of_succ_le hnb.ages.supply
        exact ⟨_, _, .layer (.letIn hnA hnv rfl hnb),
          hT₂.of_lookup hle₁ hle₂ (fun _ => rfl) (fun _ => rfl),
          .makeLet (hT₂.pairs.separates_mint name) (fun _ _ => Pairs.Matches.of_add) rfl hAB
            (hT₂.let_value hvw hbody.run hT₃) hbb⟩

/-- **Peeling keeps pace.** The variables of the `let`s are paired for what is left. -/
theorem Peels.twin {t u : Term} {peeled : Telescope} {s₁ s₁' : Store} (h : Peels t s₁ peeled u s₁')
    {R : Pairs} {S : Binding → Prop} {n : Nat} {E : Values} {s₂ : Store}
    (hT : Twins R S n E s₁ s₂) {t' : Term} (ht : t.Alike R t') :
    ∃ peeled' u' s₂' R', Peels t' s₂ peeled' u' s₂' ∧ Telescope.Alike R peeled peeled' R' ∧
      (∀ x y, R' x y → R x y ∨ s₁.supply.next ≤ x.id ∧ s₂.supply.next ≤ y.id) ∧
      Twins R' S n E s₁' s₂' ∧ u.Alike R' u' := by
  induction h generalizing R s₂ t' with
  | head hn hlet =>
    obtain ⟨u', s₂', hn', hT', huu⟩ := hn.twin hT ht
    exact ⟨[], u', s₂', R, .head hn' (huu.isLet_eq.trans hlet), .nil, fun _ _ => .inl, hT', huu⟩
  | @peel t A v body u name b peeled s₁ s₁₁ s₁₂ hn hb _ ih =>
    subst hb
    obtain ⟨u₂, s₂₁, hn', hT₁, hlet⟩ := hn.twin hT ht
    cases hlet with
    | @letIn _ _ B _ w _ body' hAB hvw hbody =>
      have hin : Twins _ S n E (s₁₁.enter name ⟨v, A⟩) (s₂₁.enter name ⟨w, B⟩) :=
        hT₁.enter hAB hvw
      obtain ⟨peeled', u', s₂', R', hp, htel, hfresh, hT', huu⟩ := ih hin (hbody.openWith_add _ _)
      refine ⟨_, u', s₂', R', .peel hn' rfl hp,
        .cons hAB hvw rfl (hT₁.pairs.separates_mint name) htel, fun x y hxy => ?_, hT', huu⟩
      have hle₁ := hn.ages.supply
      have hle₂ := hn'.ages.supply
      rcases hfresh x y hxy with (⟨rfl, rfl⟩ | hxy) | ⟨hx, hy⟩
      · exact .inr ⟨hle₁, hle₂⟩
      · exact .inl hxy
      · have hx := Nat.le_trans hle₁ (Nat.le_of_succ_le hx)
        have hy := Nat.le_trans hle₂ (Nat.le_of_succ_le hy)
        exact .inr ⟨hx, hy⟩

/-! ## Derivations of peeling are runs -/

/-- A function that takes a step of fuel for itself, and has enough left. -/
theorem enough_fuel_succ {P : Nat → Prop} (N : Nat) (h : ∀ fuel, N ≤ fuel → P (fuel + 1)) :
    ∃ N, ∀ fuel, N ≤ fuel → P fuel :=
  ⟨N + 1, forall_fuel_succ h⟩

/-- With enough fuel, `peelLets` does what a derivation says. -/
theorem Peels.runs {t u : Term} {peeled : Telescope} {s s' : Store} (h : Peels t s peeled u s') :
    ∃ N, ∀ fuel, N ≤ fuel → peelLets fuel t s = some ((peeled, u), s') := by
  induction h with
  | @head t u s s' hn hlet =>
    obtain ⟨N, hN⟩ := hn.runs
    refine enough_fuel_succ N fun fuel hfuel => ?_
    rw [peelLets]
    refine bind_eq_some.2 ⟨_, _, hN fuel (by omega), ?_⟩
    cases u with
    | letIn => cases hlet
    | _ => rfl
  | @peel t A v body u name b peeled s s₁ s₂ hn hb _ ih =>
    obtain ⟨N, hN⟩ := hn.runs
    obtain ⟨N', hrest⟩ := ih
    refine enough_fuel_succ (N + N') fun fuel hfuel => ?_
    subst hb
    rw [peelLets]
    exact bind_eq_some.2 ⟨_, _, hN fuel (by omega), bind_eq_some.2 ⟨_, _,
      mint_eq_some.2 ⟨rfl, rfl⟩, bind_eq_some.2 ⟨(), _, defineFresh_eq_some.2 rfl,
        bind_eq_some.2 ⟨_, _, hrest fuel (by omega), rfl⟩⟩⟩⟩

end DepLang
