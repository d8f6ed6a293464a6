import DepLang.Proofs.LetChains

/-!
# Beta, and when arguments are evaluated

A function is applied to the normal form of its argument: `(λ. body) a` is normalised by normalising
`body` with the normal form `a'` of `a` in it. With `a` itself in the body the result can be another
term, since a normaliser does not look into functions and function types: copies of `a` that end up
there stay as they are (`beta_sides_differ`). That is the only difference.

* `Evaluates.fill`: two terms with the same normal form may stand for each other. Whatever they are
  put into, the two normal forms are one normal form with a hole, filled with the one or with the
  other, and the hole is nowhere that a normaliser looks.
* `Evaluates.swaps`: where the two terms are put outside functions and function types only, the
  normal forms are equal.
* `beta_up_to_argument`: so `(λ. body) a` has a normal form exactly if `a` and `body` with `a` in it
  have one, and the two sides are equal exactly if `a` is normal or the hole is never used.
-/
namespace DepLang

namespace Term

/-! ## Substituting through closing -/

theorem ClosedAt.of_substAll {t : Term} {σ : Binding → Term} {k : Nat}
    (h : (t.substAll σ).ClosedAt k) : t.ClosedAt k := by
  induction t generalizing k with
  | bound => exact h
  | free | bool | boolType | type => trivial
  | lam _ ih => exact ih h
  | pi _ _ _ ihA ihB => exact ⟨ihA h.1, ihB h.2⟩
  | app _ _ ihf iha => exact ⟨ihf h.1, iha h.2⟩
  | letIn _ _ _ _ ihA ihv iht => exact ⟨ihA h.1, ihv h.2.1, iht h.2.2⟩

section Closing

variable {σ : Binding → Term} {b : Binding} (hb : σ b = free b)
  (hσ : ∀ c, c ≠ b → (σ c).Over (· ≠ b))
include hb hσ

theorem usage_substAll (t : Term) : (t.substAll σ).usage b = t.usage b := by
  induction t with
  | bound | bool | boolType | type => rfl
  | free c =>
    by_cases hc : c = b
    · rw [hc, substAll, hb]
    · have hfree : (free c).Over (· ≠ b) := hc
      rw [substAll, usage_eq_zero_iff.2 (hσ c hc), usage_eq_zero_iff.2 hfree]
  | lam _ ih => exact ih
  | pi _ _ _ ihA ihB => rw [substAll, usage, usage, ihA, ihB]
  | app _ _ ihf iha => rw [substAll, usage, usage, ihf, iha]
  | letIn _ _ _ _ ihA ihv iht => rw [substAll, usage, usage, ihA, ihv, iht]

theorem substAll_closeAt (k : Nat) (t : Term) :
    (closeAt b k t).substAll σ = closeAt b k (t.substAll σ) := by
  induction t generalizing k with
  | bound | bool | boolType | type => rfl
  | free c =>
    by_cases hc : c = b
    · rw [hc, substAll, hb, closeAt, if_pos rfl, substAll]
    · rw [closeAt, if_neg hc, substAll, closeAt_of_fresh (hσ c hc)]
  | lam _ ih => rw [closeAt, substAll, substAll, closeAt, ih]
  | pi _ _ _ ihA ihB => rw [closeAt, substAll, substAll, closeAt, ihA, ihB]
  | app _ _ ihf iha => rw [closeAt, substAll, substAll, closeAt, ihf, iha]
  | letIn _ _ _ _ ihA ihv iht => rw [closeAt, substAll, substAll, closeAt, ihA, ihv, iht]

/-- A substitution that has nothing to do with the variable of a `let` goes under the `let`. -/
theorem substAll_makeLet (A v t : Term) :
    (makeLet b A v t).substAll σ = makeLet b (A.substAll σ) (v.substAll σ) (t.substAll σ) := by
  unfold makeLet
  rw [usage_substAll hb hσ]
  split
  · rfl
  · rw [substAll, close, close, substAll_closeAt hb hσ]

end Closing

/-! ## Variables that are not used -/

theorem replaceAt_of_not_uses {t : Term} {k : Nat} (h : ¬ t.Uses k) (s : Term) :
    replaceAt s k t = t := by
  induction t generalizing k with
  | bound i => exact if_neg h
  | free | bool | boolType | type => rfl
  | lam _ ih => rw [replaceAt, ih h]
  | pi _ _ _ ihA ihB =>
    obtain ⟨hA, hB⟩ := not_or.1 h
    rw [replaceAt, ihA hA, ihB hB]
  | app _ _ ihf iha =>
    obtain ⟨hf, ha⟩ := not_or.1 h
    rw [replaceAt, ihf hf, iha ha]
  | letIn _ _ _ _ ihA ihv iht =>
    obtain ⟨hA, h⟩ := not_or.1 h
    obtain ⟨hv, ht⟩ := not_or.1 h
    rw [replaceAt, ihA hA, ihv hv, iht ht]

theorem Uses.eq_of_replaceAt_eq {t p q : Term} {k : Nat} (h : t.Uses k)
    (heq : Term.replaceAt p k t = Term.replaceAt q k t) : p = q := by
  induction t generalizing k with
  | bound i =>
    have hik : i = k := h
    rwa [Term.replaceAt, Term.replaceAt, if_pos hik, if_pos hik] at heq
  | free | bool | boolType | type => exact h.elim
  | lam _ ih =>
    injection heq with heq
    exact ih h heq
  | pi _ _ _ ihA ihB =>
    injection heq with _ hA hB
    exact h.elim (ihA · hA) (ihB · hB)
  | app _ _ ihf iha =>
    injection heq with hf ha
    exact h.elim (ihf · hf) (iha · ha)
  | letIn _ _ _ _ ihA ihv iht =>
    injection heq with _ hA hv ht
    exact h.elim (ihA · hA) (Or.elim · (ihv · hv) (iht · ht))

/-- Two terms fill a hole alike if they are equal or if there is no hole. -/
theorem instantiate_eq_instantiate_iff {hole p q : Term} :
    hole.instantiate p = hole.instantiate q ↔ p = q ∨ ¬ hole.Uses 0 := by
  constructor
  · intro heq
    by_cases hu : hole.Uses 0
    · exact .inl (hu.eq_of_replaceAt_eq heq)
    · exact .inr hu
  · rintro (rfl | hu)
    · rfl
    · exact (replaceAt_of_not_uses hu p).trans (replaceAt_of_not_uses hu q).symm

end Term

/-! ## Terms with the same normal form -/

/-- The level is `n` or later, and the variables below `n` are defined as they are by `E`. -/
structure Values.Later (n : Nat) (E : Values) (m : Nat) (F : Values) : Prop where
  le : n ≤ m
  agrees : ∀ b : Binding, b.id < n → F b = E b

namespace Values.Later

variable {n m : Nat} {E F : Values}

theorem define (h : Later n E m F) (name : String) (v : Term) :
    Later n E (m + 1) (F.define ⟨m, name⟩ v) where
  le := Nat.le_succ_of_le h.le
  agrees b hb := by
    have hne : b ≠ ⟨m, name⟩ := by
      rintro rfl
      exact absurd h.le (Nat.not_le.2 hb)
    rw [Values.define_of_ne _ _ hne, h.agrees b hb]

theorem evaluates (h : Later n E m F) (hE : E.Below n) {t u : Term} (ht : t.Below n)
    (htu : Evaluates n E t u) : Evaluates m F t u :=
  htu.elsewhere (fun _ => id) (fun _ hb => Nat.lt_of_lt_of_le hb h.le) h.agrees
    (fun b v _ hv => (hE b v hv).2) ht

end Values.Later

/-- With the definitions `E` of variables below `n`, both `p` and `q` have the normal form `r`. -/
structure Interchangeable (n : Nat) (E : Values) (p q r : Term) : Prop where
  below : E.Below n
  closed_left : p.LocallyClosed
  closed_right : q.LocallyClosed
  below_left : p.Below n
  below_right : q.Below n
  left : Evaluates n E p r
  right : Evaluates n E q r

namespace Interchangeable

variable {n m : Nat} {E F : Values} {p q r : Term}

theorem symm (h : Interchangeable n E p q r) : Interchangeable n E q p r :=
  ⟨h.below, h.closed_right, h.closed_left, h.below_right, h.below_left, h.right, h.left⟩

theorem evaluates (h : Interchangeable n E p q r) (hF : Values.Later n E m F) {u : Term}
    (hu : Evaluates m F p u) : Evaluates m F q u := by
  rw [hu.unique (hF.evaluates h.below h.below_left h.left)]
  exact hF.evaluates h.below h.below_right h.right

theorem below_normal (h : Interchangeable n E p q r) : r.Below n :=
  h.left.confined (fun _ => id) (fun b v _ hv => (h.below b v hv).2) h.below_left

end Interchangeable

/-! ## Holes -/

/-- The values with `p` for the variable `x` in them. -/
def Values.fill (G : Values) (x : Binding) (p : Term) : Values := fun b =>
  (G b).map (Term.substAll (.only x p))

namespace Values

variable {G : Values} {x : Binding} {p : Term}

theorem fill_define (b : Binding) (v : Term) :
    (G.define b v).fill x p = (G.fill x p).define b (v.substAll (.only x p)) := by
  funext c
  by_cases hc : c = b
  · rw [hc, define_self, fill, define_self, Option.map_some]
  · rw [define_of_ne _ _ hc, fill, define_of_ne _ _ hc, fill]

theorem fill_eq_self_of_fresh {b : Binding} (h : ∀ v, G b = some v → v.Over (· ≠ x)) :
    G.fill x p b = G b := by
  unfold fill
  cases hv : G b with
  | none => rfl
  | some v => rw [Option.map_some, Term.substAll_only_of_fresh (h v hv)]

/-- Later values have holes, earlier ones have none. -/
theorem Later.fill {n m : Nat} {E : Values} (h : Later n E m G) (hE : E.Below n) (hx : n ≤ x.id)
    (p : Term) : Later n E m (G.fill x p) where
  le := h.le
  agrees b hb := by
    rw [fill_eq_self_of_fresh, h.agrees b hb]
    intro v hv
    rw [h.agrees b hb] at hv
    exact (hE b v hv).2.ne hx

end Values

/-- The term `T` has the normal form `u` if its hole is filled with `p`. With `q` it has the same
normal form up to what fills the hole, which is nowhere that a normaliser looks. -/
def KeepsHole (p q : Term) (x : Binding) (m : Nat) (G : Values) (T u : Term) : Prop :=
  ∃ U : Term, u = U.substAll (.only x p) ∧
    Evaluates m (G.fill x q) (T.substAll (.only x q)) (U.substAll (.only x q)) ∧
    U.Inert fun c => c = x ∨ (G c).isSome = true

namespace Interchangeable

variable {n m : Nat} {E G : Values} {p q r : Term} {x : Binding}

theorem inert (h : Interchangeable n E p q r) (hx : n ≤ x.id) (hG : Values.Later n E m G) :
    r.Inert fun c => c = x ∨ (G c).isSome = true := by
  refine h.left.inert.mono h.below_normal fun c hc hD => ?_
  rcases hD with rfl | hD
  · exact absurd hx (Nat.not_le.2 hc)
  · rwa [← hG.agrees c hc]

/-- The hole itself: it is filled with terms that have the same normal form, which has no hole. -/
theorem hole (h : Interchangeable n E p q r) (hx : n ≤ x.id) (hG : Values.Later n E m G)
    {u : Term} (hu : Evaluates m (G.fill x p) ((Term.free x).substAll (.only x p)) u) :
    KeepsHole p q x m G (.free x) u := by
  have hfresh : r.Over (· ≠ x) := h.below_normal.ne hx
  rw [Term.substAll, Term.only_self] at hu
  have hur : u = r :=
    hu.unique ((hG.fill h.below hx p).evaluates h.below h.below_left h.left)
  refine ⟨r, ?_, ?_, h.inert hx hG⟩
  · rw [hur, Term.substAll_only_of_fresh hfresh]
  · rw [Term.substAll, Term.only_self, Term.substAll_only_of_fresh hfresh]
    exact (hG.fill h.below hx q).evaluates h.below h.below_right h.right

theorem keepsHole (h : Interchangeable n E p q r) (hx : n ≤ x.id) (hG : Values.Later n E m G)
    {T u : Term} (hu : Evaluates m (G.fill x p) (T.substAll (.only x p)) u)
    (hrest : T ≠ .free x → KeepsHole p q x m G T u) : KeepsHole p q x m G T u := by
  by_cases hT : T = .free x
  · subst hT
    exact h.hole hx hG hu
  · exact hrest hT

end Interchangeable

namespace Term

variable {x : Binding} {p T : Term}

theorem substAll_only_makeLet {b : Binding} (hb : b ≠ x) (hp : p.Over (· ≠ b)) (A v t : Term) :
    (makeLet b A v t).substAll (only x p) =
      makeLet b (A.substAll (only x p)) (v.substAll (only x p)) (t.substAll (only x p)) := by
  refine substAll_makeLet (only_of_ne p hb) (fun c hc => ?_) A v t
  unfold only
  split
  · exact hp
  · exact hc

theorem substAll_only_free {c : Binding} (hc : free c ≠ free x) :
    (free c).substAll (only x p) = free c :=
  only_of_ne p fun e => hc (congrArg free e)

/-! What a term is once its hole is filled, it is without that, unless it is the hole. -/

theorem eq_of_substAll_eq_free (hT : T ≠ free x) {b : Binding}
    (h : T.substAll (only x p) = free b) : T = free b := by
  cases T with
  | free c => rwa [substAll_only_free hT] at h
  | _ => cases h

theorem eq_of_substAll_eq_app (hT : T ≠ free x) {f a : Term}
    (h : T.substAll (only x p) = app f a) :
    ∃ F A, T = app F A ∧ f = F.substAll (only x p) ∧ a = A.substAll (only x p) := by
  cases T with
  | free c =>
    rw [substAll_only_free hT] at h
    cases h
  | app F A =>
    cases h
    exact ⟨F, A, rfl, rfl, rfl⟩
  | _ => cases h

theorem eq_of_substAll_eq_letIn (hT : T ≠ free x) {name : String} {ty v body : Term}
    (h : T.substAll (only x p) = letIn name ty v body) :
    ∃ A V B, T = letIn name A V B ∧ ty = A.substAll (only x p) ∧ v = V.substAll (only x p) ∧
      body = B.substAll (only x p) := by
  cases T with
  | free c =>
    rw [substAll_only_free hT] at h
    cases h
  | letIn _ A V B =>
    cases h
    exact ⟨A, V, B, rfl, rfl, rfl, rfl⟩
  | _ => cases h

theorem isStable_of_substAll (hT : T ≠ free x) (h : (T.substAll (only x p)).isStable = true) :
    T.isStable = true := by
  cases T with
  | free c =>
    rw [substAll_only_free hT] at h
    cases h
  | _ => exact h

theorem isStable_substAll (h : T.isStable = true) (σ : Binding → Term) :
    (T.substAll σ).isStable = true := by
  cases T with
  | bound | free | app | letIn => cases h
  | lam | pi | bool | boolType | type => rfl

namespace Inert

variable {D : Binding → Prop}

theorem of_isStable (h : T.isStable = true) : T.Inert D := by
  cases T with
  | bound | free | app | letIn => cases h
  | lam | pi | bool | boolType | type => trivial

theorem ne_free (h : T.Inert D) {b : Binding} (hb : D b) : T ≠ free b := by
  rintro rfl
  exact h hb

theorem eq_of_substAll_eq_lam (h : T.Inert D) (hx : D x) {body : Term}
    (heq : T.substAll (only x p) = lam body) :
    ∃ B, T = lam B ∧ body = B.substAll (only x p) := by
  have hstable := isStable_of_substAll (h.ne_free hx) (congrArg isStable heq)
  cases T with
  | lam B =>
    cases heq
    exact ⟨B, rfl, rfl⟩
  | bound | free | app | letIn => cases hstable
  | pi | bool | boolType | type => cases heq

end Inert

end Term

namespace KeepsHole

variable {p q : Term} {x : Binding} {m : Nat} {G : Values}

theorem undefined {b : Binding} (hb : G.fill x p b = none) (hx : Term.free b ≠ .free x) :
    KeepsHole p q x m G (.free b) (.free b) := by
  have hGb : G b = none := Option.map_eq_none_iff.1 hb
  refine ⟨.free b, (Term.substAll_only_free hx).symm, ?_, fun hD => ?_⟩
  · rw [Term.substAll_only_free hx]
    exact .undefined (by rw [Values.fill, hGb, Option.map_none])
  · rcases hD with rfl | hD
    · exact hx rfl
    · rw [hGb] at hD
      cases hD

theorem defined {b : Binding} {V u : Term} (hV : G b = some V) (hx : Term.free b ≠ .free x)
    (h : KeepsHole p q x m G V u) : KeepsHole p q x m G (.free b) u := by
  obtain ⟨U, hu, hU, hinert⟩ := h
  refine ⟨U, hu, ?_, hinert⟩
  rw [Term.substAll_only_free hx]
  exact .defined (by rw [Values.fill, hV, Option.map_some]) hU

theorem apply (hq : ∀ b, (Term.only x q b).LocallyClosed) {f a body a' u : Term}
    (hf : KeepsHole p q x m G f (.lam body)) (ha : KeepsHole p q x m G a a')
    (hu : ∀ B A : Term, body = B.substAll (.only x p) → a' = A.substAll (.only x p) →
      KeepsHole p q x m G (B.instantiate A) u) : KeepsHole p q x m G (.app f a) u := by
  obtain ⟨L, hlam, hL, hLinert⟩ := hf
  obtain ⟨A, hA, hA', -⟩ := ha
  -- the function is not in the hole, since a normaliser looks at it
  obtain ⟨B, rfl, hB⟩ := hLinert.eq_of_substAll_eq_lam (.inl rfl) hlam.symm
  obtain ⟨U, hu, hU, hinert⟩ := hu B A hB hA
  rw [Term.substAll_instantiate hq] at hU
  exact ⟨U, hu, .apply hL hA' hU, hinert⟩

theorem stuck {f a f' a' : Term} (hf : KeepsHole p q x m G f f') (ha : KeepsHole p q x m G a a')
    (hne : ∀ body, f' ≠ .lam body) : KeepsHole p q x m G (.app f a) (.app f' a') := by
  obtain ⟨L, rfl, hL, hLinert⟩ := hf
  obtain ⟨A, rfl, hA, hAinert⟩ := ha
  refine ⟨.app L A, rfl, .stuck hL hA fun body hbody => ?_, hLinert, hAinert, ?_⟩
  · obtain ⟨B, rfl, -⟩ := hLinert.eq_of_substAll_eq_lam (.inl rfl) hbody
    exact hne _ rfl
  · rintro B rfl
    exact hne _ rfl

theorem letIn {n : Nat} {E : Values} {r : Term} (hpq : Interchangeable n E p q r)
    (hG : Values.Later n E m G) {name : String} (hx : (⟨m, name⟩ : Binding) ≠ x)
    {A V B ty' v' body' : Term} (hA : KeepsHole p q x m G A ty') (hV : KeepsHole p q x m G V v')
    (hB : ∀ V' : Term, v' = V'.substAll (.only x p) →
      KeepsHole p q x (m + 1) (G.define ⟨m, name⟩ V') (B.openWith ⟨m, name⟩) body') :
    KeepsHole p q x m G (.letIn name A V B) (.makeLet ⟨m, name⟩ ty' v' body') := by
  obtain ⟨A', rfl, hA', hAinert⟩ := hA
  obtain ⟨V', rfl, hV', hVinert⟩ := hV
  obtain ⟨B', rfl, hB', hBinert⟩ := hB V' rfl
  have hq := Term.only_locallyClosed (b := x) hpq.closed_right
  rw [Values.fill_define, Term.substAll_openWith hq B (Term.only_of_ne q hx)] at hB'
  refine ⟨.makeLet ⟨m, name⟩ A' V' B', ?_, ?_, ?_⟩
  · rw [Term.substAll_only_makeLet hx (hpq.below_left.ne hG.le)]
  · rw [Term.substAll_only_makeLet hx (hpq.below_right.ne hG.le)]
    exact .letIn hA' hV' hB'
  · obtain ⟨k, hk⟩ := B'.exists_below
    refine .makeLet hAinert hVinert (hBinert.mono hk fun c _ hD => ?_)
    by_cases hc : c = ⟨m, name⟩
    · exact .inr (by rw [hc, Values.define_self, Option.isSome_some])
    · rw [Values.define_of_ne _ _ hc]
      exact hD.resolve_left hc

end KeepsHole

/-- **Holes stay holes.** Fill the hole `x` of a term and of the values with `p`, and normalise.
The normal form is a term with the hole filled with `p`. The same term with the hole filled with `q`
is what one gets with `q` instead, and its hole is nowhere that a normaliser looks. -/
theorem Evaluates.fill {n : Nat} {E : Values} {p q r : Term} (hpq : Interchangeable n E p q r)
    {x : Binding} (hx : n ≤ x.id) {m : Nat} {F : Values} {t u : Term} (h : Evaluates m F t u)
    {G : Values} (hG : Values.Later n E m G) (hm : x.id < m) (hF : F = G.fill x p) {T : Term}
    (ht : t = T.substAll (.only x p)) : KeepsHole p q x m G T u := by
  have hp := Term.only_locallyClosed (b := x) hpq.closed_left
  have hq := Term.only_locallyClosed (b := x) hpq.closed_right
  -- in every case the term is the hole itself, or it has the shape that it has when filled
  induction h generalizing G T with
  | stable hst =>
    subst hF ht
    refine hpq.keepsHole hx hG (.stable hst) fun hT => ?_
    have hstable := Term.isStable_of_substAll hT hst
    exact ⟨T, rfl, .stable (Term.isStable_substAll hstable _), .of_isStable hstable⟩
  | undefined hb =>
    subst hF
    refine hpq.keepsHole hx hG (ht ▸ .undefined hb) fun hT => ?_
    obtain rfl := Term.eq_of_substAll_eq_free hT ht.symm
    exact .undefined hb hT
  | defined hb hv ih =>
    subst hF
    refine hpq.keepsHole hx hG (ht ▸ .defined hb hv) fun hT => ?_
    obtain rfl := Term.eq_of_substAll_eq_free hT ht.symm
    obtain ⟨V, hV, rfl⟩ := Option.map_eq_some_iff.1 hb
    exact .defined hV hT (ih hG hm rfl rfl)
  | apply hf ha hu ihf iha ihu =>
    subst hF
    refine hpq.keepsHole hx hG (ht ▸ .apply hf ha hu) fun hT => ?_
    obtain ⟨F', A, rfl, hF', hA⟩ := Term.eq_of_substAll_eq_app hT ht.symm
    refine .apply hq (ihf hG hm rfl hF') (iha hG hm rfl hA) fun B A' hB hA' => ?_
    exact ihu hG hm rfl (by rw [hB, hA', Term.substAll_instantiate hp])
  | stuck hf ha hne ihf iha =>
    subst hF
    refine hpq.keepsHole hx hG (ht ▸ .stuck hf ha hne) fun hT => ?_
    obtain ⟨F', A, rfl, hF', hA⟩ := Term.eq_of_substAll_eq_app hT ht.symm
    exact .stuck (ihf hG hm rfl hF') (iha hG hm rfl hA) hne
  | @letIn m F name ty ty' v v' body body' hty hv hbody ihty ihv ihbody =>
    subst hF
    refine hpq.keepsHole hx hG (ht ▸ .letIn hty hv hbody) fun hT => ?_
    obtain ⟨A, V, B, rfl, hA, hV, rfl⟩ := Term.eq_of_substAll_eq_letIn hT ht.symm
    have hb : (⟨m, name⟩ : Binding) ≠ x := by
      rintro rfl
      exact Nat.lt_irrefl _ hm
    refine .letIn hpq hG hb (ihty hG hm rfl hA) (ihv hG hm rfl hV) fun V' hV' => ?_
    exact ihbody (hG.define name V') (Nat.lt_succ_of_lt hm) (by rw [hV', Values.fill_define])
      (Term.substAll_openWith hp B (Term.only_of_ne p hb)).symm

theorem Interchangeable.instantiate {n : Nat} {E : Values} {p q r : Term}
    (hpq : Interchangeable n E p q r) (hE : ∀ b v, E b = some v → v.LocallyClosed) {body u : Term}
    (hlc : body.ClosedAt 1) (hbody : body.Below n) (h : Evaluates n E (body.instantiate p) u) :
    ∃ hole : Term, hole.ClosedAt 1 ∧ (hole.Inert fun b => (E b).isSome = true) ∧
      u = hole.instantiate p ∧ Evaluates n E (body.instantiate q) (hole.instantiate q) := by
  -- the hole is a variable of its own, at the level `n`; normal forms are the same one level up
  let x : Binding := ⟨n, "hole"⟩
  have hlater : Values.Later n E (n + 1) E := ⟨Nat.le_succ n, fun _ _ => rfl⟩
  have hfresh : body.Over (· ≠ x) := hbody.ne (Nat.le_refl n)
  have hfill : ∀ s, E.fill x s = E := fun s =>
    funext fun b => Values.fill_eq_self_of_fresh fun v hv => (hpq.below b v hv).2.ne (Nat.le_refl n)
  have hup := hlater.evaluates hpq.below (hbody.instantiate hpq.below_left) h
  obtain ⟨U, rfl, hU, hinert⟩ := hup.fill hpq (Nat.le_refl n) hlater (Nat.lt_succ_self n)
    (hfill p).symm (Term.instantiate_eq_substAll hfresh hpq.closed_left)
  have hUlc : U.LocallyClosed :=
    .of_substAll (h.locallyClosed hE (hlc.instantiate hpq.closed_left))
  rw [hfill, ← Term.instantiate_eq_substAll hfresh hpq.closed_right] at hU
  refine ⟨U.close x, hUlc.close x, hinert.closeAt 0, ?_, ?_⟩
  · rw [Term.instantiate_close hUlc]
  · rw [Term.instantiate_close hUlc]
    exact hU.elsewhere (fun _ => Nat.lt_succ_of_lt) (fun _ => id) (fun _ _ => rfl)
      (fun b v _ hv => (hpq.below b v hv).2) (hbody.instantiate hpq.below_right)

/-! ## Outside functions -/

namespace Term

/-- The variable `index` binders up occurs in no function and in no function type. -/
def OutsideFunctions (index : Nat) : Term → Prop
  | lam body => ¬ Uses (index + 1) body
  | pi _ domain codomain => ¬ (Uses index domain ∨ Uses (index + 1) codomain)
  | app function argument => OutsideFunctions index function ∧ OutsideFunctions index argument
  | letIn _ ty value body =>
    OutsideFunctions index ty ∧ OutsideFunctions index value ∧ OutsideFunctions (index + 1) body
  | bound _ | free _ | bool _ | boolType | type => True

/-- The second term is the first with `q` for some copies of `p`, none of them in a function or a
function type. -/
inductive Swaps (p q : Term) : Term → Term → Prop where
  | here : Swaps p q p q
  | same (t : Term) : Swaps p q t t
  | app {f f' a a' : Term} : Swaps p q f f' → Swaps p q a a' → Swaps p q (.app f a) (.app f' a')
  | letIn (name : String) {A A' v v' t t' : Term} : Swaps p q A A' → Swaps p q v v' →
      Swaps p q t t' → Swaps p q (.letIn name A v t) (.letIn name A' v' t')

variable {p q : Term}

theorem Swaps.replaceAt {t u : Term} (h : Swaps p q t u) (hp : p.LocallyClosed)
    (hq : q.LocallyClosed) (s : Term) (k : Nat) :
    Swaps p q (Term.replaceAt s k t) (Term.replaceAt s k u) := by
  induction h generalizing k with
  | here =>
    rw [ClosedAt.replaceAt_eq hp s (Nat.zero_le k), ClosedAt.replaceAt_eq hq s (Nat.zero_le k)]
    exact .here
  | same t => exact .same _
  | app _ _ ihf iha => exact .app (ihf k) (iha k)
  | letIn name _ _ _ ihA ihv iht => exact .letIn name (ihA k) (ihv k) (iht (k + 1))

theorem Swaps.of_not_uses {t : Term} {k : Nat} (h : ¬ t.Uses k) (p q : Term) :
    Swaps p q (Term.replaceAt p k t) (Term.replaceAt q k t) := by
  rw [replaceAt_of_not_uses h, replaceAt_of_not_uses h]
  exact .same t

theorem OutsideFunctions.swaps {t : Term} {k : Nat} (h : t.OutsideFunctions k) (p q : Term) :
    Swaps p q (Term.replaceAt p k t) (Term.replaceAt q k t) := by
  induction t generalizing k with
  | bound i =>
    by_cases hi : i = k
    · rw [Term.replaceAt, Term.replaceAt, if_pos hi, if_pos hi]
      exact .here
    · refine .of_not_uses ?_ p q
      exact hi
  | free | bool | boolType | type => exact .same _
  | lam | pi =>
    refine .of_not_uses ?_ p q
    exact h
  | app _ _ ihf iha => exact .app (ihf h.1) (iha h.2)
  | letIn name _ _ _ ihA ihv iht => exact .letIn name (ihA h.1) (ihv h.2.1) (iht h.2.2)

end Term

/-- **Outside functions the order does not matter.** What has the same normal form may be exchanged
where a normaliser looks: the normal form is the same. -/
theorem Evaluates.swaps {n : Nat} {E : Values} {p q r : Term} (hpq : Interchangeable n E p q r)
    {m : Nat} {F : Values} {t t' u : Term} (h : Evaluates m F t t') (hF : Values.Later n E m F)
    (hs : Term.Swaps p q t u) : Evaluates m F u t' := by
  induction h generalizing u with
  | stable hst =>
    cases hs with
    | here => exact hpq.evaluates hF (.stable hst)
    | same => exact .stable hst
    | app | letIn => cases hst
  | undefined hb =>
    cases hs with
    | here => exact hpq.evaluates hF (.undefined hb)
    | same => exact .undefined hb
  | defined hb hv =>
    cases hs with
    | here => exact hpq.evaluates hF (.defined hb hv)
    | same => exact .defined hb hv
  | apply hf ha hu ihf iha =>
    cases hs with
    | here => exact hpq.evaluates hF (.apply hf ha hu)
    | same => exact .apply hf ha hu
    | app hff haa => exact .apply (ihf hF hff) (iha hF haa) hu
  | stuck hf ha hne ihf iha =>
    cases hs with
    | here => exact hpq.evaluates hF (.stuck hf ha hne)
    | same => exact .stuck hf ha hne
    | app hff haa => exact .stuck (ihf hF hff) (iha hF haa) hne
  | letIn hty hv hbody ihty ihv ihbody =>
    cases hs with
    | here => exact hpq.evaluates hF (.letIn hty hv hbody)
    | same => exact .letIn hty hv hbody
    | letIn _ htt hvv hbb =>
      exact .letIn (ihty hF htt) (ihv hF hvv)
        (ihbody (hF.define _ _) (hbb.replaceAt hpq.closed_left hpq.closed_right _ 0))

/-! ## Beta -/

theorem evaluates_app_lam {n : Nat} {E : Values} {body a u : Term} :
    Evaluates n E (.app (.lam body) a) u ↔
      ∃ a', Evaluates n E a a' ∧ Evaluates n E (body.instantiate a') u := by
  constructor
  · intro h
    cases h with
    | stable hst => cases hst
    | apply hf ha hu =>
      cases hf with
      | stable => exact ⟨_, ha, hu⟩
    | stuck hf _ hne =>
      cases hf with
      | stable => exact absurd rfl (hne body)
  · rintro ⟨a', ha, hu⟩
    exact .apply (.stable rfl) ha hu

theorem Store.isSome_values (s : Store) (b : Binding) :
    (s.values b).isSome = (s.definitions.lookup b).isSome :=
  Option.isSome_map

section Stores

variable {definitions : Definitions} {n : Nat} {t u : Term}
  (hs : Store.WellScoped ⟨definitions, ⟨n⟩⟩)
include hs

theorem Evaluates.gives (h : Evaluates n (Store.values ⟨definitions, ⟨n⟩⟩) t u) (ht : t.Below n)
    (hlc : t.LocallyClosed) : definitions.Gives n t u := by
  have hself := Term.Alike.refl_same ht
  obtain ⟨w, s, hrun⟩ := h.normalizes hs.memoized_minted hself hlc
  obtain rfl := (hrun.alike_of_evaluates hs.memoized_minted hself hlc h).eq_of_same
  obtain ⟨N, hN⟩ := hrun.runs
  exact ⟨N, n, s, Nat.le_refl n, hN N (Nat.le_refl N)⟩

theorem Definitions.gives_iff_evaluates (ht : t.Below n) (hlc : t.LocallyClosed) :
    definitions.Gives n t u ↔ Evaluates n (Store.values ⟨definitions, ⟨n⟩⟩) t u :=
  ⟨fun h => h.evaluates hs ht hlc, fun h => h.gives hs ht hlc⟩

theorem Evaluates.interchangeable (h : Evaluates n (Store.values ⟨definitions, ⟨n⟩⟩) t u)
    (ht : t.Below n) (hlc : t.LocallyClosed) :
    Interchangeable n (Store.values ⟨definitions, ⟨n⟩⟩) u t u := by
  have hbelow := hs.tracks.below
  have hu : u.Below n :=
    h.confined (fun _ => id) (fun b v _ hv => (hbelow b v hv).2) ht
  have hulc : u.LocallyClosed := h.locallyClosed hs.memoized_minted.closed hlc
  have hinert := h.inert
  simp only [Store.isSome_values] at hinert
  obtain ⟨m, -, hrun⟩ := hinert.normalizes (s := ⟨definitions, ⟨n⟩⟩) hu
  obtain ⟨u', hu', halike⟩ := hrun.evaluates hs.memoized_minted (.refl_same hu) hulc
  exact ⟨hbelow, hulc, hlc, hu, ht, halike.eq_of_same ▸ hu', h⟩

end Stores

/-- The two sides of beta differ: with nothing defined, `(λ. λ. 1) ((λ. 0) true)` becomes `λ. true`,
and `λ. 1` with the argument put in is a function already, with the argument as it is. -/
theorem beta_sides_differ :
    let body : Term := .lam (.bound 1)
    let a : Term := .app (.lam (.bound 0)) (.bool true)
    body.ClosedAt 1 ∧ a.LocallyClosed ∧
      whnf 3 (.app (.lam body) a) {} = some (.lam (.bool true), {}) ∧
      whnf 3 (body.instantiate a) {} = some (.lam a, {}) ∧ Term.lam (.bool true) ≠ .lam a := by
  refine ⟨by decide, by decide, rfl, rfl, by decide⟩

/-- **Beta, up to the argument.** Take definitions whose values have no dangling indices, and the
body of a function and an argument without them too; no types are assumed, and nothing need be
defined. The function applied to the argument has a normal form exactly if the argument and the body
with the argument in it have one. The two normal forms are then one normal form with a hole, in
which there is the normal form of the argument on the one side and the argument itself on the other,
and the hole stands in functions and function types only. They are equal exactly if the argument is
normal or there is no hole; they are equal if the variable of the body occurs in no function and no
function type of it. -/
theorem beta_up_to_argument {definitions : Definitions} {n : Nat}
    (hs : Store.WellScoped ⟨definitions, ⟨n⟩⟩) {body a : Term} (hbody : body.ClosedAt 1)
    (ha : a.LocallyClosed) (hbodyn : body.Below n) (han : a.Below n) :
    ((∃ left, definitions.Gives n (.app (.lam body) a) left) ↔
      (∃ a', definitions.Gives n a a') ∧ ∃ right, definitions.Gives n (body.instantiate a) right) ∧
    ∀ a' left right, definitions.Gives n a a' → definitions.Gives n (.app (.lam body) a) left →
      definitions.Gives n (body.instantiate a) right →
      (∃ hole : Term, hole.ClosedAt 1 ∧
        (hole.Inert fun b => (definitions.lookup b).isSome = true) ∧
        left = hole.instantiate a' ∧ right = hole.instantiate a ∧
        (left = right ↔ a' = a ∨ ¬ hole.Uses 0)) ∧
      (body.OutsideFunctions 0 → left = right) := by
  have hclosed := hs.memoized_minted.closed
  have happ : (Term.app (.lam body) a).Below n ∧ (Term.app (.lam body) a).LocallyClosed :=
    ⟨⟨hbodyn, han⟩, hbody, ha⟩
  have hinst : (body.instantiate a).Below n ∧ (body.instantiate a).LocallyClosed :=
    ⟨hbodyn.instantiate han, hbody.instantiate ha⟩
  simp only [Definitions.gives_iff_evaluates hs han ha,
    Definitions.gives_iff_evaluates hs happ.1 happ.2,
    Definitions.gives_iff_evaluates hs hinst.1 hinst.2]
  refine ⟨⟨?_, ?_⟩, ?_⟩
  · rintro ⟨left, hleft⟩
    obtain ⟨a', ha', hleft⟩ := evaluates_app_lam.1 hleft
    obtain ⟨hole, -, -, -, hright⟩ :=
      (ha'.interchangeable hs han ha).instantiate hclosed hbody hbodyn hleft
    exact ⟨⟨a', ha'⟩, _, hright⟩
  · rintro ⟨⟨a', ha'⟩, right, hright⟩
    obtain ⟨hole, -, -, -, hleft⟩ :=
      (ha'.interchangeable hs han ha).symm.instantiate hclosed hbody hbodyn hright
    exact ⟨_, evaluates_app_lam.2 ⟨a', ha', hleft⟩⟩
  · intro a' left right ha' hleft hright
    have hsame := ha'.interchangeable hs han ha
    obtain ⟨a₂, ha₂, hleft⟩ := evaluates_app_lam.1 hleft
    obtain rfl := ha'.unique ha₂
    obtain ⟨hole, hholelc, hinert, rfl, hfilled⟩ := hsame.instantiate hclosed hbody hbodyn hleft
    obtain rfl := hright.unique hfilled
    simp only [Store.isSome_values] at hinert
    refine ⟨⟨hole, hholelc, hinert, rfl, rfl, Term.instantiate_eq_instantiate_iff⟩, fun hout => ?_⟩
    exact (hleft.swaps hsame ⟨Nat.le_refl n, fun _ _ => rfl⟩ (hout.swaps a' a)).unique hright

/-- `x` is used outside a function and inside one. Inside, the argument `f true` is left as it is if
it is put in before it is normalised. -/
theorem beta_up_to_argument_twice :
    let f : Binding := ⟨0, "f"⟩
    let g : Binding := ⟨1, "g"⟩
    let definitions : Definitions := {
      inner := [(f, ⟨.lam (.bound 0), .pi "x" .boolType .boolType⟩)] }
    let body : Term := .app (.app (.free g) (.bound 0)) (.lam (.bound 1))
    let a : Term := .app (.free f) (.bool true)
    let result : Term → Term := fun s => .app (.app (.free g) (.bool true)) (.lam s)
    Store.WellScoped ⟨definitions, ⟨2⟩⟩ ∧ body.ClosedAt 1 ∧ a.LocallyClosed ∧ body.Below 2 ∧
      a.Below 2 ∧ definitions.Gives 2 a (.bool true) ∧
      definitions.Gives 2 (.app (.lam body) a) (result (.bool true)) ∧
      definitions.Gives 2 (body.instantiate a) (result a) ∧
      ∃ hole : Term, hole.ClosedAt 1 ∧
        (hole.Inert fun b => (definitions.lookup b).isSome = true) ∧
        result (.bool true) = hole.instantiate (.bool true) ∧ result a = hole.instantiate a ∧
        (result (.bool true) = result a ↔ .bool true = a ∨ ¬ hole.Uses 0) := by
  intro f g definitions body a result
  have hs : Store.WellScoped ⟨definitions, ⟨2⟩⟩ := by
    refine ⟨fun b d hd => ?_, fun b d hd => ?_, fun b d hd => ?_⟩
    · rw [(Scope.lookup_singleton hd).1]
      decide
    · rw [(Scope.lookup_singleton hd).2]
      exact Nat.zero_lt_one
    · rw [(Scope.lookup_singleton hd).2]
      trivial
  have hbody : body.ClosedAt 1 := by decide
  have ha : a.LocallyClosed := by decide
  have hbodyn : body.Below 2 := ⟨⟨Nat.one_lt_two, trivial⟩, trivial⟩
  have han : a.Below 2 := ⟨Nat.zero_lt_two, trivial⟩
  have hnormal : definitions.Gives 2 a (.bool true) := ⟨3, 2, _, Nat.le_refl 2, rfl⟩
  have hleft : definitions.Gives 2 (.app (.lam body) a) (result (.bool true)) :=
    ⟨4, 2, _, Nat.le_refl 2, rfl⟩
  have hright : definitions.Gives 2 (body.instantiate a) (result a) :=
    ⟨5, 2, _, Nat.le_refl 2, rfl⟩
  exact ⟨hs, hbody, ha, hbodyn, han, hnormal, hleft, hright,
    ((beta_up_to_argument hs hbody ha hbodyn han).2 _ _ _ hnormal hleft hright).1⟩

end DepLang
