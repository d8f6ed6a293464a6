import DepLang.Equality
import DepLang.Proofs.Normalization

/-!
# Comparing terms is sound

If `equate` answers `true`, the two terms are convertible with the definitions that the store had at
the start. Neither term has to be typed, and nothing at all is asked of the types that the
comparison is guided by: a wrong type can make it fail or answer `false`, but not answer `true`
where it should not.

The proof has one lemma for each rule function. Each says of a run that ends what `Compared` states:
the store keeps what it knows of tracked variables, and if the answer is positive, terms over these
variables are convertible. Rules are written against the comparison of parts of terms, so the
lemmas assume that it is sound (`Comparison.Sound`), and an induction on the fuel discharges that.

Three things happen to variables on the way.

* Under a binder, the terms are opened with a new variable, which is tracked from then on.
* The `let`s around the two terms are moved into the store. Their variables are tracked with their
  values, which says nothing new about the terms outside (`Extension.conservative`).
* The `let`s around a type are moved into the store too, and stay untracked.
-/
namespace DepLang

open Check

/-- The term has no dangling index, and its variables are in `S`. -/
structure Term.Within (S : Binding → Prop) (t : Term) : Prop where
  closed : t.LocallyClosed
  vars : t.Over S

namespace Term

variable {S T : Binding → Prop} {t A v body : Term} {name : String}

theorem within_app {f a : Term} : (app f a).Within S ↔ f.Within S ∧ a.Within S :=
  ⟨fun h => ⟨⟨h.closed.1, h.vars.1⟩, h.closed.2, h.vars.2⟩,
    fun h => ⟨⟨h.1.closed, h.2.closed⟩, h.1.vars, h.2.vars⟩⟩

theorem within_pi : (pi name A body).Within S ↔ A.Within S ∧ (lam body).Within S :=
  ⟨fun h => ⟨⟨h.closed.1, h.vars.1⟩, h.closed.2, h.vars.2⟩,
    fun h => ⟨⟨h.1.closed, h.2.closed⟩, h.1.vars, h.2.vars⟩⟩

theorem within_letIn :
    (letIn name A v body).Within S ↔ A.Within S ∧ v.Within S ∧ (lam body).Within S :=
  ⟨fun h => ⟨⟨h.closed.1, h.vars.1⟩, ⟨h.closed.2.1, h.vars.2.1⟩, h.closed.2.2, h.vars.2.2⟩,
    fun h => ⟨⟨h.1.closed, h.2.1.closed, h.2.2.closed⟩, h.1.vars, h.2.1.vars, h.2.2.vars⟩⟩

namespace Within

theorem mono (h : t.Within S) (hST : ∀ c, S c → T c) : t.Within T :=
  ⟨h.closed, h.vars.mono hST⟩

theorem instantiate (h : (lam body).Within S) (ht : t.Within S) : (body.instantiate t).Within S :=
  ⟨ClosedAt.instantiate h.closed ht.closed, Over.instantiate h.vars ht.vars⟩

theorem openWith (h : (lam body).Within S) (b : Binding) :
    (body.openWith b).Within fun c => c = b ∨ S c :=
  instantiate (h.mono fun _ => .inr) ⟨trivial, .inl rfl⟩

end Within

end Term

theorem Reduces.within {S : Binding → Prop} {E : Values} {s : Store} {t u : Term}
    (h : Reduces E t u) (hs : Tracks S E s) (ht : t.Within S) : u.Within S :=
  ⟨h.locallyClosed.2, hs.reduct_over h ht.vars⟩

/-! ## More definitions -/

/-- `F` defines more than `E` does, but says nothing new about terms over `S`. -/
structure Extension (S : Binding → Prop) (E : Values) (T : Binding → Prop) (F : Values) : Prop where
  subset : ∀ b, S b → T b
  mono : ∀ {t u : Term}, Convertible E t u → Convertible F t u
  conservative : ∀ {t u : Term}, t.Over S → u.Over S → Convertible F t u → Convertible E t u

namespace Extension

variable {S T U : Binding → Prop} {E F G : Values}

theorem refl (S : Binding → Prop) (E : Values) : Extension S E S E :=
  ⟨fun _ h => h, fun h => h, fun _ _ h => h⟩

theorem trans (h₁ : Extension S E T F) (h₂ : Extension T F U G) : Extension S E U G where
  subset b hb := h₂.subset b (h₁.subset b hb)
  mono h := h₂.mono (h₁.mono h)
  conservative ht hu h :=
    h₁.conservative ht hu (h₂.conservative (ht.mono h₁.subset) (hu.mono h₁.subset) h)

theorem define {s : Store} (hs : Tracks S E s) {b : Binding} (hb : s.supply.next ≤ b.id) {v : Term}
    (hv : v.Within S) : Extension S E (fun c => c = b ∨ S c) (E.define b v) where
  subset _ := .inr
  mono h := h.define_mono (hs.below.fresh hb).1 v
  conservative ht hu h :=
    h.forget (hs.below.fresh hb) hv.closed (hs.over_ne hv.vars hb) (hs.over_ne ht hb)
      (hs.over_ne hu hb)

end Extension

/-- Defines the variables of a telescope. -/
def Values.enter (E : Values) (peeled : Telescope) : Values :=
  peeled.foldl (fun E entry => E.define entry.1 entry.2.value) E

/-- Peeling a term over tracked variables: the variables of its `let`s can be tracked too, and the
term is convertible with the head behind them. -/
theorem Peels.extension {t u : Term} {peeled : Telescope} {s s' : Store} (h : Peels t s peeled u s')
    {S : Binding → Prop} {E : Values} (hs : Tracks S E s) (ht : t.Within S) :
    ∃ T, Extension S E T (E.enter peeled) ∧ Tracks T (E.enter peeled) s' ∧ u.Within T ∧
      Convertible (E.enter peeled) t u := by
  induction h generalizing S E with
  | head h _ =>
    have hr := h.reduces hs ht.closed ht.vars
    exact ⟨S, .refl S E, h.tracks hs, hr.within hs ht, hr.convertible hs.below⟩
  | @peel t ty v body u name b peeled s s₁ s₂ h hb _ ih =>
    have hr := h.reduces hs ht.closed ht.vars
    have hlet := hr.within hs ht
    have hs₁ := h.tracks hs
    obtain ⟨-, hv, hbody⟩ := Term.within_letIn.1 hlet
    subst hb
    have hdef := Extension.define hs₁ (b := (s₁.supply.mint name).1) (Nat.le_refl _) hv
    obtain ⟨T, hext, hs₂, hu, hconv⟩ :=
      ih (hs₁.enter name (d := ⟨v, ty⟩) hv.vars (.refl hv.closed)) (hbody.openWith _)
    refine ⟨T, hdef.trans hext, hs₂, hu, ?_⟩
    have hunfold : Convertible (E.define (s₁.supply.mint name).1 v)
        (body.openWith (s₁.supply.mint name).1) (body.instantiate v) :=
      .instantiate_right hbody.closed (.delta (Values.define_self ..) hv.closed)
    have hzeta : Convertible E t (body.instantiate v) :=
      (hr.convertible hs.below).trans (.zeta hlet.closed)
    exact (hext.mono ((hdef.mono hzeta).trans hunfold.symm)).trans hconv

/-! ## What a comparison guarantees -/

/-- What holds of a comparison of `lhs` with `rhs` from `s` to `s'`. If it finds them to be the
`same`, they are convertible. -/
structure Compared (lhs rhs : Term) (s s' : Store) (same : Prop) : Prop where
  keeps : s.Keeps s'
  sound : same → ∀ {S : Binding → Prop} {E : Values}, Tracks S E s → lhs.Within S →
    rhs.Within S → Convertible E lhs rhs

namespace Compared

variable {lhs rhs f f' a a' : Term} {s s₁ s₂ : Store} {same same' : Prop}

theorem undecided (h : s.Keeps s₁) (hsame : ¬ same) : Compared lhs rhs s s₁ same :=
  ⟨h, fun h => absurd h hsame⟩

theorem refl {t : Term} (h : s.Keeps s₁) : Compared t t s s₁ same :=
  ⟨h, fun _ _ _ _ ht _ => .refl ht.closed⟩

theorem weaken (h : Compared lhs rhs s s₁ same) (hsame : same' → same) :
    Compared lhs rhs s s₁ same' :=
  ⟨h.keeps, fun hs => h.sound (hsame hs)⟩

theorem after (h₁ : s.Keeps s₁) (h₂ : Compared lhs rhs s₁ s₂ same) : Compared lhs rhs s s₂ same :=
  ⟨h₁.trans h₂.keeps, fun hsame _ _ hs => h₂.sound hsame (h₁.tracks hs)⟩

theorem before (h₁ : Compared lhs rhs s s₁ same) (h₂ : s₁.Keeps s₂) : Compared lhs rhs s s₂ same :=
  ⟨h₁.keeps.trans h₂, h₁.sound⟩

theorem restore (h : Compared lhs rhs s.derive s₁ same) :
    Compared lhs rhs s { s₁ with definitions := s.definitions } same :=
  ⟨h.keeps.restore, fun hsame _ _ hs => h.sound hsame hs.derive⟩

theorem app (hf : Compared f f' s s₁ same) (ha : Compared a a' s₁ s₂ same') :
    Compared (.app f a) (.app f' a') s s₂ (same ∧ same') := by
  refine ⟨hf.keeps.trans ha.keeps, fun hsame S E hs hl hr => ?_⟩
  obtain ⟨hl₁, hl₂⟩ := Term.within_app.1 hl
  obtain ⟨hr₁, hr₂⟩ := Term.within_app.1 hr
  exact .app (hf.sound hsame.1 hs hl₁ hr₁) (ha.sound hsame.2 (hf.keeps.tracks hs) hl₂ hr₂)

end Compared

/-- A comparison whose positive answers are right. -/
def Comparison.Sound (equal : Comparison) : Prop :=
  ∀ {Γ : Context} {lhs rhs : Term} {ty : Option Term} {s s' : Store} {same : Bool},
    (equal Γ lhs rhs ty).run s = some (.ok same, s') → Compared lhs rhs s s' (same = true)

/-- Bodies compared at one new variable are convertible at all of them. -/
theorem Compared.bodies {t u : Term} {name : String} {s s' : Store} {same : Prop}
    (h : Compared (t.openWith (s.supply.mint name).1) (u.openWith (s.supply.mint name).1)
      { s with supply := (s.supply.mint name).2 } s' same) (hsame : same)
    {S : Binding → Prop} {E : Values} (hs : Tracks S E s) (ht : (Term.lam t).Within S)
    (hu : (Term.lam u).Within S) (b : Binding) : Convertible E (t.openWith b) (u.openWith b) := by
  have hb : E.Fresh (s.supply.mint name).1 := hs.below.fresh (Nat.le_refl _)
  have hs' : Tracks (fun c => c = (s.supply.mint name).1 ∨ S c) E
      { s with supply := (s.supply.mint name).2 } :=
    hs.assume (hs.lookup_eq_none (Nat.le_refl _)) (Nat.le_succ _) (Nat.lt_succ_self _) fun _ => rfl
  exact (h.sound hsame hs' (ht.openWith _) (hu.openWith _)).rename hb
    (hs.over_ne (t := t) ht.vars (Nat.le_refl _)) (hs.over_ne (t := u) hu.vars (Nat.le_refl _)) b

/-! ## The rules -/

section Rules

variable {fuel : Nat} {equal : Comparison} {Γ : Context} {lhs rhs : Term} {s s' : Store}

theorem whnf_keeps {t u : Term} (h : whnf fuel t s = some (u, s')) : s.Keeps s' :=
  (normalizes_of_whnf h).keeps

theorem typeOf_eq_ok {b : Binding} {ty : Term} (h : (typeOf Γ b).run s = some (.ok ty, s')) :
    s' = s := by
  unfold typeOf at h
  obtain ⟨d, s₁, hd, h⟩ := bind_eq_ok.1 h
  obtain ⟨rfl, rfl⟩ := Reduction.definition?_eq_some.1 (lift_eq_ok.1 hd)
  split at h
  · exact (pure_eq_ok.1 h).2.symm
  · exact (ofScope_eq_ok.1 h).2.symm

theorem Comparison.Sound.formations (hequal : equal.Sound) {ty : Option Term}
    (h : (compareFormations equal Γ lhs rhs).run s = some (.ok ty, s')) :
    Compared lhs rhs s s' (ty.isSome = true) := by
  unfold compareFormations at h
  split at h
  · rename_i name A B name' A' B'
    obtain ⟨same, s₁, hA, h⟩ := bind_eq_ok.1 h
    have hA := hequal hA
    split at h
    · rename_i hsame
      obtain ⟨b, s₂, hb, h⟩ := bind_eq_ok.1 h
      obtain ⟨rfl, rfl⟩ := Reduction.mint_eq_some.1 (lift_eq_ok.1 hb)
      obtain ⟨same', s₃, hB, h⟩ := bind_eq_ok.1 h
      obtain ⟨t, hinner, rfl⟩ := locally_eq_ok.1 hB
      obtain ⟨rfl, rfl⟩ := pure_eq_ok.1 h
      have hB := (hequal hinner).restore
      refine ⟨(hA.keeps.trans (.mint s₁ name)).trans hB.keeps, ?_⟩
      intro hsome S E hs hl hr
      have hsame' : same' = true := by
        cases same' with
        | true => rfl
        | false => cases hsome
      obtain ⟨hl₁, hl₂⟩ := Term.within_pi.1 hl
      obtain ⟨hr₁, hr₂⟩ := Term.within_pi.1 hr
      exact .pi 0 (hA.sound hsame hs hl₁ hr₁)
        fun b _ => hB.bodies hsame' (hA.keeps.tracks hs) hl₂ hr₂ b
    · obtain ⟨rfl, rfl⟩ := pure_eq_ok.1 h
      exact .undecided hA.keeps (by simp)
  · obtain ⟨rfl, rfl⟩ := pure_eq_ok.1 h
    exact .refl (.refl s)
  · obtain ⟨rfl, rfl⟩ := pure_eq_ok.1 h
    exact .refl (.refl s)
  · obtain ⟨rfl, rfl⟩ := pure_eq_ok.1 h
    exact .undecided (.refl s) (by simp)

/-- The type of the functions does not matter for whether the arguments are equal. -/
theorem Comparison.Sound.arguments (hequal : equal.Sound) {ty a a' : Term} {result : Option Term}
    (h : (compareArguments fuel equal Γ ty a a').run s = some (.ok result, s')) :
    Compared a a' s s' (result.isSome = true) := by
  unfold compareArguments at h
  obtain ⟨t, hinner, rfl⟩ := locally_eq_ok.1 h
  obtain ⟨⟨peeled, head⟩, s₁, hpeel, h⟩ := bind_eq_ok.1 hinner
  have hpeel : Store.Keeps s.derive s₁ := (peels_of_peelLets (lift_eq_ok.1 hpeel)).keeps
  refine Compared.restore (.after hpeel ?_)
  split at h
  · obtain ⟨same, s₂, ha, h⟩ := bind_eq_ok.1 h
    obtain ⟨rfl, rfl⟩ := pure_eq_ok.1 h
    refine (hequal ha).weaken fun hsome => ?_
    cases same with
    | true => rfl
    | false => cases hsome
  · obtain ⟨rfl, rfl⟩ := pure_eq_ok.1 h
    exact .undecided (.refl _) (by simp)

/-- Terms with the same head are compared part by part. The recursion is on the spine. -/
theorem Comparison.Sound.heads (hequal : equal.Sound) {ty : Option Term}
    (h : (compareHeads fuel equal Γ lhs rhs).run s = some (.ok ty, s')) :
    Compared lhs rhs s s' (ty.isSome = true) := by
  induction lhs generalizing rhs ty s s' with
  | pi | boolType | type => exact hequal.formations h
  | bound | lam | letIn => exact absurd h fail_ne_ok
  | bool value =>
    obtain ⟨rfl, rfl⟩ := pure_eq_ok.1 h
    by_cases hrhs : rhs = .bool value
    · subst hrhs
      exact .refl (.refl s)
    · exact .undecided (.refl s) (by simp [hrhs])
  | free b =>
    rw [compareHeads] at h
    split at h
    · rename_i hrhs
      subst hrhs
      obtain ⟨A, s₁, hA, h⟩ := bind_eq_ok.1 h
      obtain ⟨B, s₂, hB, h⟩ := bind_eq_ok.1 h
      obtain ⟨rfl, rfl⟩ := pure_eq_ok.1 h
      obtain rfl := typeOf_eq_ok hA
      exact .refl (whnf_keeps (lift_eq_ok.1 hB))
    · obtain ⟨rfl, rfl⟩ := pure_eq_ok.1 h
      exact .undecided (.refl s) (by simp)
  | app f a ihf _ =>
    unfold compareHeads at h
    split at h
    · obtain ⟨result, s₁, hf, h⟩ := bind_eq_ok.1 h
      have hf := ihf hf
      split at h
      · exact (hf.app (hequal.arguments h)).weaken fun hsome => ⟨rfl, hsome⟩
      · obtain ⟨rfl, rfl⟩ := pure_eq_ok.1 h
        exact .undecided hf.keeps (by simp)
    · obtain ⟨rfl, rfl⟩ := pure_eq_ok.1 h
      exact .undecided (.refl s) (by simp)

theorem Comparison.Sound.spines (hequal : equal.Sound) {ty : Option Term}
    (h : (compareSpines fuel equal Γ lhs rhs).run s = some (.ok ty, s')) :
    Compared lhs rhs s s' (ty.isSome = true) := by
  have hnone : (pure none : Check (Option Term)).run s = some (.ok ty, s') →
      Compared lhs rhs s s' (ty.isSome = true) := by
    intro h
    obtain ⟨rfl, rfl⟩ := pure_eq_ok.1 h
    exact .undecided (.refl s) (by simp)
  unfold compareSpines at h
  split at h
  · split at h
    · exact hequal.heads h
    · exact hnone h
  · exact hnone h

/-- Functions that agree at a new argument are equal. The two sides are given as what they are at
an argument, since one of them need not be written as a function. -/
theorem Comparison.Sound.bodies (hequal : equal.Sound) {name : String} {A B : Term}
    {left right : Binding → Term} {same : Bool}
    (h : (compareBodies equal Γ name A B left right).run s = some (.ok same, s')) :
    s.Keeps s' ∧ (same = true → ∀ {t u : Term} {S : Binding → Prop} {E : Values}, Tracks S E s →
      (Term.lam t).Within S → (Term.lam u).Within S → (∀ b, left b = t.openWith b) →
      (∀ b, right b = u.openWith b) → Convertible E (.lam t) (.lam u)) := by
  unfold compareBodies at h
  obtain ⟨b, s₁, hb, h⟩ := bind_eq_ok.1 h
  obtain ⟨rfl, rfl⟩ := Reduction.mint_eq_some.1 (lift_eq_ok.1 hb)
  obtain ⟨s₂, hinner, rfl⟩ := locally_eq_ok.1 h
  have h := (hequal hinner).restore
  refine ⟨(Store.Keeps.mint s name).trans h.keeps, ?_⟩
  intro hsame t u S E hs ht hu hleft hright
  rw [hleft, hright] at h
  exact .lam 0 fun b _ => h.bodies hsame hs ht hu b

theorem Term.Within.expand {S : Binding → Prop} {t : Term} (ht : t.Within S) :
    (Term.lam (.app t (.bound 0))).Within S ∧
      ∀ b, Term.app t (.free b) = (Term.app t (.bound 0)).openWith b := by
  refine ⟨⟨⟨Term.ClosedAt.mono ht.closed (Nat.zero_le 1), Nat.zero_lt_one⟩, ht.vars, trivial⟩, ?_⟩
  intro b
  have : t.openWith b = t := ht.closed.instantiate_eq _
  show Term.app t (.free b) = .app (t.openWith b) (.free b)
  rw [this]

theorem Comparison.Sound.atType (hequal : equal.Sound) {ty : Term} {same : Bool}
    (h : (compareAt fuel equal Γ lhs rhs ty).run s = some (.ok same, s')) :
    Compared lhs rhs s s' (same = true) := by
  have heads : (do return (← compareHeads fuel equal Γ lhs rhs).isSome : Check Bool).run s =
      some (.ok same, s') → Compared lhs rhs s s' (same = true) := by
    intro h
    obtain ⟨result, s₁, hheads, h⟩ := bind_eq_ok.1 h
    obtain ⟨rfl, rfl⟩ := pure_eq_ok.1 h
    exact hequal.heads hheads
  unfold compareAt at h
  split at h
  · split at h
    · obtain ⟨hkeeps, hsound⟩ := hequal.bodies h
      exact ⟨hkeeps, fun hsame _ _ hs hl hr =>
        hsound hsame hs hl hr (fun _ => rfl) (fun _ => rfl)⟩
    · obtain ⟨hkeeps, hsound⟩ := hequal.bodies h
      refine ⟨hkeeps, fun hsame S E hs hl hr => ?_⟩
      obtain ⟨hr', hexpand⟩ := hr.expand
      exact (hsound hsame hs hl hr' (fun _ => rfl) hexpand).trans (.eta hr.closed)
    · obtain ⟨hkeeps, hsound⟩ := hequal.bodies h
      refine ⟨hkeeps, fun hsame S E hs hl hr => ?_⟩
      obtain ⟨hl', hexpand⟩ := hl.expand
      exact ((hsound hsame hs hr hl' (fun _ => rfl) hexpand).trans (.eta hl.closed)).symm
    · exact heads h
  · exact absurd h fail_ne_ok
  · exact heads h
  · obtain ⟨result, s₁, hheads, h⟩ := bind_eq_ok.1 h
    have hheads := hequal.heads hheads
    split at h
    · exact (hheads.before (hequal h).keeps).weaken fun _ => rfl
    · obtain ⟨rfl, rfl⟩ := pure_eq_ok.1 h
      exact .undecided hheads.keeps (by simp)

theorem Comparison.Sound.normal (hequal : equal.Sound) {ty : Option Term} {same : Bool}
    (h : (compareNormal fuel equal Γ lhs rhs ty).run s = some (.ok same, s')) :
    Compared lhs rhs s s' (same = true) := by
  cases ty with
  | some ty => exact hequal.atType h
  | none =>
    obtain ⟨result, s₁, hheads, h⟩ := bind_eq_ok.1 h
    obtain ⟨rfl, rfl⟩ := pure_eq_ok.1 h
    exact hequal.heads hheads

theorem peels_of_headUnderLets {t u : Term} (h : headUnderLets fuel t s = some (u, s')) :
    ∃ peeled, Peels t s peeled u s' := by
  obtain ⟨⟨peeled, head⟩, s₁, hpeel, h⟩ := Reduction.bind_eq_some.1 h
  obtain ⟨rfl, rfl⟩ := Reduction.pure_eq_some.1 h
  exact ⟨peeled, peels_of_peelLets hpeel⟩

theorem mapM_keeps {f : Term → Reduction Term} {ty ty' : Option Term}
    (hf : ∀ {t u : Term} {s s' : Store}, f t s = some (u, s') → s.Keeps s')
    (h : (ty.mapM f : Reduction (Option Term)) s = some (ty', s')) : s.Keeps s' := by
  cases ty with
  | none =>
    obtain ⟨rfl, rfl⟩ := Reduction.pure_eq_some.1 h
    exact .refl s
  | some ty =>
    obtain ⟨ty', h, -⟩ := Reduction.map_eq_some.1 h
    exact hf h

/-- Reducing both terms and moving the `let`s around them into the store leaves terms that are
convertible exactly if the two are. -/
theorem Comparison.Sound.reduced (hequal : equal.Sound) {ty : Option Term} {same : Bool}
    (h : (compareReduced fuel equal Γ lhs rhs ty).run s = some (.ok same, s')) :
    Compared lhs rhs s s' (same = true) := by
  unfold compareReduced at h
  obtain ⟨lhs₁, s₁, hl, h⟩ := bind_eq_ok.1 h
  obtain ⟨rhs₁, s₂, hr, h⟩ := bind_eq_ok.1 h
  obtain ⟨ty₁, s₃, hty, h⟩ := bind_eq_ok.1 h
  have hl := normalizes_of_whnf (lift_eq_ok.1 hl)
  have hr := normalizes_of_whnf (lift_eq_ok.1 hr)
  have hty := mapM_keeps whnf_keeps (lift_eq_ok.1 hty)
  have hbefore := (hl.keeps.trans hr.keeps).trans hty
  -- It is enough to compare the normal forms.
  suffices hn : Compared lhs₁ rhs₁ s₃ s' (same = true) by
    refine ⟨hbefore.trans hn.keeps, fun hsame S E hs hlhs hrhs => ?_⟩
    have hs₁ := hl.tracks hs
    have hlr := hl.reduces hs hlhs.closed hlhs.vars
    have hrr := hr.reduces hs₁ hrhs.closed hrhs.vars
    have hconv := hn.sound hsame (hbefore.tracks hs) (hlr.within hs hlhs) (hrr.within hs hrhs)
    exact ((hlr.convertible hs.below).trans hconv).trans (hrr.convertible hs.below).symm
  split at h
  · obtain ⟨t, hinner, rfl⟩ := locally_eq_ok.1 h
    obtain ⟨lhs₂, s₄, hl, h⟩ := bind_eq_ok.1 hinner
    obtain ⟨rhs₂, s₅, hr, h⟩ := bind_eq_ok.1 h
    obtain ⟨ty₂, s₆, hty, h⟩ := bind_eq_ok.1 h
    obtain ⟨_, hl⟩ := peels_of_headUnderLets (lift_eq_ok.1 hl)
    obtain ⟨_, hr⟩ := peels_of_headUnderLets (lift_eq_ok.1 hr)
    have hty := mapM_keeps (fun h => (peels_of_headUnderLets h).choose_spec.keeps)
      (lift_eq_ok.1 hty)
    have hn := hequal.normal h
    refine Compared.restore ⟨((hl.keeps.trans hr.keeps).trans hty).trans hn.keeps, ?_⟩
    intro hsame S E hs hlhs hrhs
    -- The variables of the terms are tracked, first those on the left and then those on the right.
    obtain ⟨T, hST, hT, hlhs₂, hlconv⟩ := hl.extension hs hlhs
    obtain ⟨U, hTU, hU, hrhs₂, hrconv⟩ :=
      hr.extension hT ⟨hrhs.closed, hrhs.vars.mono hST.subset⟩
    have hconv := hn.sound hsame (hty.tracks hU) ⟨hlhs₂.closed, hlhs₂.vars.mono hTU.subset⟩ hrhs₂
    exact (hST.trans hTU).conservative hlhs.vars hrhs.vars
      (((hTU.mono hlconv).trans hconv).trans hrconv.symm)
  · exact hequal.normal h

end Rules

/-- **Comparing is sound**, with any fuel. -/
theorem equate_sound (fuel : Nat) : (equate fuel).Sound := by
  induction fuel with
  | zero =>
    intro Γ lhs rhs ty s s' same h
    exact absurd h (Reduction.not_exhausted (s := s))
  | succ fuel ih =>
    intro Γ lhs rhs ty s s' same h
    rw [equate] at h
    obtain ⟨result, s₁, hspine, h⟩ := bind_eq_ok.1 h
    have hspine := ih.spines hspine
    split at h
    · exact (hspine.before (ih h).keeps).weaken fun _ => rfl
    · obtain ⟨rfl, rfl⟩ := pure_eq_ok.1 h
      exact hspine.weaken fun _ => rfl
    · exact .after hspine.keeps (ih.reduced h)

/-! ## With the definitions of a store -/

namespace Store

/-- The values that the store gives to variables. -/
def values (s : Store) : Values := fun b => (s.definitions.lookup b).map Definition.value

/-- Definitions are of variables that have been minted. Their values mention only such variables,
and have no dangling index; their types may be anything. -/
structure WellScoped (s : Store) : Prop where
  keys : ∀ b d, s.definitions.lookup b = some d → b.id < s.supply.next
  closed : ∀ b d, s.definitions.lookup b = some d → d.value.LocallyClosed
  below : ∀ b d, s.definitions.lookup b = some d → d.value.Below s.supply.next

theorem WellScoped.tracks {s : Store} (h : s.WellScoped) :
    Tracks (fun b => b.id < s.supply.next) s.values s where
  minted _ hb := hb
  keys := h.keys
  values := by
    intro b v hb
    obtain ⟨d, hd, rfl⟩ := Option.map_eq_some_iff.1 hb
    exact ⟨h.keys b d hd, h.closed b d hd, h.below b d hd⟩
  undefined _ _ he := Option.map_eq_none_iff.1 he
  defined := by
    intro b v hb
    obtain ⟨d, hd, rfl⟩ := Option.map_eq_some_iff.1 hb
    exact ⟨d, hd, .refl (h.closed b d hd)⟩

end Store

theorem Tracks.wellScoped {S : Binding → Prop} {E : Values} {s : Store} (h : Tracks S E s)
    (hS : ∀ b d, s.definitions.lookup b = some d → S b) : s.WellScoped := by
  have hvalue : ∀ b d, s.definitions.lookup b = some d → d.value.Within S := by
    intro b d hd
    cases hE : E b with
    | none =>
      rw [h.undefined b (hS b d hd) hE] at hd
      cases hd
    | some v =>
      obtain ⟨e, he, hr⟩ := h.defined b v hE
      rw [hd] at he
      cases he
      exact hr.within h ⟨(h.values b v hE).2.1, (h.values b v hE).2.2⟩
  exact ⟨h.keys, fun b d hd => (hvalue b d hd).closed,
    fun b d hd => (hvalue b d hd).vars.mono h.minted⟩

namespace Store

theorem WellScoped.of_normalizes {t u : Term} {s s' : Store} (h : s.WellScoped)
    (hn : Normalizes t s u s') : s'.WellScoped := by
  refine (hn.tracks h.tracks).wellScoped fun b d hd => ?_
  obtain ⟨e, he, -⟩ := hn.ages.lookup_eq_some hd
  exact h.keys b e he

theorem WellScoped.minted_of_normalizes {t u : Term} {s s' : Store} (h : s.WellScoped)
    (hn : Normalizes t s u s') (ht : t.Within fun b => b.id < s.supply.next) :
    u.Within fun b => b.id < s'.supply.next := by
  have hu := (hn.reduces h.tracks ht.closed ht.vars).within h.tracks ht
  exact ⟨hu.closed, Term.Below.mono hu.vars hn.ages.supply⟩

theorem WellScoped.lookup_enter_self {s : Store} (h : s.WellScoped) (name : String)
    (d : Definition) : (s.enter name d).definitions.lookup (s.supply.mint name).1 = some d :=
  Scope.lookup_bind_self d (h.tracks.lookup_eq_none (Nat.le_refl _))

theorem WellScoped.of_lookup {s s' : Store} (h : s.WellScoped)
    (hs : s.supply.next ≤ s'.supply.next)
    (hl : ∀ b, s'.definitions.lookup b = s.definitions.lookup b) : s'.WellScoped :=
  (h.tracks.of_lookup hs hl).wellScoped fun b d hd => h.keys b d (hl b ▸ hd)

theorem WellScoped.enter {s : Store} (h : s.WellScoped) (name : String) {v : Term} (ty : Term)
    (hvs : v.Within fun b => b.id < s.supply.next) : (s.enter name ⟨v, ty⟩).WellScoped := by
  refine (h.tracks.enter name (d := ⟨v, ty⟩) hvs.vars (.refl hvs.closed)).wellScoped
    fun b d hd => ?_
  by_cases hb : b = (s.supply.mint name).1
  · exact .inl hb
  · rw [lookup_enter_of_ne s hb] at hd
    exact .inr (h.keys b d hd)

end Store

/-- **Conversion is sound.** Terms that a comparison finds to be equal are equal by beta, delta,
zeta, eta and congruence, with the definitions as they were before the comparison. Their variables
have been minted and they have no dangling index; the context and the type may be anything, and
neither term has to be typed. -/
theorem convertible_of_equate {fuel : Nat} {Γ : Context} {lhs rhs : Term} {ty : Option Term}
    {s : Store} (hs : s.WellScoped) (hl : lhs.LocallyClosed) (hlb : lhs.Below s.supply.next)
    (hr : rhs.LocallyClosed) (hrb : rhs.Below s.supply.next)
    (h : (equate fuel Γ lhs rhs ty).answer? s = some true) : Convertible s.values lhs rhs := by
  obtain ⟨s', h⟩ := answer?_eq_some.1 h
  exact (equate_sound fuel h).sound rfl hs.tracks ⟨hl, hlb⟩ ⟨hr, hrb⟩

/-- Variables `g` and `h` have been minted, and `g` is defined as the identity. -/
def identityStore : Store where
  definitions := { inner := [(⟨0, "g"⟩, ⟨.lam (.bound 0), .pi "x" .boolType .boolType⟩)] }
  supply := ⟨2⟩

theorem identityStore_wellScoped : identityStore.WellScoped := by
  have only : ∀ b d, identityStore.definitions.lookup b = some d →
      b = ⟨0, "g"⟩ ∧ d.value = .lam (.bound 0) := by
    intro b d hd
    by_cases hb : b = ⟨0, "g"⟩
    · subst hb
      cases hd
      exact ⟨rfl, rfl⟩
    · have : (b == (⟨0, "g"⟩ : Binding)) = false := by simpa using hb
      simp [identityStore, Scope.lookup, Scope.frames, List.lookup_cons, this] at hd
  refine ⟨fun b d hd => ?_, fun b d hd => ?_, fun b d hd => ?_⟩
  · rw [(only b d hd).1]
    decide
  · rw [(only b d hd).2]
    decide
  · rw [(only b d hd).2]
    trivial

/-- A `let` around a function that applies `h` and then `g` is `h`: the comparison moves the `let`
into the store, unfolds `g` through it and expands `h` to a function. -/
theorem convertible_of_equate_composed :
    let arrow : Term := .pi "x" .boolType .boolType
    let composed : Term := .letIn "k" arrow (.free ⟨0, "g"⟩)
      (.lam (.app (.bound 1) (.app (.free ⟨1, "h"⟩) (.bound 0))))
    (equate 12 { inner := [(⟨1, "h"⟩, arrow)] } composed (.free ⟨1, "h"⟩) (some arrow)).answer?
        identityStore = some true ∧
      Convertible identityStore.values composed (.free ⟨1, "h"⟩) := by
  intro arrow composed
  have hl : composed.Below identityStore.supply.next := by
    simp [composed, arrow, Term.Below, Term.Over, identityStore]
  have hr : (Term.free ⟨1, "h"⟩).Below identityStore.supply.next := by
    simp [Term.Below, Term.Over, identityStore]
  have hrun : (equate 12 { inner := [(⟨1, "h"⟩, arrow)] } composed (.free ⟨1, "h"⟩)
      (some arrow)).answer? identityStore = some true := by decide +kernel
  exact ⟨hrun, convertible_of_equate identityStore_wellScoped (by decide) hl (by decide) hr hrun⟩

end DepLang
