import DepLang.Proofs.Evaluation
import DepLang.Proofs.Footprint

/-!
# Remembered values do not show

A store that has remembered some normal forms, whichever, normalises terms as the definitions do
that it started with.

`Memoized R n E s` says that the store `s` holds, for each variable that stands for one of `E`, the
value of that variable or its normal form. `R` pairs the variables of the store with those of `E`,
since the two name the variables of `let`s differently.

* `Term.Inert.runs`: an inert term, which a normal form is, normalises to itself.
* `Normalizes.memoized`: normalising any term leaves such a store.
* `Normalizes.evaluates`: from such a store, a term normalises to the normal form that `E` gives.
* `Evaluates.normalizes`: and it does so whenever `E` gives one.
* `Normalizes.shared`: so two such stores normalise a term alike.
-/
namespace DepLang

open Reduction

/-! ## Runs on what is inert -/

/-- **What is inert comes back as it is**, and the definitions are left alone. A run takes as much
fuel as a normaliser looks deep, which opening a `let` does not change. -/
theorem Term.Inert.runs {n : Nat} {u : Term} {s : Store} {D : Binding → Prop} (h : u.Inert D)
    (hD : ∀ b, (s.definitions.lookup b).isSome = true → D b) (hb : u.Below s.supply.next)
    (hn : u.reach ≤ n) : ∃ m, s.supply.next ≤ m ∧
      ∀ fuel, n ≤ fuel → whnf fuel u s = some (u, { s with supply := ⟨m⟩ }) := by
  induction n generalizing u s D with
  | zero => cases u <;> simp [Term.reach] at hn
  | succ n ih =>
    cases u with
    | bound => exact h.elim
    | lam | pi | bool | boolType | type =>
      exact ⟨_, Nat.le_refl _, forall_fuel_succ fun fuel _ =>
        whnf_of_normalizesBy (.stable (by simp) (by simp) rfl)⟩
    | free b =>
      refine ⟨_, Nat.le_refl _, forall_fuel_succ fun fuel _ =>
        whnf_of_normalizesBy (.undefined ?_)⟩
      cases hd : s.definitions.lookup b with
      | none => rfl
      | some d => exact absurd (hD b (by simp [hd])) h
    | app f a =>
      simp only [Term.reach] at hn
      obtain ⟨m, hm, hf⟩ := ih h.1 hD hb.1 (by omega)
      obtain ⟨m', hm', ha⟩ := ih (s := { s with supply := ⟨m⟩ }) h.2.1 hD (Term.Below.mono hb.2 hm)
        (by omega)
      exact ⟨m', Nat.le_trans hm hm', forall_fuel_succ fun fuel hfuel =>
        whnf_of_normalizesBy (.stuck (hf fuel hfuel) (ha fuel hfuel) h.2.2)⟩
    | letIn name A v body =>
      simp only [Term.reach] at hn
      obtain ⟨m, hm, hA⟩ := ih h.1 hD hb.1 (by omega)
      obtain ⟨m', hm', hv⟩ := ih (s := { s with supply := ⟨m⟩ }) h.2.1 hD
        (Term.Below.mono hb.2.1 hm) (by omega)
      have hle := Nat.le_trans hm hm'
      have hbody := Term.Below.mono hb.2.2 hle
      have hfresh : body.Over (· ≠ ⟨m', name⟩) := hbody.ne (Nat.le_refl m')
      have hopen : (body.openWith ⟨m', name⟩).Below (m' + 1) :=
        Term.Over.openWith (hbody.mono (Nat.le_succ m')) (Nat.lt_succ_self m')
      have hreach : (body.openWith ⟨m', name⟩).reach = body.reach := h.2.2.1.reach_replaceAt _ 0
      let s₂ : Store := { s with supply := ⟨m'⟩ }
      obtain ⟨m'', hm'', hr⟩ := ih (s := s₂.derive.enter name ⟨v, A⟩)
        ((h.2.2.1.define hfresh).replaceAt _ 0) (fun c hc => by
          by_cases hcn : c = ⟨m', name⟩
          · exact .inl hcn
          · rw [Store.lookup_let_of_ne s₂ hcn] at hc
            exact .inr (hD c hc)) hopen (by
          rw [Term.openWith, Term.instantiate] at hreach
          omega)
      refine ⟨m'', Nat.le_trans hle (Nat.le_of_succ_le hm''), forall_fuel_succ fun fuel hfuel => ?_⟩
      have hself : (s₂.derive.enter name ⟨v, A⟩).definitions.lookup ⟨m', name⟩ = some ⟨v, A⟩ :=
        s₂.lookup_let_self name ⟨v, A⟩
      have hlet : whnf (fuel + 1) (.letIn name A v body) s = some (.makeLet ⟨m', name⟩ A
          (((s₂.derive.enter name ⟨v, A⟩).definitions.lookup ⟨m', name⟩).elim v Definition.value)
          (body.openWith ⟨m', name⟩), { s with supply := ⟨m''⟩ }) :=
        whnf_of_normalizesBy (@NormalizesBy.letIn (RunsIn fuel) name _ _ _ _ _ _ _ s _ s₂ _
          (hA fuel hfuel) (hv fuel hfuel) rfl (hr fuel hfuel))
      rwa [hself, Option.elim, Term.makeLet_openWith hfresh h.2.2.2] at hlet

theorem Term.Inert.normalizes {u : Term} {s : Store}
    (h : u.Inert fun b => (s.definitions.lookup b).isSome = true) (hb : u.Below s.supply.next) :
    ∃ m, s.supply.next ≤ m ∧ Normalizes u s u { s with supply := ⟨m⟩ } := by
  obtain ⟨m, hm, hruns⟩ := h.runs (fun _ => id) hb (Nat.le_refl _)
  exact ⟨m, hm, normalizes_of_whnf (hruns _ (Nat.le_refl _))⟩

/-! ## What a store remembers -/

/-- The value is that of a variable of `E`, or the normal form of it. -/
def Recalls (R : Pairs) (n : Nat) (E : Values) (value v : Term) : Prop :=
  ∃ N, (N = v ∨ Evaluates n E v N) ∧ value.Alike R N

/-- The store has, for each variable that stands for one of `E`, its value or its normal form. -/
structure Memoized (R : Pairs) (n : Nat) (E : Values) (s : Store) : Prop where
  pairs : R.Matches s.supply.next n
  closed : ∀ c v, E c = some v → v.LocallyClosed
  paired : ∀ b c v, R b c → E c = some v → v.Over fun y => ∃ x, R x y
  entries : ∀ b c, R b c →
    Option.Rel (fun d v => Recalls R n E d.value v) (s.definitions.lookup b) (E c)

namespace Memoized

variable {R : Pairs} {n : Nat} {E : Values} {s s' : Store}

theorem of_lookup (h : Memoized R n E s) (hs : s.supply.next ≤ s'.supply.next)
    (hl : ∀ b c, R b c → s'.definitions.lookup b = s.definitions.lookup b) : Memoized R n E s' where
  pairs := h.pairs.mono hs (Nat.le_refl n)
  closed := h.closed
  paired := h.paired
  entries b c hbc := by
    rw [hl b c hbc]
    exact h.entries b c hbc

theorem undefined_iff (h : Memoized R n E s) {b c : Binding} (hbc : R b c) :
    s.definitions.lookup b = none ↔ E c = none := by
  have hrel := h.entries b c hbc
  cases hd : s.definitions.lookup b with
  | none => rw [hd] at hrel; cases hE : E c <;> rw [hE] at hrel <;> cases hrel; simp
  | some d => rw [hd] at hrel; cases hE : E c <;> rw [hE] at hrel <;> cases hrel; simp

theorem recalls (h : Memoized R n E s) {b c : Binding} (hbc : R b c) {d : Definition}
    (hd : s.definitions.lookup b = some d) : ∃ v, E c = some v ∧ Recalls R n E d.value v := by
  have hrel := h.entries b c hbc
  rw [hd] at hrel
  cases hE : E c with
  | none => rw [hE] at hrel; cases hrel
  | some v =>
    rw [hE, Option.rel_some_some] at hrel
    exact ⟨v, rfl, hrel⟩

theorem rel_of_recalls (h : Memoized R n E s) {b c : Binding} (hbc : R b c)
    {Q : Definition → Term → Prop}
    (hQ : ∀ d v, E c = some v → Recalls R n E d.value v → Q d v) :
    Option.Rel Q (s.definitions.lookup b) (E c) := by
  cases hd : s.definitions.lookup b with
  | none =>
    rw [(h.undefined_iff hbc).1 hd]
    exact .none
  | some d =>
    obtain ⟨v, hv, hrec⟩ := h.recalls hbc hd
    rw [hv]
    exact .some (hQ d v hv hrec)

/-- The value that a store has is normalised as the one that `E` gives. What was normal before is
normal still. -/
theorem recalls_evaluates (h : Memoized R n E s) {c : Binding} {value v u : Term}
    (hv : E c = some v) (hrec : Recalls R n E value v)
    (hu : ∀ t', value.Alike R t' → t'.LocallyClosed → ∃ u', Evaluates n E t' u' ∧ u.Alike R u') :
    ∃ u', Evaluates n E v u' ∧ u.Alike R u' := by
  obtain ⟨N, hN, halike⟩ := hrec
  rcases hN with rfl | hN
  · exact hu N halike (h.closed c N hv)
  · obtain ⟨u', hu', huu⟩ := hu N halike (hN.locallyClosed h.closed (h.closed c v hv))
    have hbelow : N.Below n := halike.over_right.mono fun y ⟨x, hxy⟩ => h.pairs.right hxy
    have hsame : u' = N := hu'.eq_of_inert (fun _ => id) hN.inert hbelow
    exact ⟨N, hN, hsame ▸ huu⟩

/-- A value may be replaced by the normal form. For a variable that stands for none of `E`, it does
not matter. -/
theorem remember (h : Memoized R n E s) {b : Binding} {value : Term}
    (hvalue : ∀ c v, R b c → E c = some v → ∃ u', Evaluates n E v u' ∧ value.Alike R u') :
    Memoized R n E (s.remember b value) where
  pairs := by simpa using h.pairs
  closed := h.closed
  paired := h.paired
  entries x y hxy := by
    by_cases hxb : x = b
    · subst hxb
      rw [Store.lookup_remember_self]
      cases hd : s.definitions.lookup x with
      | none =>
        rw [(h.undefined_iff hxy).1 hd]
        exact .none
      | some d =>
        obtain ⟨v, hv, -⟩ := h.recalls hxy hd
        obtain ⟨u', hu', halike⟩ := hvalue y v hxy hv
        rw [hv]
        exact .some ⟨u', .inr hu', halike⟩
    · rw [Store.lookup_remember_of_ne _ _ hxb]
      exact h.entries x y hxy

theorem enter (h : Memoized R n E s) {name : String} {v w A : Term} (hvw : v.Alike R w)
    (hw : w.LocallyClosed) :
    Memoized (R.add ⟨s.supply.next, name⟩ ⟨n, name⟩) (n + 1) (E.define ⟨n, name⟩ w)
      (s.derive.enter name ⟨v, A⟩) where
  pairs := h.pairs.mint name
  closed := Values.forall_define hw fun c x _ => h.closed c x
  paired := by
    have hwide : ∀ y, (∃ x, R x y) → ∃ x, R.add ⟨s.supply.next, name⟩ ⟨n, name⟩ x y :=
      fun y ⟨x, hxy⟩ => ⟨x, .inr hxy⟩
    rintro b c x (⟨rfl, rfl⟩ | hbc) hc
    · rw [Values.define_self] at hc
      cases hc
      exact hvw.over_right.mono hwide
    · have hne : c ≠ ⟨n, name⟩ := h.pairs.ne_right hbc (Nat.le_refl n)
      rw [Values.define_of_ne _ _ hne] at hc
      exact (h.paired b c x hbc hc).mono hwide
  entries := by
    rintro b c (⟨rfl, rfl⟩ | hbc)
    · have hself : (s.derive.enter name ⟨v, A⟩).definitions.lookup ⟨s.supply.next, name⟩ =
          some ⟨v, A⟩ := s.lookup_let_self name ⟨v, A⟩
      rw [Values.define_self, hself]
      exact .some ⟨w, .inl rfl, hvw.mono fun _ _ => .inr⟩
    · have hne : c ≠ ⟨n, name⟩ := h.pairs.ne_right hbc (Nat.le_refl n)
      rw [Store.lookup_let_of_ne s (h.pairs.ne_left hbc (Nat.le_refl _)),
        Values.define_of_ne _ _ hne]
      refine h.rel_of_recalls hbc fun d x hx ⟨N, hN, halike⟩ =>
        ⟨N, hN.imp_right fun hN => ?_, halike.mono fun _ _ => .inr⟩
      -- The normal form is over variables that stand for something already.
      refine hN.elsewhere (P := fun y => ∃ x, R x y) (fun y ⟨_, hy⟩ => h.pairs.right hy)
        (fun y ⟨_, hy⟩ => Nat.lt_succ_of_lt (h.pairs.right hy)) (fun y ⟨_, hy⟩ => ?_)
        (fun y z ⟨_, hy⟩ hz => h.paired _ y z hy hz) (h.paired b c x hbc hx)
      exact Values.define_of_ne _ _ (h.pairs.ne_right hy (Nat.le_refl n))

theorem define {S : Binding → Prop} (h : Memoized (.same S) n E s) {b : Binding} {d : Definition}
    (hb : ¬ S b) (hbn : b.id < n) (hvalue : d.value.LocallyClosed) (hover : d.value.Over S)
    (hn : n ≤ s'.supply.next) (hself : s'.definitions.lookup b = some d)
    (hother : ∀ c, c ≠ b → s'.definitions.lookup c = s.definitions.lookup c) :
    Memoized (.same fun c => c = b ∨ S c) n (E.define b d.value) s' := by
  have hwide : ∀ c, S c → ∃ x, Pairs.same (fun c => c = b ∨ S c) x c :=
    fun c hc => ⟨c, rfl, .inr hc⟩
  have hbelow : ∀ c, (c = b ∨ S c) → c.id < n := by
    rintro c (rfl | hc)
    · exact hbn
    · exact h.pairs.right ⟨rfl, hc⟩
  have hne : ∀ c, S c → c ≠ b := fun c hc e => hb (e ▸ hc)
  have hvalues : ∀ c v, S c → E c = some v → v.Over S := fun c v hc hv =>
    (h.paired c c v ⟨rfl, hc⟩ hv).mono fun x ⟨_, hx⟩ => hx.1 ▸ hx.2
  refine ⟨.same (fun c hc => Nat.lt_of_lt_of_le (hbelow c hc) hn) hbelow,
    Values.forall_define hvalue fun c v _ => h.closed c v, ?_, ?_⟩
  · rintro c _ v ⟨rfl, hc⟩ hv
    by_cases hcb : c = b
    · rw [hcb, Values.define_self] at hv
      cases hv
      exact hover.mono hwide
    · rw [Values.define_of_ne _ _ hcb] at hv
      exact (hvalues c v (hc.resolve_left hcb) hv).mono hwide
  · rintro c _ ⟨rfl, hc⟩
    by_cases hcb : c = b
    · rw [hcb, hself, Values.define_self]
      exact .some ⟨d.value, .inl rfl, .refl hover fun x hx => ⟨rfl, .inr hx⟩⟩
    · have hS := hc.resolve_left hcb
      rw [hother c hcb, Values.define_of_ne _ _ hcb]
      refine h.rel_of_recalls ⟨rfl, hS⟩ fun e v hv ⟨N, hN, halike⟩ =>
        ⟨N, hN.imp_right fun hN => ?_, halike.mono fun x y hxy => ⟨hxy.1, .inr hxy.2⟩⟩
      exact hN.elsewhere (fun x hx => hbelow x (.inr hx)) (fun x hx => hbelow x (.inr hx))
        (fun x hx => Values.define_of_ne _ _ (hne x hx)) hvalues (hvalues c v hS hv)

/-- The value of a `let` is normal before its body is entered, and stays what it is. -/
theorem let_value {b : Binding} {name : String} {w : Term} {d : Definition}
    (h : Memoized (R.add b ⟨n, name⟩) (n + 1) (E.define ⟨n, name⟩ w) s) (hw : w.Below n)
    (hinert : w.Inert fun c => (E c).isSome = true) (hd : s.definitions.lookup b = some d) :
    d.value.Alike R w := by
  have hfresh : w.Over (· ≠ ⟨n, name⟩) := hw.ne (Nat.le_refl n)
  obtain ⟨x, hx, N, hN, halike⟩ := h.recalls (.inl ⟨rfl, rfl⟩) hd
  rw [Values.define_self] at hx
  cases hx
  have hsame : N = w := by
    rcases hN with rfl | hN
    · rfl
    · refine hN.eq_of_inert (fun c hc => ?_) (hinert.define hfresh) (hw.mono (Nat.le_succ n))
      by_cases hcn : c = ⟨n, name⟩
      · exact .inl hcn
      · rw [Values.define_of_ne _ _ hcn] at hc
        exact .inr hc
  rw [hsame] at halike
  exact halike.restrict_right hfresh fun _ _ => Pairs.Matches.of_add_right

end Memoized

/-! ## Runs give normal forms -/

namespace Normalizes

variable {R : Pairs} {n : Nat} {E : Values} {t u : Term} {s s' : Store}

/-- What normalisation does to the store and to the term, in one induction: a remembered value has to
be known for the normal form, and a value is looked up to normalise a term. -/
theorem memoized_and_evaluates (h : Normalizes t s u s') (hs : Memoized R n E s) :
    Memoized R n E s' ∧ ∀ t', t.Alike R t' → t'.LocallyClosed →
      ∃ u', Evaluates n E t' u' ∧ u.Alike R u' := by
  induction h using Normalizes.induction generalizing R n E with
  | @layer _ u _ _ _ h =>
    cases h with
    | stable hfree happ hlet =>
      refine ⟨hs, fun t' ht hlc => ⟨t', ?_, ht⟩⟩
      cases ht with
      | bound i => exact absurd hlc (Nat.not_lt_zero i)
      | free => exact absurd rfl (hfree _)
      | app => exact absurd rfl (happ _ _)
      | letIn => cases hlet
      | lam | pi | bool | boolType | type => exact .stable rfl
    | undefined hb =>
      refine ⟨hs, fun t' ht _ => ?_⟩
      cases ht with
      | free hbc => exact ⟨_, .undefined ((hs.undefined_iff hbc).1 hb), .free hbc⟩
    | @defined b _ _ _ _ hd hv =>
      obtain ⟨hs₁, hv⟩ := hv.ih hs
      have hvalue : ∀ c w, R b c → E c = some w → ∃ u', Evaluates n E w u' ∧ u.Alike R u' := by
        intro c w hbc hw
        obtain ⟨w', hw', hrec⟩ := hs.recalls hbc hd
        rw [hw] at hw'
        cases hw'
        exact hs.recalls_evaluates hw hrec hv
      refine ⟨hs₁.remember hvalue, fun t' ht _ => ?_⟩
      cases ht with
      | @free _ c hbc =>
        obtain ⟨w, hw, -⟩ := hs.recalls hbc hd
        obtain ⟨u', hu', halike⟩ := hvalue c w hbc hw
        exact ⟨u', .defined hw hu', halike⟩
    | apply hf ha hu =>
      obtain ⟨hs₁, hf⟩ := hf.ih hs
      obtain ⟨hs₂, ha⟩ := ha.ih hs₁
      obtain ⟨hs₃, hu⟩ := hu.ih hs₂
      refine ⟨hs₃, fun t' ht hlc => ?_⟩
      cases ht with
      | app hff haa =>
        obtain ⟨f', hf', hlam⟩ := hf _ hff hlc.1
        obtain ⟨a', ha', halike⟩ := ha _ haa hlc.2
        cases hlam with
        | lam hbody =>
          have hinst := Term.ClosedAt.instantiate (hf'.locallyClosed hs.closed hlc.1)
            (ha'.locallyClosed hs.closed hlc.2)
          obtain ⟨u', hu', huu⟩ := hu _ (hbody.instantiate halike) hinst
          exact ⟨u', .apply hf' ha' hu', huu⟩
    | stuck hf ha hne =>
      obtain ⟨hs₁, hf⟩ := hf.ih hs
      obtain ⟨hs₂, ha⟩ := ha.ih hs₁
      refine ⟨hs₂, fun t' ht hlc => ?_⟩
      cases ht with
      | app hff haa =>
        obtain ⟨f', hf', hff'⟩ := hf _ hff hlc.1
        obtain ⟨a', ha', haa'⟩ := ha _ haa hlc.2
        exact ⟨_, .stuck hf' ha' (hff'.ne_lam hne), .app hff' haa'⟩
    | @letIn name _ _ ty' _ _ _ _ _ _ s₂ s₃ hty hv hb hbody =>
      obtain ⟨hs₁, hty⟩ := hty.ih hs
      obtain ⟨hs₂, hv⟩ := hv.ih hs₁
      have hle : s₂.supply.next ≤ s₃.supply.next := Nat.le_of_succ_le hbody.run.ages.supply
      refine ⟨hs₂.of_lookup hle fun _ _ _ => rfl, fun t' ht hlc => ?_⟩
      cases ht with
      | letIn _ htyt hvt hbt =>
        obtain ⟨ty₂, hty₂, htyty⟩ := hty _ htyt hlc.1
        obtain ⟨v₂, hv₂, hvv⟩ := hv _ hvt hlc.2.1
        have hv₂lc := hv₂.locallyClosed hs.closed hlc.2.1
        subst hb
        obtain ⟨hs₃, hr⟩ := hbody.ih (hs₂.enter (A := ty') hvv hv₂lc)
        obtain ⟨body₂, hbody₂, hbb⟩ := hr _ (hbt.openWith_add _ _) (hlc.2.2.openWith _)
        refine ⟨_, .letIn hty₂ hv₂ hbody₂, .makeLet (hs₂.pairs.separates_mint name)
          (fun _ _ => Pairs.Matches.of_add) rfl htyty ?_ hbb⟩
        cases hd : s₃.definitions.lookup (s₂.supply.mint name).1 with
        | none => exact hvv
        | some d =>
          have hbelow : v₂.Below n := hvv.over_right.mono fun y ⟨x, hxy⟩ => hs₂.pairs.right hxy
          exact hs₃.let_value hbelow hv₂.inert hd

/-- **Normalising remembers normal forms.** Whatever term is normalised, the store has values or
normal forms afterwards if it had them before. -/
theorem memoized (h : Normalizes t s u s') (hs : Memoized R n E s) : Memoized R n E s' :=
  (h.memoized_and_evaluates hs).1

/-- **Runs give normal forms**, whatever the store remembers. -/
theorem evaluates (h : Normalizes t s u s') (hs : Memoized R n E s) {t' : Term}
    (ht : t.Alike R t') (hlc : t'.LocallyClosed) : ∃ u', Evaluates n E t' u' ∧ u.Alike R u' :=
  (h.memoized_and_evaluates hs).2 t' ht hlc

theorem alike_of_evaluates (h : Normalizes t s u s') (hs : Memoized R n E s) {t' u' : Term}
    (ht : t.Alike R t') (hlc : t'.LocallyClosed) (hu : Evaluates n E t' u') : u.Alike R u' := by
  obtain ⟨u₂, hu₂, halike⟩ := h.evaluates hs ht hlc
  rwa [hu.unique hu₂]

end Normalizes

/-! ## Normal forms are found by runs -/

/-- **Runs find normal forms**, whatever the store remembers. -/
theorem Evaluates.normalizes {n : Nat} {E : Values} {t' u' : Term} (h : Evaluates n E t' u')
    {R : Pairs} {s : Store} (hs : Memoized R n E s) {t : Term} (ht : t.Alike R t')
    (hlc : t'.LocallyClosed) : ∃ u s', Normalizes t s u s' := by
  induction h generalizing R s t with
  | stable hst =>
    refine ⟨t, s, ?_⟩
    cases ht with
    | lam | pi | bool | boolType | type => exact .layer (.stable (by simp) (by simp) rfl)
    | bound | free | app | letIn => cases hst
  | undefined hc =>
    cases ht with
    | free hbc => exact ⟨_, s, .layer (.undefined ((hs.undefined_iff hbc).2 hc))⟩
  | @defined n E c v u' hv hu ih =>
    cases ht with
    | @free b _ hbc =>
      cases hd : s.definitions.lookup b with
      | none => rw [(hs.undefined_iff hbc).1 hd] at hv; cases hv
      | some d =>
        obtain ⟨w, hw, N, hN, halike⟩ := hs.recalls hbc hd
        rw [hv] at hw
        cases hw
        rcases hN with rfl | hN
        · obtain ⟨u, s', hrun⟩ := ih hs halike (hs.closed c N hv)
          exact ⟨u, _, .layer (.defined hd hrun)⟩
        · -- What is remembered is inert, also for the definitions of the store.
          have hinert : d.value.Inert fun b => (s.definitions.lookup b).isSome = true := by
            refine hN.inert.alike halike.symm fun y x hxy hx => ?_
            obtain ⟨e, he⟩ := Option.isSome_iff_exists.1 hx
            obtain ⟨z, hz, -⟩ := hs.recalls hxy he
            simp [hz]
          have hbelow : d.value.Below s.supply.next :=
            halike.over_left.mono fun x ⟨y, hxy⟩ => hs.pairs.left hxy
          obtain ⟨m, -, hself⟩ := hinert.normalizes hbelow
          exact ⟨_, _, .layer (.defined hd hself)⟩
  | apply hf ha _ ihf iha ihu =>
    cases ht with
    | app hff haa =>
      obtain ⟨f₁, s₁, hrunf⟩ := ihf hs hff hlc.1
      have hs₁ := hrunf.memoized hs
      obtain ⟨a₁, s₂, hruna⟩ := iha hs₁ haa hlc.2
      have hs₂ := hruna.memoized hs₁
      have halike := hruna.alike_of_evaluates hs₁ haa hlc.2 ha
      cases hrunf.alike_of_evaluates hs hff hlc.1 hf with
      | lam hbody =>
        have hinst := Term.ClosedAt.instantiate (hf.locallyClosed hs.closed hlc.1)
          (ha.locallyClosed hs.closed hlc.2)
        obtain ⟨u, s₃, hrun⟩ := ihu hs₂ (hbody.instantiate halike) hinst
        exact ⟨u, s₃, .layer (.apply hrunf hruna hrun)⟩
  | stuck hf _ hne ihf iha =>
    cases ht with
    | app hff haa =>
      obtain ⟨f₁, s₁, hrunf⟩ := ihf hs hff hlc.1
      obtain ⟨a₁, s₂, hruna⟩ := iha (hrunf.memoized hs) haa hlc.2
      have hf₁ := hrunf.alike_of_evaluates hs hff hlc.1 hf
      exact ⟨_, s₂, .layer (.stuck hrunf hruna (hf₁.symm.ne_lam hne))⟩
  | @letIn n E name ty ty' v v' body body' hty hv _ ihty ihv ihbody =>
    cases ht with
    | letIn _ htyt hvt hbt =>
      obtain ⟨ty₁, s₁, hrunty⟩ := ihty hs htyt hlc.1
      have hs₁ := hrunty.memoized hs
      obtain ⟨v₁, s₂, hrunv⟩ := ihv hs₁ hvt hlc.2.1
      have hs₂ := hrunv.memoized hs₁
      have hvv := hrunv.alike_of_evaluates hs₁ hvt hlc.2.1 hv
      obtain ⟨body₁, s₃, hrunb⟩ := ihbody
        (hs₂.enter (A := ty₁) hvv (hv.locallyClosed hs.closed hlc.2.1)) (hbt.openWith_add _ _)
        (hlc.2.2.openWith _)
      exact ⟨_, _, .layer (.letIn hrunty hrunv rfl hrunb)⟩

/-- **Two stores normalise alike.** If each has, for the variables in `S`, the values that `E` gives
or their normal forms, then a term over `S` has the same normal form from both. -/
theorem Normalizes.shared {S : Binding → Prop} {n : Nat} {E : Values} {t u : Term}
    {s₁ s₁' s₂ : Store} (h : Normalizes t s₁ u s₁') (hs₁ : Memoized (.same S) n E s₁)
    (hs₂ : Memoized (.same S) n E s₂) (ht : t.Over S) (hlc : t.LocallyClosed) :
    ∃ s₂', Normalizes t s₂ u s₂' := by
  have hself := Term.Alike.refl_same ht
  obtain ⟨u', hu', halike⟩ := h.evaluates hs₁ hself hlc
  obtain ⟨u₂, s₂', hrun⟩ := hu'.normalizes hs₂ hself hlc
  have hsame := (hrun.alike_of_evaluates hs₂ hself hlc hu').eq_of_same
  rw [halike.eq_of_same, ← hsame]
  exact ⟨s₂', hrun⟩

end DepLang
