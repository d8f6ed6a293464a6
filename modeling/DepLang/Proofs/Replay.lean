import DepLang.Proofs.Sessions
import DepLang.Proofs.Transparency

/-!
# Only definitions and assumptions matter

A session answers a step by what has been defined and assumed before. What else was asked on the
way, what failed and what was remembered does not show in the answers.

A `Script` is a sequence of steps with children in it, and a `Transcript` is a script with the
results of its steps. A `Thinning` of a transcript leaves out steps that have neither defined nor
assumed anything, and children. The session runs what is left with the same results
(`only_extensions_matter`), but for closing a term, which shows values as they are remembered.

There is one condition, that no variable is assumed and defined as well. A definition does not look
into the context, so a variable that was assumed may be defined later, when normal forms that mention
it have been remembered. They stay as they are, and the session answers by them
(`remembered_before_defined`).

* `Session.Abreast`: two sessions with the same context and definitions, which may have remembered
  different normal forms.
* `Session.Abreast.ignore`: what a session does without extending its scope does not show in the
  other one. `Session.Abreast.step`: both take the same step with the same result.
-/
namespace DepLang

open Check

/-! ## Scripts -/

/-- What to do in a session. -/
inductive Script where
  | done
  | step (st : Step) (rest : Script)
  /-- A session inside, and what comes after it. -/
  | child (inner rest : Script)

/-- A script with the results of its steps. -/
inductive Transcript where
  | done
  | step (st : Step) (result : Except ElaborationError Answer) (rest : Transcript)
  | child (inner rest : Transcript)

/-- Runs a script. A step that fails does not keep the next one from being taken. -/
def Session.run (fuel : Nat) (s : Session) : Script → Option (Transcript × Session)
  | .done => some (.done, s)
  | .step st rest => do
    let (result, s₁) ← s.step fuel st
    let (transcript, s₂) ← s₁.run fuel rest
    return (.step st result transcript, s₂)
  | .child inner rest => do
    let (nested, s₁) ← s.inChild fun child => child.run fuel inner
    let (transcript, s₂) ← s₁.run fuel rest
    return (.child nested transcript, s₂)

/-- The step has added nothing to the scope: it failed, or it is neither a definition nor an
assumption. -/
def Step.Idle (st : Step) (result : Except ElaborationError Answer) : Prop :=
  match st with
  | .define _ _ _ | .assume _ _ => ∃ error, result = .error error
  | _ => True

/-- A choice of what to leave out of a transcript. -/
inductive Thinning : Transcript → Type where
  | done : Thinning .done
  | keep {st : Step} {result : Except ElaborationError Answer} {rest : Transcript} :
      Thinning rest → Thinning (.step st result rest)
  | drop {st : Step} {result : Except ElaborationError Answer} {rest : Transcript} :
      st.Idle result → Thinning rest → Thinning (.step st result rest)
  | child {inner rest : Transcript} : Thinning inner → Thinning rest →
      Thinning (.child inner rest)
  | dropChild {inner rest : Transcript} : Thinning rest → Thinning (.child inner rest)

namespace Thinning

/-- What is left to do. -/
def script : {transcript : Transcript} → Thinning transcript → Script
  | _, done => .done
  | .step st _ _, keep rest => .step st rest.script
  | _, drop _ rest => rest.script
  | _, child inner rest => .child inner.script rest.script
  | _, dropChild rest => rest.script

/-- A run of what is left has had the same results, but for closing terms. -/
def Agrees (n : Nat) : {transcript : Transcript} → Thinning transcript → Transcript → Prop
  | _, done, .done => True
  | .step st result _, keep rest, .step st' result' rest' =>
    st' = st ∧ ((∀ t, st ≠ .close t) → SameOutcome n result result') ∧ rest.Agrees n rest'
  | _, drop _ rest, transcript' => rest.Agrees n transcript'
  | _, child inner rest, .child inner' rest' => inner.Agrees n inner' ∧ rest.Agrees n rest'
  | _, dropChild rest, transcript' => rest.Agrees n transcript'
  | _, _, _ => False

end Thinning

/-! ## What a script mentions -/

namespace Step

/-- The step defines the variable, itself or by a `let` in one of its expressions. -/
def Defines : Step → Binding → Prop
  | define b ty value, x => x = b ∨ ty.Defines x ∨ value.Defines x
  | infer e, x | type e, x | check e _, x => e.Defines x
  | checkAt e ty, x => e.Defines x ∨ ty.Defines x
  | assume _ _, _ | unify _ _ _, _ | reduce _, _ | close _, _ => False

def Assumes : Step → Binding → Prop
  | assume b _, x => x = b
  | _, _ => False

end Step

namespace Script

def Below (n : Nat) : Script → Prop
  | done => True
  | step st rest => st.Below n ∧ rest.Below n
  | child inner rest => inner.Below n ∧ rest.Below n

def Defines : Script → Binding → Prop
  | done, _ => False
  | step st rest, x => st.Defines x ∨ rest.Defines x
  | child inner rest, x => inner.Defines x ∨ rest.Defines x

def Assumes : Script → Binding → Prop
  | done, _ => False
  | step st rest, x => st.Assumes x ∨ rest.Assumes x
  | child inner rest, x => inner.Assumes x ∨ rest.Assumes x

end Script

/-! ## Sessions abreast -/

/-- The variables that values may depend on: those that are never defined, and those that have a
value. -/
def Settled (n : Nat) (D : Binding → Prop) (E : Values) : Binding → Prop :=
  fun b => b.id < n ∧ (D b → E b ≠ none)

/-- The sessions have the same in scope, but for the normal forms that they remember. Only variables
in `D` are ever defined, and none of these is assumed. -/
structure Session.Abreast (n : Nat) (D : Binding → Prop) (E : Values) (s₁ s₂ : Session) : Prop where
  context : s₂.context = s₁.context
  below : s₁.context.Below n
  apart : ∀ b, D b → s₁.context.lookup b = none
  store : Store.Shares (Settled n D E) n E s₁.store s₂.store

namespace Session.Abreast

variable {n : Nat} {D : Binding → Prop} {E : Values} {s₁ s₂ s₁' : Session} {fuel : Nat} {st : Step}
  {r : Except ElaborationError Answer}

theorem symm (h : Abreast n D E s₁ s₂) : Abreast n D E s₂ s₁ :=
  ⟨h.context.symm, h.context ▸ h.below, h.context ▸ h.apart, h.store.symm⟩

theorem of_ages (h : Abreast n D E s₁ s₂) (hcontext : s₁'.context = s₁.context)
    (hage : s₁.store.Ages s₁'.store)
    (hmemo : Memoized (.same (Settled n D E)) n E s₁'.store) : Abreast n D E s₁' s₂ :=
  ⟨h.context.trans hcontext.symm, hcontext ▸ h.below, hcontext ▸ h.apart, h.store.age hage hmemo⟩

theorem of_restores (h : Abreast n D E s₁ s₂) (hr : s₁.Restores s₁') : Abreast n D E s₁' s₂ := by
  refine h.of_ages hr.context hr.store.settles.ages (h.store.memo₁.of_lookup hr.store.supply ?_)
  intro b c _
  rw [hr.store.definitions]

/-- **What is idle does not show.** -/
theorem ignore (h : Abreast n D E s₁ s₂) (hstep : s₁.step fuel st = some (r, s₁'))
    (hidle : st.Idle r) : Abreast n D E s₁' s₂ := by
  cases st with
  | define | assume => exact h.of_restores (step_restores hstep (.inr hidle))
  | reduce t =>
    obtain ⟨u, -, hn, hcontext, -⟩ := step_reduce hstep
    exact h.of_ages hcontext hn.ages (hn.memoized h.store.memo₁)
  | infer | type | check | checkAt | unify | close =>
    exact h.of_restores (step_restores hstep (.inl rfl))

theorem derive (h : Abreast n D E s₁ s₂) : Abreast n D E s₁.derive s₂.derive where
  context := congrArg Scope.derive h.context
  below b A hA := h.below b A (by rwa [← Scope.lookup_derive])
  apart b hb := (Scope.lookup_derive _ b).trans (h.apart b hb)
  store := h.store.derive

/-! ## One step -/

/-- The world that both sessions are in. -/
abbrev world (n : Nat) (s₁ s₂ : Session) : World :=
  ⟨.minted n, s₁.store.supply.next, s₂.store.supply.next⟩

theorem perform (h : Abreast n D E s₁ s₂) {x : Check Answer} {X : Nat → Check Answer}
    (hx : Lockstep (Settled n D E) n E (world n s₁ s₂) x X ((world n s₁ s₂).still Eq))
    (hrun : s₁.perform x = some (r, s₁')) :
    ∃ r' s₂' W', (∃ N, ∀ fuel, N ≤ fuel → s₂.perform (X fuel) = some (r', s₂')) ∧
      SameOutcome n r r' ∧ World.Holds W' (Settled n D E) n E s₁'.store s₂'.store ∧
      W'.Outcome ((world n s₁ s₂).still Eq) r r' := by
  obtain ⟨u₁, hu₁, rfl⟩ := perform_eq_some.1 hrun
  obtain ⟨W', r', u₂, hgrows, ⟨N, hN⟩, hW', hout⟩ := hx.run h.store.holds hu₁
  exact ⟨r', { s₂ with store := u₂ }, W', ⟨N, fun fuel hfuel =>
    perform_eq_some.2 ⟨u₂, hN fuel hfuel, rfl⟩⟩,
    hout.same (fun b hb => hgrows.pairs b b ⟨rfl, hb⟩) fun _ _ hab => hab.2, hW', hout⟩

theorem context_alike (h : Abreast n D E s₁ s₂) :
    Context.Alike (world n s₁ s₂) s₁.context s₁.context :=
  h.below.alike h.store.left h.store.right

theorem elaborate_lockstep (h : Abreast n D E s₁ s₂) {e : Expr} (he : e.All true fun b => b.id < n)
    (hlets : ∀ b, e.Defines b → D b) {mode : Mode} (hmode : Mode.Alike (.minted n) mode mode)
    (fuel : Nat) :
    Lockstep (Settled n D E) n E (world n s₁ s₂) (elaborate fuel s₁.context mode e)
      (fun fuel => elaborate fuel s₁.context mode e)
      ((world n s₁ s₂).still (Annotated.Alike (.minted n))) :=
  DepLang.elaborate_lockstep he.alike (fun _ _ => id) h.context_alike hmode
    fun b hb hS => hS.2 (hlets b hb)

theorem elaborateAt_lockstep (h : Abreast n D E s₁ s₂) {e ty : Expr}
    (he : e.All true fun b => b.id < n) (hty : ty.All true fun b => b.id < n)
    (hlets : ∀ b, e.Defines b ∨ ty.Defines b → D b) (fuel : Nat) :
    Lockstep (Settled n D E) n E (world n s₁ s₂) (elaborateAt fuel s₁.context e ty)
      (fun fuel => elaborateAt fuel s₁.context e ty)
      ((world n s₁ s₂).still (Annotated.Alike (.minted n))) :=
  DepLang.elaborateAt_lockstep he.alike hty.alike h.context_alike fun b hb hS => hS.2 (hlets b hb)

/-- What a definition does before its variable becomes visible. -/
theorem define_lockstep (h : Abreast n D E s₁ s₂) {b : Binding} {ty value : Expr}
    (hst : (Step.define b ty value).Below n) (hD : ∀ x, (Step.define b ty value).Defines x → D x)
    (fuel : Nat) :
    Lockstep (Settled n D E) n E (world n s₁ s₂)
      (do
        let result ← elaborateAt fuel s₁.context value ty
        Check.define b ⟨result.term, result.ty⟩
        return Answer.done)
      (fun fuel => do
        let result ← elaborateAt fuel s₁.context value ty
        Check.define b ⟨result.term, result.ty⟩
        return Answer.done)
      ((world n s₁ s₂).still Eq) := by
  obtain ⟨hb, hty, hvalue⟩ := hst
  have hlets : ∀ x, value.Defines x ∨ ty.Defines x → D x := fun x hx => hD x (.inr hx.symm)
  have hbb : Pairs.minted n b b := ⟨rfl, hb⟩
  refine .bind_still (h.elaborateAt_lockstep hvalue hty hlets fuel) fun l r a a' _ ha => ?_
  exact .bind_still (.define hbb (fun hS => hS.2 (hD b (.inl rfl))) ha.ty ha.term)
    fun l r _ _ _ _ => .pure ⟨rfl, rfl⟩

/-- **The same answer.** Both sessions answer a query alike, whatever they remember. -/
theorem answer (h : Abreast n D E s₁ s₂) (hst : st.Below n) (hD : ∀ b, st.Defines b → D b)
    (hquery : (st.isQuery = true ∧ ∀ t, st ≠ .close t) ∨ ∃ t, st = .reduce t)
    (hstep : s₁.step fuel st = some (r, s₁')) :
    ∃ r' s₂', (∃ N, ∀ fuel, N ≤ fuel → s₂.step fuel st = some (r', s₂')) ∧ SameOutcome n r r' := by
  have hperform : ∀ {x : Check Answer} {X : Nat → Check Answer},
      Lockstep (Settled n D E) n E (world n s₁ s₂) x X ((world n s₁ s₂).still Eq) →
      s₁.perform x = some (r, s₁') →
      ∃ r' s₂', (∃ N, ∀ fuel, N ≤ fuel → s₂.perform (X fuel) = some (r', s₂')) ∧
        SameOutcome n r r' := by
    intro x X hx hrun
    obtain ⟨r', s₂', -, hruns, hsame, -⟩ := h.perform hx hrun
    exact ⟨r', s₂', hruns, hsame⟩
  cases st with
  | define | assume => simp [Step.isQuery] at hquery
  | close t => simp at hquery
  | infer e =>
    simp only [step, h.context] at hstep ⊢
    exact hperform (.map (h.elaborate_lockstep hst hD .infer fuel) fun _ _ hab =>
      congrArg Answer.typed hab.eq_of_same) hstep
  | type e =>
    simp only [step, h.context] at hstep ⊢
    exact hperform (.map (.term (h.elaborate_lockstep hst hD .type fuel)) fun _ _ hab =>
      congrArg Answer.term hab.eq_of_same) hstep
  | check e ty =>
    simp only [step, h.context] at hstep ⊢
    have hty : ty.Alike _ ty := .refl_same (hst.2 rfl)
    exact hperform (.map (.term (h.elaborate_lockstep hst.1 hD (.check hty) fuel))
      fun _ _ hab => congrArg Answer.term hab.eq_of_same) hstep
  | checkAt e ty =>
    simp only [step, h.context] at hstep ⊢
    exact hperform (.map (h.elaborateAt_lockstep hst.1 hst.2 hD fuel) fun _ _ hab =>
      congrArg Answer.typed hab.eq_of_same) hstep
  | unify lhs rhs ty =>
    simp only [step, h.context] at hstep ⊢
    have hunify : Lockstep (Settled n D E) n E (world n s₁ s₂) (unify fuel s₁.context lhs rhs ty)
        (fun fuel => unify fuel s₁.context lhs rhs ty) ((world n s₁ s₂).still fun _ _ => True) :=
      unify_lockstep fuel h.context_alike (.refl_same (hst rfl).1) (.refl_same (hst rfl).2.1)
        (Term.Alike.rel_same (hst rfl).2.2)
    exact hperform (.bind_still hunify fun _ _ _ _ _ _ => .pure ⟨rfl, rfl⟩) hstep
  | reduce t =>
    simp only [step] at hstep ⊢
    exact hperform (.map (.whnf fuel (.refl_same (hst rfl))) fun _ _ hab =>
      congrArg Answer.term hab.eq_of_same) hstep

/-- What is in scope is settled, unless it may still be defined. -/
theorem settled_of_recorded (h : Abreast n D E s₁ s₂) {store : Store}
    (hstore : store.definitions = s₁.store.definitions) {b : Binding} (hb : b.id < n)
    (hrec : Recorded s₁.context store b) : Settled n D E b := by
  rcases hrec with hrec | hrec
  · refine ⟨hb, fun hDb => ?_⟩
    rw [Scope.contains, h.apart b hDb] at hrec
    cases hrec
  · rw [hstore] at hrec
    obtain ⟨d, hd⟩ := Option.isSome_iff_exists.1 hrec
    exact (h.store.defined b d hd).1

theorem extend (h : Abreast n D E s₁ s₂) {b : Binding} {ty value : Expr}
    (hst : (Step.define b ty value).Below n) (hD : ∀ x, (Step.define b ty value).Defines x → D x)
    {fuel' : Nat} {a a' : Answer} {s₂' : Session}
    (h₁ : s₁.step fuel (.define b ty value) = some (.ok a, s₁'))
    (h₂ : s₂.step fuel' (.define b ty value) = some (.ok a', s₂')) {W' : World}
    (hpairs : W'.pairs = .minted n)
    (hW' : W'.Holds (Settled n D E) n E s₁'.store s₂'.store) :
    ∃ E', Abreast n D E' s₁' s₂' := by
  obtain ⟨hb, hty, hvalue⟩ := hst
  obtain ⟨T, t, v₁, v₂, hT, ht, hfresh₁, rfl⟩ := step_define_ok h₁
  obtain ⟨T', t', w₁, w₂, hT', ht', hfresh₂, rfl⟩ := step_define_ok h₂
  have hv : v₂.definitions = s₁.store.definitions := ht.definitions_eq.trans hT.definitions_eq
  have hw : w₂.definitions = s₂.store.definitions := ht'.definitions_eq.trans hT'.definitions_eq
  have hS : ¬ Settled n D E b := fun hS => hS.2 (hD b (.inl rfl))
    ((h.store.memo₁.undefined_iff ⟨rfl, hS⟩).1 (hv ▸ hfresh₁))
  -- Both sides have elaborated the type and the value alike.
  have hentry : (⟨t'.term, T'.term⟩ : Definition) = ⟨t.term, T.term⟩ := by
    obtain ⟨e, he, htype, hterm⟩ := hW'.twins.lookup_eq_some (b := b) (c := b)
      (hpairs ▸ ⟨rfl, hb⟩) (Scope.lookup_bind_self ⟨t.term, T.term⟩ hfresh₁)
    obtain rfl : ⟨t'.term, T'.term⟩ = e :=
      Option.some.inj ((Scope.lookup_bind_self _ hfresh₂).symm.trans he)
    rw [hpairs] at htype hterm
    have htype := htype.eq_of_same
    have hterm := (hterm hS).eq_of_same
    dsimp only at htype hterm
    rw [htype, hterm]
  have hTw : T.term.Within (Settled n D E) := hT.term_within h.store.left hty.refs_over
    fun c hc hrec => h.settled_of_recorded rfl hc hrec
  have htw : t.term.Within (Settled n D E) :=
    ht.term_within (Nat.le_trans h.store.left hT.supply_le) hvalue.refs_over
      fun c hc hrec => h.settled_of_recorded hT.definitions_eq hc hrec
  have hsettled : Settled n D (E.define b t.term) = fun c => c = b ∨ Settled n D E c := by
    funext c
    by_cases hc : c = b
    · simp [Settled, hc, hb, Values.define_self]
    · simp [Settled, hc, Values.define_of_ne]
  refine ⟨E.define b t.term, h.context, h.below, h.apart, hsettled ▸ ?_⟩
  exact h.store.define (d := ⟨t.term, T.term⟩) hS hb htw (hTw.vars.mono fun _ hc => hc.1)
    (hv ▸ hfresh₁) (hw ▸ hfresh₂) (by rw [hv]) (by rw [hw, hentry])
    (Nat.le_trans hT.supply_le ht.supply_le) (Nat.le_trans hT'.supply_le ht'.supply_le)

/-- **The same definition** is made in both sessions, or refused in both. -/
theorem define (h : Abreast n D E s₁ s₂) {b : Binding} {ty value : Expr}
    (hst : (Step.define b ty value).Below n) (hD : ∀ x, (Step.define b ty value).Defines x → D x)
    (hstep : s₁.step fuel (.define b ty value) = some (r, s₁')) :
    ∃ r' s₂' E', (∃ N, ∀ fuel, N ≤ fuel → s₂.step fuel (.define b ty value) = some (r', s₂')) ∧
      SameOutcome n r r' ∧ Abreast n D E' s₁' s₂' := by
  obtain ⟨⟨r₁, u₁⟩, hu₁, hreveal⟩ := Option.map_eq_some_iff.1 hstep
  obtain ⟨r', u₂, W', ⟨N, hN⟩, hsame, hW', hout⟩ := h.perform (h.define_lockstep hst hD fuel) hu₁
  have hruns : ∀ fuel, N ≤ fuel →
      s₂.step fuel (.define b ty value) = some (reveal b (r', u₂)) := by
    intro fuel hfuel
    simp only [step, h.context]
    rw [hN fuel hfuel]
    rfl
  cases hout with
  | error hsub hmatch he =>
    cases hreveal
    have hleft := h.ignore hstep ⟨_, rfl⟩
    exact ⟨_, u₂, E, ⟨N, hruns⟩, hsame,
      (hleft.symm.ignore (hruns N (Nat.le_refl N)) ⟨_, rfl⟩).symm⟩
  | ok hab =>
    obtain ⟨hpairs, rfl⟩ := hab
    cases hreveal
    obtain ⟨E', hE'⟩ := h.extend hst hD hstep (hruns N (Nat.le_refl N)) hpairs hW'
    exact ⟨_, _, E', ⟨N, hruns⟩, hsame, hE'⟩

/-- **The same assumption** is made in both sessions, or refused in both. -/
theorem assume (h : Abreast n D E s₁ s₂) {b : Binding} {ty : Term} (hb : b.id < n)
    (hty : ty.Below n) (hD : ¬ D b) (hstep : s₁.step fuel (.assume b ty) = some (r, s₁')) :
    ∃ r' s₂', (∀ fuel, s₂.step fuel (.assume b ty) = some (r', s₂')) ∧
      SameOutcome n r r' ∧ Abreast n D E s₁' s₂' := by
  simp only [step, h.context] at hstep ⊢
  cases hinsert : s₁.context.insert b ty with
  | error error =>
    rw [hinsert] at hstep
    cases hstep
    have herror : error = .alreadyInScope b := by
      unfold Scope.insert at hinsert
      split at hinsert
      · cases hinsert
        rfl
      · cases hinsert
    refine ⟨_, _, fun _ => rfl, ?_, h⟩
    rw [herror]
    exact .error (.same (fun _ => id) (fun _ => id)) (fun _ hx => ⟨rfl, hx⟩)
      (.alreadyInScope ⟨rfl, hb⟩)
  | ok context =>
    rw [hinsert] at hstep
    cases hstep
    obtain ⟨hfresh, rfl⟩ := Scope.insert_eq_ok.1 hinsert
    refine ⟨_, _, fun _ => rfl, .ok _, rfl, fun c A hA => ?_, fun c hc => ?_, h.store⟩
    · by_cases hcb : c = b
      · rw [hcb, Scope.lookup_bind_self _ hfresh] at hA
        cases hA
        exact ⟨hcb ▸ hb, hty⟩
      · rw [Scope.lookup_bind_of_ne _ _ hcb] at hA
        exact h.below c A hA
    · have hcb : c ≠ b := fun e => hD (e ▸ hc)
      exact (Scope.lookup_bind_of_ne _ _ hcb).trans (h.apart c hc)

/-- **The same step** is taken in both sessions, with the same result. -/
theorem step (h : Abreast n D E s₁ s₂) (hst : st.Below n) (hD : ∀ b, st.Defines b → D b)
    (hassume : ∀ b, st.Assumes b → ¬ D b) (hstep : s₁.step fuel st = some (r, s₁')) :
    ∃ r' s₂' E', (∃ N, ∀ fuel, N ≤ fuel → s₂.step fuel st = some (r', s₂')) ∧
      ((∀ t, st ≠ .close t) → SameOutcome n r r') ∧ Abreast n D E' s₁' s₂' := by
  cases st with
  | define b ty value =>
    obtain ⟨r', s₂', E', hruns, hsame, hE'⟩ := h.define hst hD hstep
    exact ⟨r', s₂', E', hruns, fun _ => hsame, hE'⟩
  | assume b ty =>
    obtain ⟨r', s₂', hruns, hsame, hE⟩ := h.assume hst.1 (hst.2 rfl) (hassume b rfl) hstep
    exact ⟨r', s₂', E, ⟨0, fun fuel _ => hruns fuel⟩, fun _ => hsame, hE⟩
  | close t =>
    cases hstep
    exact ⟨_, s₂, E, ⟨0, fun _ _ => rfl⟩, fun hclose => absurd rfl (hclose t), h⟩
  | infer | type | check | checkAt | unify | reduce =>
    obtain ⟨r', s₂', ⟨N, hN⟩, hsame⟩ := h.answer hst hD (by simp [Step.isQuery]) hstep
    have hleft := h.ignore hstep trivial
    exact ⟨r', s₂', E, ⟨N, hN⟩, fun _ => hsame,
      (hleft.symm.ignore (hN N (Nat.le_refl N)) trivial).symm⟩

end Session.Abreast

/-! ## Whole runs -/

namespace Session

variable {fuel : Nat} {s s' : Session}

theorem inChild_eq_some {α : Type} {child : Session → Option (α × Session)} {a : α} :
    s.inChild child = some (a, s') ↔ ∃ t, child s.derive = some (a, t) ∧
      s' = { s with store := { s.store with supply := t.store.supply } } := by
  unfold inChild
  cases child s.derive with
  | none => simp
  | some result =>
    obtain ⟨b, t⟩ := result
    constructor
    · intro h
      cases h
      exact ⟨t, rfl, rfl⟩
    · rintro ⟨_, h, rfl⟩
      cases h
      rfl

section

variable {s₁ t : Session} {st : Step} {r : Except ElaborationError Answer} {inner rest : Script}
  {I T : Transcript}

theorem run_step (hstep : s.step fuel st = some (r, s₁)) (hrest : s₁.run fuel rest = some (T, s')) :
    s.run fuel (.step st rest) = some (.step st r T, s') :=
  Option.bind_eq_some_iff.2 ⟨_, hstep, Option.bind_eq_some_iff.2 ⟨_, hrest, rfl⟩⟩

theorem run_child (hinner : s.derive.run fuel inner = some (I, t))
    (hrest : run fuel { s with store := { s.store with supply := t.store.supply } } rest =
      some (T, s')) : s.run fuel (.child inner rest) = some (.child I T, s') :=
  Option.bind_eq_some_iff.2 ⟨_, inChild_eq_some.2 ⟨t, hinner, rfl⟩,
    Option.bind_eq_some_iff.2 ⟨_, hrest, rfl⟩⟩

theorem of_run_step (h : s.run fuel (.step st rest) = some (T, s')) :
    ∃ r s₁ T', s.step fuel st = some (r, s₁) ∧ s₁.run fuel rest = some (T', s') ∧
      T = .step st r T' := by
  obtain ⟨⟨r, s₁⟩, hr, h⟩ := Option.bind_eq_some_iff.1 h
  obtain ⟨⟨T', s₂⟩, hT', h⟩ := Option.bind_eq_some_iff.1 h
  cases h
  exact ⟨r, s₁, T', hr, hT', rfl⟩

theorem of_run_child (h : s.run fuel (.child inner rest) = some (T, s')) :
    ∃ I t T', s.derive.run fuel inner = some (I, t) ∧
      run fuel { s with store := { s.store with supply := t.store.supply } } rest = some (T', s') ∧
      T = .child I T' := by
  obtain ⟨⟨I, s₁⟩, hI, h⟩ := Option.bind_eq_some_iff.1 h
  obtain ⟨t, ht, rfl⟩ := inChild_eq_some.1 hI
  obtain ⟨⟨T', s₂⟩, hT', h⟩ := Option.bind_eq_some_iff.1 h
  cases h
  exact ⟨I, t, T', ht, hT', rfl⟩

end

theorem run_grows {script : Script} {T : Transcript} (h : s.run fuel script = some (T, s')) :
    s.store.Grows s'.store := by
  induction script generalizing s s' T with
  | done =>
    cases h
    exact Nat.le_refl _
  | step st rest ih =>
    obtain ⟨r, s₁, T', hr, hT', -⟩ := of_run_step h
    exact Nat.le_trans (step_grows hr) (ih hT')
  | child inner rest ihinner ih =>
    obtain ⟨I, t, T', ht, hT', -⟩ := of_run_child h
    have hinner := ihinner ht
    have hrest := ih hT'
    exact Nat.le_trans hinner hrest

/-- A child leaves nothing behind but the identities it has used up. -/
theorem restores_child {t : Session} (h : s.derive.store.Grows t.store) :
    s.Restores { s with store := { s.store with supply := t.store.supply } } :=
  ⟨rfl, rfl, rfl, h⟩

end Session

/-- **What is left of a script runs as before.** One session runs the script, and the other one what
a thinning of the transcript leaves of it. The results agree, and the sessions stay abreast. -/
theorem Session.Abreast.run {n : Nat} {D : Binding → Prop} {E : Values} {s₁ s₂ s₁' : Session}
    {fuel : Nat} {script : Script} {T : Transcript} (h : Abreast n D E s₁ s₂)
    (hscript : script.Below n) (hD : ∀ b, script.Defines b → D b)
    (hassume : ∀ b, script.Assumes b → ¬ D b) (hrun : s₁.run fuel script = some (T, s₁'))
    (thinning : Thinning T) :
    ∃ T' s₂' E', (∃ N, ∀ fuel, N ≤ fuel → s₂.run fuel thinning.script = some (T', s₂')) ∧
      thinning.Agrees n T' ∧ Abreast n D E' s₁' s₂' := by
  induction script generalizing s₁ s₂ s₁' E T with
  | done =>
    cases hrun
    cases thinning with
    | done => exact ⟨.done, s₂, E, ⟨0, fun _ _ => rfl⟩, trivial, h⟩
  | step st rest ih =>
    have hDrest : ∀ b, rest.Defines b → D b := fun b hb => hD b (.inr hb)
    have hassumerest : ∀ b, rest.Assumes b → ¬ D b := fun b hb => hassume b (.inr hb)
    obtain ⟨r, u₁, T', hr, hT', rfl⟩ := Session.of_run_step hrun
    cases thinning with
    | keep thinning =>
      obtain ⟨r', u₂, E', ⟨N, hN⟩, hsame, hu⟩ := h.step hscript.1 (fun b hb => hD b (.inl hb))
        (fun b hb => hassume b (.inl hb)) hr
      obtain ⟨T'', s₂', E'', ⟨N', hN'⟩, hagrees, hs⟩ :=
        ih hu hscript.2 hDrest hassumerest hT' thinning
      refine ⟨.step st r' T'', s₂', E'', ⟨max N N', fun fuel hfuel => ?_⟩,
        ⟨rfl, hsame, hagrees⟩, hs⟩
      exact Session.run_step (hN fuel (by omega)) (hN' fuel (by omega))
    | drop idle thinning =>
      obtain ⟨T'', s₂', E', hruns, hagrees, hs⟩ :=
        ih (h.ignore hr idle) hscript.2 hDrest hassumerest hT' thinning
      exact ⟨T'', s₂', E', hruns, hagrees, hs⟩
  | child inner rest ihinner ih =>
    have hDrest : ∀ b, rest.Defines b → D b := fun b hb => hD b (.inr hb)
    have hassumerest : ∀ b, rest.Assumes b → ¬ D b := fun b hb => hassume b (.inr hb)
    obtain ⟨I, t₁, T', hI, hT', rfl⟩ := Session.of_run_child hrun
    have hleft := h.of_restores (Session.restores_child (Session.run_grows hI))
    cases thinning with
    | child nested thinning =>
      obtain ⟨I', t₂, -, ⟨N, hN⟩, hnested, -⟩ := ihinner h.derive hscript.1
        (fun b hb => hD b (.inl hb)) (fun b hb => hassume b (.inl hb)) hI nested
      have hboth := (hleft.symm.of_restores
        (Session.restores_child (Session.run_grows (hN N (Nat.le_refl N))))).symm
      obtain ⟨T'', s₂', E', ⟨N', hN'⟩, hagrees, hs⟩ :=
        ih hboth hscript.2 hDrest hassumerest hT' thinning
      refine ⟨.child I' T'', s₂', E', ⟨max N N', fun fuel hfuel => ?_⟩, ⟨hnested, hagrees⟩, hs⟩
      exact Session.run_child (hN fuel (by omega)) (hN' fuel (by omega))
    | dropChild thinning =>
      obtain ⟨T'', s₂', E', hruns, hagrees, hs⟩ :=
        ih hleft hscript.2 hDrest hassumerest hT' thinning
      exact ⟨T'', s₂', E', hruns, hagrees, hs⟩

/-- What the script defines is assumed nowhere: neither by the script nor in the session, and values
of the session mention it only if it is defined there. -/
structure Script.Apart (script : Script) (s : Session) : Prop where
  assumed : ∀ b, script.Defines b → ¬ script.Assumes b
  context : ∀ b, script.Defines b → s.context.lookup b = none
  values : ∀ c d, s.store.definitions.lookup c = some d →
    d.value.Over fun b => script.Defines b → (s.store.definitions.lookup b).isSome = true

/-- **Only definitions and assumptions matter.** A step that fails leaves the context and the
definitions as they are. And if a script runs in a session, then so does what is left of it without
some of the steps that have neither defined nor assumed anything, and without some of the children;
each step that is left has the same result, but for closing a term. Errors are the same up to the
identities of variables that were minted for them.

The script must not define a variable that is assumed. Everything in the session and in the script
mentions only variables that have been minted, and values have no dangling index. -/
theorem only_extensions_matter (s : Session) :
    (∀ {fuel : Nat} {s' : Session} {st : Step} {error : ElaborationError},
      s.step fuel st = some (.error error, s') →
        s'.context = s.context ∧ s'.store.definitions = s.store.definitions) ∧
    ∀ {fuel : Nat} {s' : Session} {script : Script} {T : Transcript}, s.store.WellScoped →
      (∀ b d, s.store.definitions.lookup b = some d → d.ty.Below s.store.supply.next) →
      s.context.Below s.store.supply.next → script.Below s.store.supply.next → script.Apart s →
      s.run fuel script = some (T, s') → ∀ thinning : Thinning T, ∃ T' s'',
        (∃ N, ∀ fuel, N ≤ fuel → s.run fuel thinning.script = some (T', s'')) ∧
          thinning.Agrees s.store.supply.next T' := by
  refine ⟨fun h => ?_, fun {fuel s' script T} hs htypes hΓ hscript hapart hrun thinning => ?_⟩
  · have hsame := Session.step_restores h (.inr ⟨_, rfl⟩)
    exact ⟨hsame.context, hsame.store.definitions⟩
  · have hvalues : s.store.Encloses (Settled s.store.supply.next script.Defines s.store.values) := by
      intro b d hd _
      refine (Term.Over.and (hs.below b d hd) (hapart.values b d hd)).mono fun c hc => ⟨hc.1, ?_⟩
      intro hDc hnone
      have hsome := hc.2 hDc
      rw [Option.map_eq_none_iff.1 hnone] at hsome
      cases hsome
    have hmemo := hs.memoized (fun _ hb => hb.1) hvalues
    have hstart : Session.Abreast s.store.supply.next script.Defines s.store.values s s := by
      refine ⟨rfl, hΓ, hapart.context, hmemo, hmemo, fun _ => rfl, fun b d hd => ?_, Nat.le_refl _,
        Nat.le_refl _⟩
      exact ⟨⟨hs.keys b d hd, fun _ => by simp [Store.values, hd]⟩, htypes b d hd⟩
    obtain ⟨T', s'', -, hruns, hagrees, -⟩ := hstart.run hscript (fun _ => id)
      (fun b hb hD => hapart.assumed b hD hb) hrun thinning
    exact ⟨T', s'', hruns, hagrees⟩

/-- The session assumes `q` and defines `p` by an application that reduces to `q`. It reduces `p`, is
refused a function without a type, runs a child and compares `p` with `q`. Without the reduction and
without the refused step, the child and the comparison go as before. -/
theorem only_extensions_matter_child :
    let q : Binding := ⟨0, "q"⟩
    let p : Binding := ⟨1, "p"⟩
    let k : Binding := ⟨2, "k"⟩
    let a : Binding := ⟨3, "a"⟩
    let x : Binding := ⟨4, "x"⟩
    let start : Session := { store := { supply := ⟨5⟩ } }
    let value : Expr := .letIn k (.pi a .type .type) (.lam a (.ref a)) (.app (.ref k) (.ref q))
    let function : Expr := .lam a (.ref a)
    let equal : Step := .unify (.free p) (.free q) (some .type)
    let inner : Script := .step (.define x .type .boolType) (.step (.infer (.ref x)) .done)
    let script : Script := .step (.assume q .type) (.step (.define p .type value)
      (.step (.reduce (.free p)) (.step (.infer function) (.child inner (.step equal .done)))))
    let T : Transcript := .step (.assume q .type) (.ok .done) (.step (.define p .type value)
      (.ok .done) (.step (.reduce (.free p)) (.ok (.term (.free q)))
      (.step (.infer function) (.error (.noRule function))
      (.child (.step (.define x .type .boolType) (.ok .done)
        (.step (.infer (.ref x)) (.ok (.typed ⟨.free x, .type⟩)) .done))
      (.step equal (.ok .done) .done)))))
    let thinning : Thinning T :=
      .keep (.keep (.drop trivial (.drop trivial (.child (.keep (.keep .done)) (.keep .done)))))
    (∃ s', start.run 12 script = some (T, s')) ∧
      thinning.script = .step (.assume q .type) (.step (.define p .type value)
        (.child inner (.step equal .done))) ∧
      ∃ T' s'', (∃ N, ∀ fuel, N ≤ fuel → start.run fuel thinning.script = some (T', s'')) ∧
        thinning.Agrees 5 T' := by
  intro q p k a x start value function equal inner script T thinning
  let s₁ : Session := {
    context := { inner := [(q, .type)] }
    store := { supply := ⟨5⟩ }
    visible := [q] }
  let s₂ : Session := { s₁ with
    store := {
      definitions := { inner := [(p, ⟨.letIn "k" (.pi "a" .type .type) (.lam (.bound 0))
        (.app (.bound 0) (.free q)), .type⟩)] }
      supply := ⟨5⟩ }
    visible := [p, q] }
  let s₃ : Session := { s₂ with
    store := { definitions := { inner := [(p, ⟨.free q, .type⟩)] }, supply := ⟨6⟩ } }
  let c : Session := { s₃.derive with
    store := {
      definitions := { inner := [(x, ⟨.boolType, .type⟩)], outer := [[(p, ⟨.free q, .type⟩)]] }
      supply := ⟨6⟩ }
    visible := [x, p, q] }
  have h₁ : start.step 12 (.assume q .type) = some (.ok .done, s₁) := rfl
  have h₂ : s₁.step 12 (.define p .type value) = some (.ok .done, s₂) := rfl
  have h₃ : s₂.step 12 (.reduce (.free p)) = some (.ok (.term (.free q)), s₃) := rfl
  have h₄ : s₃.step 12 (.infer function) = some (.error (.noRule function), s₃) := rfl
  have h₅ : s₃.derive.step 12 (.define x .type .boolType) = some (.ok .done, c) := rfl
  have h₆ : c.step 12 (.infer (.ref x)) = some (.ok (.typed ⟨.free x, .type⟩), c) := rfl
  have h₇ : s₃.step 12 equal = some (.ok .done, s₃) := rfl
  have hinner : s₃.derive.run 12 inner = some (_, c) :=
    Session.run_step h₅ (Session.run_step h₆ rfl)
  have hrest : s₃.run 12 (.child inner (.step equal .done)) = some (_, s₃) :=
    Session.run_child hinner (Session.run_step h₇ rfl)
  have hrun : start.run 12 script = some (T, s₃) :=
    Session.run_step h₁ (Session.run_step h₂ (Session.run_step h₃ (Session.run_step h₄ hrest)))
  have hempty : ∀ {P : Prop} {b : Binding} {d : Definition},
      start.store.definitions.lookup b = some d → P := fun hd => by cases hd
  have hs : start.store.WellScoped :=
    ⟨fun _ _ hd => hempty hd, fun _ _ hd => hempty hd, fun _ _ hd => hempty hd⟩
  have hscript : script.Below 5 := by
    simp [script, inner, equal, value, function, q, p, k, a, x, Script.Below, Step.Below, Step.All,
      Expr.All, Term.Over]
  have hapart : script.Apart start := by
    refine ⟨?_, fun b _ => rfl, fun c d hd => hempty hd⟩
    simp only [script, inner, equal, value, function, Script.Defines, Script.Assumes, Step.Defines,
      Step.Assumes, Expr.Defines, or_false, false_or]
    rintro b ((rfl | rfl) | rfl) <;> decide
  exact ⟨⟨s₃, hrun⟩, rfl, (only_extensions_matter start).2 hs (fun b d hd => hempty hd)
    (fun b A hA => by cases hA) hscript hapart hrun thinning⟩

/-- What was remembered shows when an assumption is defined. The session assumes `f` and defines `x`
by a type that reduces to functions from booleans to `f`; `h` has that type. If `x` is reduced before
`f` is defined, then `h true` has the type `f`, and else it has the type that `f` is defined as. -/
theorem remembered_before_defined :
    let f : Binding := ⟨0, "f"⟩
    let x : Binding := ⟨1, "x"⟩
    let k : Binding := ⟨2, "k"⟩
    let g : Binding := ⟨3, "g"⟩
    let h : Binding := ⟨4, "h"⟩
    let y : Binding := ⟨5, "_"⟩
    let start : Session := { store := { supply := ⟨6⟩ } }
    let value : Expr := .letIn k (.pi y .type .type) (.lam g (.pi y .boolType (.ref g)))
      (.app (.ref k) (.ref f))
    let last : Step := .infer (.app (.ref h) (.bool true))
    let rest : Script := .step (.define f .type .boolType) (.step last .done)
    let script : Script := .step (.assume f .type) (.step (.define x .type value)
      (.step (.assume h (.free x)) (.step (.reduce (.free x)) rest)))
    let ending : Term → Transcript := fun ty => .step (.define f .type .boolType) (.ok .done)
      (.step last (.ok (.typed ⟨.app (.free h) (.bool true), ty⟩)) .done)
    let T : Transcript := .step (.assume f .type) (.ok .done) (.step (.define x .type value)
      (.ok .done) (.step (.assume h (.free x)) (.ok .done)
        (.step (.reduce (.free x)) (.ok (.term (.pi "_" .boolType (.free f)))) (ending (.free f)))))
    let T' : Transcript := .step (.assume f .type) (.ok .done) (.step (.define x .type value)
      (.ok .done) (.step (.assume h (.free x)) (.ok .done) (ending .boolType)))
    let thinning : Thinning T := .keep (.keep (.keep (.drop trivial (.keep (.keep .done)))))
    (∃ s', start.run 12 script = some (T, s')) ∧
      (∃ s', start.run 12 thinning.script = some (T', s')) ∧ ¬ thinning.Agrees 6 T' := by
  intro f x k g h y start value last rest script ending T T' thinning
  let A : Term := .letIn "k" (.pi "_" .type .type) (.lam (.pi "_" .boolType (.bound 1)))
    (.app (.bound 0) (.free f))
  let s₁ : Session := { start with context := { inner := [(f, .type)] }, visible := [f] }
  let s₂ : Session := { s₁ with
    store := { definitions := { inner := [(x, ⟨A, .type⟩)] }, supply := ⟨6⟩ }
    visible := [x, f] }
  let s₃ : Session := { s₂ with
    context := { inner := [(f, .type), (h, .free x)] }
    visible := [h, x, f] }
  -- What comes after depends on the value of `x` at this point.
  let s₄ : Term → Nat → Session := fun B next => { s₃ with
    store := { definitions := { inner := [(x, ⟨B, .type⟩)] }, supply := ⟨next⟩ } }
  let s₅ : Term → Nat → Session := fun B next => { s₃ with
    store := {
      definitions := { inner := [(x, ⟨B, .type⟩), (f, ⟨.boolType, .type⟩)] }
      supply := ⟨next⟩ }
    visible := [f, h, x, f] }
  have hbefore : ∀ {rest : Script} {E : Transcript} {s' : Session},
      s₃.run 12 rest = some (E, s') →
      start.run 12 (.step (.assume f .type) (.step (.define x .type value)
        (.step (.assume h (.free x)) rest))) =
      some (.step (.assume f .type) (.ok .done) (.step (.define x .type value) (.ok .done)
        (.step (.assume h (.free x)) (.ok .done) E)), s') := by
    intro rest E s' hrest
    have h₁ : start.step 12 (.assume f .type) = some (.ok .done, s₁) := rfl
    have h₂ : s₁.step 12 (.define x .type value) = some (.ok .done, s₂) := rfl
    have h₃ : s₂.step 12 (.assume h (.free x)) = some (.ok .done, s₃) := rfl
    exact Session.run_step h₁ (Session.run_step h₂ (Session.run_step h₃ hrest))
  have hreduce : s₃.step 12 (.reduce (.free x)) =
      some (.ok (.term (.pi "_" .boolType (.free f))), s₄ (.pi "_" .boolType (.free f)) 7) := rfl
  have hdefine : ∀ B next, (s₄ B next).step 12 (.define f .type .boolType) =
      some (.ok .done, s₅ B next) := fun _ _ => rfl
  have hreduced : (s₅ (.pi "_" .boolType (.free f)) 7).step 12 last =
      some (.ok (.typed ⟨.app (.free h) (.bool true), .free f⟩),
        s₅ (.pi "_" .boolType (.free f)) 7) := rfl
  have hplain : (s₅ A 6).step 12 last =
      some (.ok (.typed ⟨.app (.free h) (.bool true), .boolType⟩), s₅ A 7) := rfl
  have hfull : start.run 12 script = some (T, s₅ (.pi "_" .boolType (.free f)) 7) :=
    hbefore (Session.run_step hreduce
      (Session.run_step (hdefine _ _) (Session.run_step hreduced rfl)))
  have hthin : start.run 12 thinning.script = some (T', s₅ A 7) :=
    hbefore (Session.run_step (hdefine A 6) (Session.run_step hplain rfl))
  refine ⟨⟨_, hfull⟩, ⟨_, hthin⟩, fun hagrees => ?_⟩
  obtain ⟨-, -, -, -, -, -, -, -, -, hlast, -⟩ := hagrees
  cases hlast (by simp [last])

end DepLang
