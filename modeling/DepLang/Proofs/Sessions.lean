import DepLang.Proofs.Footprint
import DepLang.Proofs.ScopeSafety
import DepLang.Session

/-!
# The order of definitions in a session

A session that assumes nothing keeps its definitions in order: each mentions only variables that are
defined before it. So putting a term of the session under its definitions leaves no variable open.

* `Session.step_restores`: a step that fails, and a step that only asks, leaves the context and the
  definitions as they are.
* `Normalizes.ordered`: remembering normal forms keeps the order, whatever term is normalised. A
  normal form mentions only what the value led to, and that lies before it.
* `Elaborates.term_within`: a term that an expression elaborates to mentions only recorded
  variables, even if it was checked against a type that leads out of the scope.
* `definitions_stay_ordered`: the invariant in every state that a session reaches, with what it
  means for closing a term.
-/
namespace DepLang

open Check

/-! ## What a step does -/

namespace Step

/-- The step asks, and changes nothing that is in scope. -/
def isQuery : Step → Bool
  | infer _ | type _ | check _ _ | checkAt _ _ | unify _ _ _ | close _ => true
  | define _ _ _ | assume _ _ | reduce _ => false

/-- The step elaborates an expression and answers with what it elaborates to. -/
def isElaboration : Step → Bool
  | infer _ | type _ | check _ _ | checkAt _ _ => true
  | define _ _ _ | assume _ _ | unify _ _ _ | reduce _ | close _ => false

def isAssumption : Step → Bool
  | assume _ _ => true
  | _ => false

end Step

/-- The terms of an answer. -/
def Answer.terms : Answer → List Term
  | done => []
  | term t => [t]
  | typed r => [r.term, r.ty]

theorem elaborateAt_restores (fuel : Nat) (Γ : Context) (e ty : Expr) :
    (elaborateAt fuel Γ e ty).Along Store.Restores :=
  .bind (.bind (elaborate_restores ..) fun _ => .pure _) fun _ =>
    .bind (.bind (elaborate_restores ..) fun _ => .pure _) fun _ => .pure _

theorem elaborates_of_elaborateAt {fuel : Nat} {Γ : Context} {e ty : Expr} {r : Annotated}
    {s s' : Store} (h : (elaborateAt fuel Γ e ty).run s = some (.ok r, s')) :
    ∃ T t s₁, Elaborates Γ .type s ty T s₁ ∧ Elaborates Γ (.check T.term) s₁ e t s' ∧
      r = ⟨t.term, T.term⟩ := by
  obtain ⟨_, s₁, hT, h⟩ := bind_eq_ok.1 h
  obtain ⟨_, s₂, ht, h⟩ := bind_eq_ok.1 h
  obtain ⟨rfl, rfl⟩ := pure_eq_ok.1 h
  obtain ⟨t, ht', rfl⟩ := elaborates_of_term ht
  obtain ⟨T, hT', rfl⟩ := elaborates_of_term hT
  exact ⟨T, t, s₁, hT', ht', rfl⟩

namespace Session

variable {fuel : Nat} {s s' : Session} {st : Step} {r : Except ElaborationError Answer}

/-- The same is in scope in both sessions; only identities have been used up. -/
structure Restores (s s' : Session) : Prop where
  context : s'.context = s.context
  visible : s'.visible = s.visible
  store : s.store.Restores s'.store

theorem perform_eq_some {α : Type} {x : Check α} {r : Except ElaborationError α} :
    s.perform x = some (r, s') ↔
      ∃ store, x.run s.store = some (r, store) ∧ s' = { s with store } := by
  unfold perform
  cases x.run s.store with
  | none => simp
  | some result =>
    obtain ⟨outcome, store⟩ := result
    constructor
    · intro h
      cases h
      exact ⟨store, rfl, rfl⟩
    · rintro ⟨_, h, rfl⟩
      cases h
      rfl

theorem perform_restores {α : Type} {x : Check α} {r : Except ElaborationError α}
    (hx : x.Along Store.Restores) (h : s.perform x = some (r, s')) : s.Restores s' := by
  obtain ⟨store, hrun, rfl⟩ := perform_eq_some.1 h
  exact ⟨rfl, rfl, hx.run hrun⟩

theorem perform_map_ok {α : Type} {x : Check α} {f : α → Answer} {answer : Answer}
    (h : s.perform (f <$> x) = some (.ok answer, s')) :
    ∃ a, x.run s.store = some (.ok a, s'.store) ∧ answer = f a := by
  obtain ⟨store, hrun, rfl⟩ := perform_eq_some.1 h
  rw [map_eq_bind] at hrun
  obtain ⟨a, s₁, ha, hrun⟩ := bind_eq_ok.1 hrun
  obtain ⟨rfl, rfl⟩ := pure_eq_ok.1 hrun
  exact ⟨a, ha, rfl⟩

theorem step_define_ok {b : Binding} {ty value : Expr} {answer : Answer}
    (h : s.step fuel (.define b ty value) = some (.ok answer, s')) :
    ∃ T t s₁ s₂, Elaborates s.context .type s.store ty T s₁ ∧
      Elaborates s.context (.check T.term) s₁ value t s₂ ∧ s₂.definitions.lookup b = none ∧
      s' = { s with
        store := { s₂ with definitions := s₂.definitions.bind b ⟨t.term, T.term⟩ }
        visible := b :: s.visible } := by
  obtain ⟨⟨_ | _, s₁⟩, hs₁, hreveal⟩ := Option.map_eq_some_iff.1 h
  · cases hreveal
  · obtain ⟨store, hrun, rfl⟩ := perform_eq_some.1 hs₁
    obtain ⟨_, s₂, hel, hrun⟩ := bind_eq_ok.1 hrun
    obtain ⟨_, s₃, hdefine, hrun⟩ := bind_eq_ok.1 hrun
    obtain ⟨-, rfl⟩ := pure_eq_ok.1 hrun
    obtain ⟨definitions, hinsert, rfl⟩ := define_eq_ok.1 hdefine
    obtain ⟨hfresh, rfl⟩ := Scope.insert_eq_ok.1 hinsert
    obtain ⟨T, t, s₄, hT, ht, rfl⟩ := elaborates_of_elaborateAt hel
    cases hreveal
    exact ⟨T, t, s₄, s₂, hT, ht, hfresh, rfl⟩

theorem step_define_error {b : Binding} {ty value : Expr} {error : ElaborationError}
    (h : s.step fuel (.define b ty value) = some (.error error, s')) : s.Restores s' := by
  obtain ⟨⟨_ | _, s₁⟩, hs₁, hreveal⟩ := Option.map_eq_some_iff.1 h
  · cases hreveal
    obtain ⟨store, hrun, rfl⟩ := perform_eq_some.1 hs₁
    rcases bind_eq_error.1 hrun with hel | ⟨result, s₂, hel, hrun⟩
    · exact ⟨rfl, rfl, (elaborateAt_restores ..).run hel⟩
    · have hs₂ := (elaborateAt_restores ..).run hel
      rcases bind_eq_error.1 hrun with hdefine | ⟨_, s₃, -, hrun⟩
      · rw [define_eq_error hdefine]
        exact ⟨rfl, rfl, hs₂⟩
      · exact absurd hrun pure_ne_error
  · cases hreveal

/-- **What does not change the scope.** A step that fails leaves the context and the definitions as
they are, and so does one that only asks. -/
theorem step_restores (h : s.step fuel st = some (r, s'))
    (hst : st.isQuery = true ∨ ∃ error, r = .error error) : s.Restores s' := by
  cases st with
  | define b ty value =>
    rcases hst with hst | ⟨error, rfl⟩
    · cases hst
    · exact step_define_error h
  | assume b ty =>
    rcases hst with hst | ⟨error, rfl⟩
    · cases hst
    · rw [step] at h
      split at h
      · cases h
      · cases h
        exact ⟨rfl, rfl, rfl, Nat.le_refl _⟩
  | infer e => exact perform_restores (.bind (elaborate_restores ..) fun _ => .pure _) h
  | type e =>
    exact perform_restores (.bind (.bind (elaborate_restores ..) fun _ => .pure _) fun _ => .pure _) h
  | check e ty =>
    exact perform_restores (.bind (.bind (elaborate_restores ..) fun _ => .pure _) fun _ => .pure _) h
  | checkAt e ty => exact perform_restores (.bind (elaborateAt_restores ..) fun _ => .pure _) h
  | unify lhs rhs ty => exact perform_restores (.bind (unify_restores ..) fun _ => .pure _) h
  | reduce t =>
    rcases hst with hst | ⟨error, rfl⟩
    · cases hst
    · obtain ⟨store, hrun, -⟩ := perform_eq_some.1 h
      rw [map_eq_bind] at hrun
      rcases bind_eq_error.1 hrun with hrun | ⟨_, _, -, hrun⟩
      · exact absurd hrun lift_ne_error
      · exact absurd hrun pure_ne_error
  | close t =>
    cases h
    exact ⟨rfl, rfl, rfl, Nat.le_refl _⟩

/-- Reducing a term is the one step that changes definitions without adding any. -/
theorem step_reduce {t : Term} (h : s.step fuel (.reduce t) = some (r, s')) :
    ∃ u, r = .ok (.term u) ∧ Normalizes t s.store u s'.store ∧ s'.context = s.context ∧
      s'.visible = s.visible := by
  obtain ⟨store, hrun, rfl⟩ := perform_eq_some.1 h
  rw [map_eq_bind] at hrun
  cases r with
  | error error =>
    rcases bind_eq_error.1 hrun with hrun | ⟨_, _, -, hrun⟩
    · exact absurd hrun lift_ne_error
    · exact absurd hrun pure_ne_error
  | ok answer =>
    obtain ⟨u, hu, rfl⟩ := perform_map_ok h
    exact ⟨u, rfl, normalizes_of_whnf (lift_eq_ok.1 hu), rfl, rfl⟩

end Session

/-! ## Definitions in order -/

/-- Each definition mentions only variables that are defined before it. -/
def Definitions.Ordered (definitions : Definitions) : Prop :=
  ∀ before b after d, definitions.keys = before ++ b :: after → definitions.lookup b = some d →
    d.ty.Within (· ∈ before) ∧ d.value.Within (· ∈ before)

namespace Definitions.Ordered

variable {definitions : Definitions}

theorem within_keys (h : definitions.Ordered) {b : Binding} {d : Definition}
    (hd : definitions.lookup b = some d) :
    d.ty.Within (· ∈ definitions.keys) ∧ d.value.Within (· ∈ definitions.keys) := by
  obtain ⟨before, after, hkeys⟩ := List.append_of_mem (Scope.mem_keys.2 (Option.isSome_of_mem hd))
  obtain ⟨hty, hvalue⟩ := h before b after d hkeys hd
  have hsub : ∀ c ∈ before, c ∈ definitions.keys := fun c hc => by simp [hkeys, hc]
  exact ⟨hty.mono hsub, hvalue.mono hsub⟩

theorem encloses {s : Store} (h : Ordered s.definitions) {before after : List Binding}
    (hkeys : s.definitions.keys = before ++ after) : s.Encloses (· ∈ before) := by
  intro c d hd hc
  obtain ⟨l, l', rfl⟩ := List.append_of_mem hc
  have hkeys' : s.definitions.keys = l ++ c :: (l' ++ after) := by simp [hkeys]
  exact (h l c _ d hkeys' hd).2.vars.mono fun b hb => by simp [hb]

theorem bind (h : definitions.Ordered) {b : Binding} {d : Definition}
    (hb : definitions.lookup b = none) (hty : d.ty.Within (· ∈ definitions.keys))
    (hvalue : d.value.Within (· ∈ definitions.keys)) : Ordered (definitions.bind b d) := by
  intro before c after e hkeys he
  rw [Scope.keys_bind_of_none hb] at hkeys
  rcases List.eq_nil_or_concat after with rfl | ⟨after', x, rfl⟩
  · obtain ⟨rfl, hcb⟩ := List.append_inj' hkeys rfl
    obtain rfl : b = c := by simpa using hcb
    rw [Scope.lookup_bind_self d hb] at he
    cases he
    exact ⟨hty, hvalue⟩
  · have hconcat : definitions.keys ++ [b] = (before ++ c :: after') ++ [x] := by
      simpa using hkeys
    obtain ⟨hkeys', -⟩ := List.append_inj' hconcat rfl
    have hcb : c ≠ b := by
      rintro rfl
      have hmem : c ∈ definitions.keys := by rw [hkeys']; simp
      rw [Scope.mem_keys, hb] at hmem
      cases hmem
    rw [Scope.lookup_bind_of_ne _ _ hcb] at he
    exact h before c after' e hkeys' he

theorem bindings (h : definitions.Ordered) {before after : Telescope} {b : Binding}
    {d : Definition} (heq : definitions.bindings = before ++ (b, d) :: after) :
    d.ty.Within (· ∈ before.map Prod.fst) ∧ d.value.Within (· ∈ before.map Prod.fst) := by
  have hkeys : definitions.keys = before.map Prod.fst ++ b :: after.map Prod.fst := by
    rw [← Scope.map_fst_bindings, heq, List.map_append, List.map_cons]
  exact h _ b _ d hkeys (Scope.mem_bindings.1 (by rw [heq]; simp))

theorem derive (h : definitions.Ordered) : Ordered (Scope.derive definitions) := by
  intro before b after d hkeys hd
  rw [Scope.keys_derive] at hkeys
  rw [Scope.lookup_derive] at hd
  exact h before b after d hkeys hd

end Definitions.Ordered

/-- **Normalising keeps the order.** The values that are remembered are over what comes before them.
It is asked for nothing else that they have no dangling index. -/
theorem Normalizes.ordered {t u : Term} {s s' : Store} (h : Normalizes t s u s')
    (hs : s.definitions.Ordered)
    (hclosed : ∀ b d, s'.definitions.lookup b = some d → d.value.LocallyClosed) :
    Definitions.Ordered s'.definitions := by
  intro before b after d' hkeys hd'
  rw [h.settles.keys] at hkeys
  obtain ⟨d, hd, hover⟩ := (h.confined (hs.encloses hkeys)).1.values b d' hd'
  obtain ⟨hty, hvalue⟩ := hs before b after d hkeys hd
  have htypes := h.ages.types b
  rw [hd, hd'] at htypes
  rw [Option.some.inj htypes]
  exact ⟨hty, hclosed b d' hd', hover hvalue.vars⟩

namespace Telescope

/-- Each entry mentions only variables in `S` and those of the entries before it, and has no dangling
index. -/
def Layered (S : Binding → Prop) (entries : Telescope) : Prop :=
  ∀ before b d after, entries = before ++ (b, d) :: after →
    d.ty.Within (fun c => S c ∨ c ∈ before.map Prod.fst) ∧
      d.value.Within fun c => S c ∨ c ∈ before.map Prod.fst

theorem layered_nil (S : Binding → Prop) : Layered S [] := by simp [Layered]

theorem layered_cons_iff {S : Binding → Prop} {b : Binding} {d : Definition} {entries : Telescope} :
    Layered S ((b, d) :: entries) ↔
      (d.ty.Within S ∧ d.value.Within S) ∧ Layered (fun c => c = b ∨ S c) entries := by
  have hshift : ∀ (before : Telescope) c, (S c ∨ c ∈ ((b, d) :: before).map Prod.fst) ↔
      ((c = b ∨ S c) ∨ c ∈ before.map Prod.fst) := by
    intro before c
    simp only [List.map_cons, List.mem_cons]
    grind
  constructor
  · intro h
    obtain ⟨hty, hvalue⟩ := h [] b d entries rfl
    refine ⟨⟨hty.mono fun c hc => by simpa using hc, hvalue.mono fun c hc => by simpa using hc⟩, ?_⟩
    intro before c e after heq
    obtain ⟨hety, hevalue⟩ := h ((b, d) :: before) c e after (by rw [heq]; rfl)
    exact ⟨hety.mono fun x => (hshift before x).1, hevalue.mono fun x => (hshift before x).1⟩
  · rintro ⟨⟨hty, hvalue⟩, h⟩ (_ | ⟨entry, before⟩) c e after heq
    · cases heq
      exact ⟨hty.mono fun _ => .inl, hvalue.mono fun _ => .inl⟩
    · cases heq
      obtain ⟨hety, hevalue⟩ := h before c e after rfl
      exact ⟨hety.mono fun x => (hshift before x).2, hevalue.mono fun x => (hshift before x).2⟩

/-- Putting a term under definitions in order takes out all of their variables. -/
theorem wrap_within {entries : Telescope} {S : Binding → Prop} {t : Term} (h : entries.Layered S)
    (ht : t.Within fun c => S c ∨ c ∈ entries.map Prod.fst) : (entries.wrap t).Within S := by
  induction entries generalizing S with
  | nil => exact ht.mono fun c hc => by simpa using hc
  | cons entry entries ih =>
    obtain ⟨⟨hty, hvalue⟩, hentries⟩ := layered_cons_iff.1 h
    refine .makeLet hty hvalue (ih hentries (ht.mono fun c hc => ?_))
    simp only [List.map_cons, List.mem_cons] at hc
    grind

end Telescope

/-! ## Terms of an expression -/

theorem Peels.isSome_lookup_minted {t u : Term} {peeled : Telescope} {s s' : Store}
    (h : Peels t s peeled u s') {b : Binding} (hb : b.id < s.supply.next) :
    (s'.definitions.lookup b).isSome = (s.definitions.lookup b).isSome := by
  induction h with
  | head h _ => exact h.ages.isSome_lookup b
  | @peel t ty v body u name c peeled s s₁ s₂ h hc _ ih =>
    have hle := h.ages.supply
    have hne : b ≠ (s₁.supply.mint name).1 := by
      rintro rfl
      exact absurd hb (Nat.not_lt.2 hle)
    have hb₁ : b.id < (s₁.enter name ⟨v, ty⟩).supply.next := by
      rw [Store.enter_supply_next]
      omega
    rw [ih hb₁, Store.lookup_enter_of_ne _ hne, h.ages.isSome_lookup]

/-- The term that an expression elaborates to mentions only variables that are recorded and that the
expression could mention. Nothing is asked of the types on the way. -/
theorem Elaborates.term_within {Γ : Context} {mode : Mode} {e : Expr} {r : Annotated} {s s' : Store}
    (h : Elaborates Γ mode s e r s') {n : Nat} (hn : n ≤ s.supply.next)
    (he : e.Over fun b => b.id < n) {S : Binding → Prop}
    (hS : ∀ b, b.id < n → Recorded Γ s b → S b) : r.term.Within S := by
  induction h generalizing S with
  | type h | boolType h | bool h =>
    rw [h.term_eq]
    exact ⟨trivial, trivial⟩
  | @ref Γ mode b T r s s' hT h =>
    rw [h.term_eq]
    refine ⟨trivial, hS b he ?_⟩
    cases hd : s.definitions.lookup b with
    | some d => exact .inr (by simp [Scope.contains, hd])
    | none =>
      rw [hd] at hT
      exact .inl (by simpa [Scope.contains] using congrArg Option.isSome hT)
  | @pi Γ mode b domain codomain A B r s s₁ s₂ s₃ hA _ _ h ihA ihB =>
    have hA' := ihA hn he.1 hS
    have hB' := (ihB (Nat.le_trans hn hA.supply_le) he.2 fun c hc hrec =>
      hrec.of_bind.imp_right fun hrec =>
        hS c hc (hrec.of_isSome (by rw [hA.definitions_eq]))).lam_close
    rw [h.term_eq]
    exact Term.within_pi.2 ⟨hA', hB'⟩
  | @lam Γ mode b body T A B name peeled r s s₁ s₂ _ hpeel _ hbody ih =>
    have hle := Nat.le_trans hn hpeel.supply_le
    have hr := (ih hle he fun c hc hrec => hrec.of_bind.imp_right fun hrec => by
      have hl := hpeel.isSome_lookup_minted (Nat.lt_of_lt_of_le hc hn)
      rw [Store.lookup_derive] at hl
      exact hS c hc (hrec.of_isSome hl.symm)).lam_close
    have hbelow : (Term.lam (r.term.close b)).Below n := (hbody.translate_eq hle he).2.close b
    rw [hpeel.wrap_eq hbelow hn]
    exact hr
  | @app Γ mode function argument A B name peeled f a r s s₁ s₂ s₃ s₄ hf hpeel ha h ihf iha =>
    have hf' := ihf hn he.1 hS
    have hle := Nat.le_trans hn hf.supply_le
    have hle' := Nat.le_trans hle hpeel.supply_le
    have ha' := iha hle' he.2 fun c hc hrec => by
      have hl := hpeel.isSome_lookup_minted (Nat.lt_of_lt_of_le hc hle)
      rw [Store.lookup_derive, hf.definitions_eq] at hl
      exact hS c hc (hrec.of_isSome hl.symm)
    rw [h.term_eq, hpeel.wrap_eq (ha.translate_eq hle' he.2).2 hle]
    exact Term.within_app.2 ⟨hf', ha'⟩
  | @letIn Γ mode b ty value body A v r s s₁ s₂ s₃ hA hv _ _ ihA ihv ihb =>
    have hA' := ihA hn he.1 hS
    have hle := Nat.le_trans hn hA.supply_le
    have hv' := ihv hle he.2.1 fun c hc hrec =>
      hS c hc (hrec.of_isSome (by rw [hA.definitions_eq]))
    refine .makeLet hA' hv' (ihb (Nat.le_trans hle hv.supply_le) he.2.2 fun c hc hrec => ?_)
    exact hrec.of_define.imp_right fun hrec =>
      hS c hc (hrec.of_isSome (by rw [hv.definitions_eq, hA.definitions_eq]))

/-! ## Sessions in order -/

namespace Session

/-- Nothing is assumed, what is defined has been minted, and the definitions are in order. -/
structure Ordered (s : Session) : Prop where
  context : ∀ b, s.context.lookup b = none
  minted : ∀ b ∈ s.store.definitions.keys, b.id < s.store.supply.next
  ordered : s.store.definitions.Ordered

namespace Ordered

variable {s s' : Session}

theorem recorded_iff (h : s.Ordered) (b : Binding) :
    Recorded s.context s.store b ↔ b ∈ s.store.definitions.keys := by
  simp [Recorded, Scope.contains, h.context b, Scope.mem_keys]

theorem scopeClosed (h : s.Ordered) : ScopeClosed s.context s.store where
  minted b hb := h.minted b ((h.recorded_iff b).1 hb)
  assumed b A hA := by rw [h.context b] at hA; cases hA
  types b d hd := (h.ordered.within_keys hd).1.mono fun c => (h.recorded_iff c).2
  values b d hd := (h.ordered.within_keys hd).2.mono fun c => (h.recorded_iff c).2

theorem of_restores (h : s.Ordered) (hs : s.Restores s') : s'.Ordered where
  context b := by rw [hs.context]; exact h.context b
  minted b hb := by
    rw [hs.store.definitions] at hb
    exact Nat.lt_of_lt_of_le (h.minted b hb) hs.store.supply
  ordered := by rw [hs.store.definitions]; exact h.ordered

theorem derive (h : s.Ordered) : s.derive.Ordered where
  context b := (Scope.lookup_derive _ b).trans (h.context b)
  minted b hb := h.minted b (by simpa [Session.derive, Scope.keys_derive] using hb)
  ordered := h.ordered.derive

/-- Normal forms that are remembered have no dangling index, since they are reducts. -/
theorem of_normalizes (h : s.Ordered) {t u : Term} (hn : Normalizes t s.store u s'.store)
    (hcontext : s'.context = s.context) : s'.Ordered where
  context b := by rw [hcontext]; exact h.context b
  minted b hb := by
    rw [hn.settles.keys] at hb
    exact Nat.lt_of_lt_of_le (h.minted b hb) hn.ages.supply
  ordered := by
    refine hn.ordered h.ordered fun b d' hd' => ?_
    obtain ⟨d, hd, -⟩ := hn.ages.lookup_eq_some hd'
    have hvalue : s.store.values b = some d.value := by simp [Store.values, hd]
    obtain ⟨e, he, hr⟩ := (hn.tracks h.scopeClosed.records.tracks).defined b d.value hvalue
    rw [hd'] at he
    cases he
    exact hr.locallyClosed.2

theorem define (h : s.Ordered) {fuel : Nat} {b : Binding} {ty value : Expr} {answer : Answer}
    (hst : (Step.define b ty value).Minted s.store.supply.next)
    (hstep : s.step fuel (.define b ty value) = some (.ok answer, s')) : s'.Ordered := by
  obtain ⟨hb, hty, hvalue⟩ := hst
  obtain ⟨T, t, s₁, s₂, hT, ht, hfresh, rfl⟩ := step_define_ok hstep
  have hR := h.scopeClosed.records
  obtain ⟨hT', ht'⟩ := hT.within_ascribed ht hR (Nat.le_refl _) hty hvalue
  have hsame : s₂.definitions = s.store.definitions := ht.definitions_eq.trans hT.definitions_eq
  have hle := Nat.le_trans hT.supply_le ht.supply_le
  refine ⟨h.context, fun c hc => ?_, ?_⟩
  · rw [Scope.keys_bind_of_none hfresh, hsame, List.mem_append, List.mem_singleton] at hc
    rcases hc with hc | rfl
    · exact Nat.lt_of_lt_of_le (h.minted c hc) hle
    · exact Nat.lt_of_lt_of_le hb hle
  · have hkeys : ∀ c, Recorded s.context s.store c → c ∈ s₂.definitions.keys := fun c hc => by
      rw [hsame]
      exact (h.recorded_iff c).1 hc
    exact Definitions.Ordered.bind (hsame ▸ h.ordered) hfresh (hT'.mono hkeys) (ht'.mono hkeys)

theorem step (h : s.Ordered) {fuel : Nat} {st : Step} {r : Except ElaborationError Answer}
    (hassume : st.isAssumption = false) (hst : st.Minted s.store.supply.next)
    (hstep : s.step fuel st = some (r, s')) : s'.Ordered := by
  cases st with
  | define b ty value =>
    cases r with
    | ok answer => exact h.define hst hstep
    | error error => exact h.of_restores (step_restores hstep (.inr ⟨error, rfl⟩))
  | assume b ty => cases hassume
  | reduce t =>
    obtain ⟨u, -, hn, hcontext, -⟩ := step_reduce hstep
    exact h.of_normalizes hn hcontext
  | infer | type | check | checkAt | unify | close =>
    exact h.of_restores (step_restores hstep (.inl rfl))

/-- What a step of the session elaborates to is over what the session defines. -/
theorem answer_within (h : s.Ordered) {fuel : Nat} {st : Step} {answer : Answer}
    (hel : st.isElaboration = true) (hst : st.Minted s.store.supply.next)
    (hstep : s.step fuel st = some (.ok answer, s')) :
    ∀ t ∈ answer.terms, t.Within (· ∈ s.store.definitions.keys) := by
  have hR := h.scopeClosed.records
  have hout : ∀ {t : Term}, t.Within (Recorded s.context s.store) →
      t.Within (· ∈ s.store.definitions.keys) := fun ht => ht.mono fun c => (h.recorded_iff c).1
  cases st with
  | define | assume | unify | reduce | close => cases hel
  | infer e =>
    obtain ⟨r, hrun, rfl⟩ := perform_map_ok hstep
    have hr := (elaborates_of_run e hrun).within hR (Nat.le_refl _) hst fun C hC => by cases hC
    simp [Answer.terms, hout hr.term, hout hr.ty]
  | type e =>
    obtain ⟨t, hrun, rfl⟩ := perform_map_ok hstep
    obtain ⟨r, hr, rfl⟩ := elaborates_of_term hrun
    simp [Answer.terms, hout (hr.within hR (Nat.le_refl _) hst Mode.type_within).term]
  | check e ty =>
    obtain ⟨t, hrun, rfl⟩ := perform_map_ok hstep
    obtain ⟨r, hr, rfl⟩ := elaborates_of_term hrun
    have ht := hr.term_within (Nat.le_refl _) (Expr.All.refs_over hst.1)
      fun b _ hb => (h.recorded_iff b).1 hb
    simpa [Answer.terms] using ht
  | checkAt e ty =>
    obtain ⟨r, hrun, rfl⟩ := perform_map_ok hstep
    obtain ⟨T, t, s₁, hT, ht, rfl⟩ := elaborates_of_elaborateAt hrun
    obtain ⟨hT', ht'⟩ := hT.within_ascribed ht hR (Nat.le_refl _) hst.2 hst.1
    simp [Answer.terms, hout ht', hout hT']

theorem wrap_closed (h : s.Ordered) {t : Term} (ht : t.Within (· ∈ s.store.definitions.keys)) :
    (s.store.definitions.wrap t).LocallyClosed ∧ (s.store.definitions.wrap t).census = [] := by
  have hwrap : (s.store.definitions.wrap t).Within fun _ => False := by
    refine Telescope.wrap_within (fun before b d after heq => ?_) ?_
    · obtain ⟨hty, hvalue⟩ := h.ordered.bindings heq
      exact ⟨hty.mono fun _ => .inr, hvalue.mono fun _ => .inr⟩
    · rw [Scope.map_fst_bindings]
      exact ht.mono fun _ => .inr
  exact ⟨hwrap.closed, Term.census_of_closed hwrap.vars⟩

end Ordered

/-! ## Every state that a session reaches -/

theorem step_grows {fuel : Nat} {s s' : Session} {st : Step} {r : Except ElaborationError Answer}
    (h : s.step fuel st = some (r, s')) : s.store.Grows s'.store := by
  cases st with
  | define b ty value =>
    cases r with
    | ok answer =>
      obtain ⟨T, t, s₁, s₂, hT, ht, -, rfl⟩ := step_define_ok h
      exact Nat.le_trans hT.supply_le ht.supply_le
    | error error => exact (step_restores h (.inr ⟨error, rfl⟩)).store.supply
  | assume b ty =>
    rw [step] at h
    split at h <;> cases h <;> exact Nat.le_refl _
  | reduce t =>
    obtain ⟨u, -, hn, -, -⟩ := step_reduce h
    exact hn.ages.supply
  | infer | type | check | checkAt | unify | close => exact (step_restores h (.inl rfl)).store.supply

/-- The second session is a state that a session can reach from the first one, by steps that assume
nothing and by children that do so. The bindings that a step mentions are minted before it. -/
inductive Reaches : Session → Session → Prop where
  | start {s : Session} : Reaches s s
  /-- Bindings are minted for what is to come. -/
  | mint {s s' : Session} {n : Nat} : Reaches s s' → s'.store.supply.next ≤ n →
      Reaches s { s' with store := { s'.store with supply := ⟨n⟩ } }
  | step {s s₁ s₂ : Session} {fuel : Nat} {st : Step} {r : Except ElaborationError Answer} :
      Reaches s s₁ → st.isAssumption = false → st.Minted s₁.store.supply.next →
      s₁.step fuel st = some (r, s₂) → Reaches s s₂
  /-- A child begins. -/
  | enter {s s' : Session} : Reaches s s' → Reaches s s'.derive
  /-- A child has ended. -/
  | leave {α : Type} {s s₁ s₂ t : Session} {child : Session → Option (α × Session)} {a : α} :
      Reaches s s₁ → Reaches s₁.derive t → child s₁.derive = some (a, t) →
      s₁.inChild child = some (a, s₂) → Reaches s s₂

namespace Reaches

variable {s s' : Session}

theorem grows (h : Reaches s s') : s.store.Grows s'.store := by
  induction h with
  | start => exact Nat.le_refl _
  | mint _ hn ih => exact Nat.le_trans ih hn
  | step _ _ _ hstep ih => exact Nat.le_trans ih (step_grows hstep)
  | enter _ ih => exact ih
  | leave _ _ hchild hin ih iht =>
    rw [inChild, hchild] at hin
    cases hin
    exact Nat.le_trans ih iht

/-- **The order is kept**, by every step and by every child. -/
theorem ordered (h : Reaches s s') (hs : s.Ordered) : s'.Ordered := by
  induction h with
  | start => exact hs
  | mint _ hn ih => exact (ih hs).of_restores ⟨rfl, rfl, rfl, hn⟩
  | step _ hassume hst hstep ih => exact (ih hs).step hassume hst hstep
  | enter _ ih => exact (ih hs).derive
  | leave _ ht hchild hin ih _ =>
    rw [inChild, hchild] at hin
    cases hin
    exact (ih hs).of_restores ⟨rfl, rfl, rfl, ht.grows⟩

end Reaches

theorem empty_ordered (n : Nat) : Ordered { store := { supply := ⟨n⟩ } } where
  context _ := rfl
  minted b hb := by cases hb
  ordered before b after d _ hd := by cases hd

end Session

/-- **Definitions stay in order, and closing closes.** In every state that an empty session reaches
without assuming anything, inside of its children too, each definition mentions only variables that
are listed before it, and no index of it dangles. So whatever an expression elaborates to there has
no variable left and no dangling index once it is closed. -/
theorem definitions_stay_ordered {n : Nat} {s : Session}
    (h : Session.Reaches { store := { supply := ⟨n⟩ } } s) :
    (∀ before b d after, s.store.definitions.bindings = before ++ (b, d) :: after →
      d.ty.Within (· ∈ before.map Prod.fst) ∧ d.value.Within (· ∈ before.map Prod.fst)) ∧
    ∀ {fuel : Nat} {st : Step} {answer : Answer} {s' : Session}, st.isElaboration = true →
      st.Minted s.store.supply.next → s.step fuel st = some (.ok answer, s') →
      ∀ t ∈ answer.terms, ∃ u, s'.step fuel (.close t) = some (.ok (.term u), s') ∧
        u.LocallyClosed ∧ u.census = [] := by
  have hs := h.ordered (Session.empty_ordered n)
  refine ⟨fun before b d after heq => hs.ordered.bindings heq, ?_⟩
  intro fuel st answer s' hel hst hstep t ht
  have hquery : st.isQuery = true := by cases st <;> first | rfl | cases hel
  have hsame := Session.step_restores hstep (.inl hquery)
  have hclosed := (hs.of_restores hsame).wrap_closed (t := t) (by
    rw [hsame.store.definitions]
    exact hs.answer_within hel hst hstep t ht)
  exact ⟨_, rfl, hclosed⟩

/-- `p` is defined by an application under a `let`, and `q` has the type `p`. A child reduces `p`; the
normal form is remembered in the child, in the place of `p`. -/
theorem definitions_stay_ordered_child :
    let p : Binding := ⟨0, "p"⟩
    let q : Binding := ⟨1, "q"⟩
    let k : Binding := ⟨2, "k"⟩
    let a : Binding := ⟨3, "a"⟩
    let value : Expr := .letIn k (.pi a .type .type) (.lam a (.ref a)) (.app (.ref k) .boolType)
    let start : Session := { store := { supply := ⟨4⟩ } }
    let first : Definition :=
      ⟨.letIn "k" (.pi "a" .type .type) (.lam (.bound 0)) (.app (.bound 0) .boolType), .type⟩
    let second : Definition := ⟨.bool true, .free p⟩
    let s : Session := {
      context := { outer := [[]] }
      store := {
        definitions := { inner := [(p, ⟨.boolType, .type⟩)], outer := [[(p, first), (q, second)]] }
        supply := ⟨6⟩ }
      visible := [q, p] }
    start.step 12 (.define p .type value) = some (.ok .done, { start with
        store := { definitions := { inner := [(p, first)] }, supply := ⟨4⟩ }
        visible := [p] }) ∧
      start.Reaches s ∧ s.store.definitions.bindings = [(p, ⟨.boolType, .type⟩), (q, second)] ∧
      ∃ u, s.step 12 (.close (.free q)) = some (.ok (.term u), s) ∧ u.LocallyClosed ∧
        u.census = [] := by
  intro p q k a value start first second s
  let s₁ : Session := {
    store := { definitions := { inner := [(p, first)] }, supply := ⟨4⟩ }
    visible := [p] }
  let s₂ : Session := {
    store := { definitions := { inner := [(p, first), (q, second)] }, supply := ⟨5⟩ }
    visible := [q, p] }
  have h₁ : start.step 12 (.define p .type value) = some (.ok .done, s₁) := rfl
  have h₂ : s₁.step 12 (.define q (.ref p) (.bool true)) = some (.ok .done, s₂) := rfl
  have h₃ : s₂.derive.step 12 (.reduce (.free p)) = some (.ok (.term .boolType), s) := rfl
  have h₄ : s.step 12 (.infer (.ref q)) = some (.ok (.typed ⟨.free q, .free p⟩), s) := rfl
  have hm₁ : (Step.define p .type value).Minted 4 := by
    simp [Step.Minted, Step.All, Expr.All, value, p, k, a]
  have hm₂ : (Step.define q (.ref p) (.bool true)).Minted 4 := by
    simp [Step.Minted, Step.All, Expr.All, p, q]
  have hm₃ : (Step.reduce (.free p)).Minted 5 := by simp [Step.Minted, Step.All]
  have hm₄ : (Step.infer (.ref q)).Minted 6 := by simp [Step.Minted, Step.All, Expr.All, q]
  have hreach₂ : start.Reaches s₂ := .step (.step .start rfl hm₁ h₁) rfl hm₂ h₂
  have hreach : start.Reaches s := .step (.enter hreach₂) rfl hm₃ h₃
  exact ⟨h₁, hreach, rfl, (definitions_stay_ordered hreach).2 rfl hm₄ h₄ (.free q) (.head _)⟩

end DepLang
