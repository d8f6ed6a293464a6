import DepLang.Proofs.TypeSoundness

/-!
# No variable escapes elaboration

Elaboration opens binders, moves the `let`s of types into the store and instantiates codomains in
scopes that are discarded later. What it returns mentions none of the variables that were opened on
the way: every variable of the term and of its type is one that the context or the definitions
recorded at the start, and no index dangles.

* `Records S E Γ s`: the variables in `S` include all that the context and the store record, and
  neither a type nor a value of theirs leads out of `S`.
* `Telescope.Leads S peeled T`: going under peeled `let`s leads from `S` to `T`, and putting them
  back leads from `T` to `S` again (`Telescope.Leads.wrap`).
* `Elaborates.within`: the invariant, one case for each rule of elaboration.

Nothing here depends on types being right, and a binder may bind a variable that is in scope
already. Then `S` does not grow, and closing the binder takes the variable out of the body only.
-/
namespace DepLang

namespace Term

theorem countInto_of_closed {t : Term} (h : t.Over fun _ => False) (counts : Census) :
    t.countInto counts = counts := by
  induction t generalizing counts with
  | bound | bool | boolType | type => rfl
  | free => exact h.elim
  | lam body ih => exact ih h counts
  | pi _ _ _ ihd ihc => rw [countInto, ihd h.1, ihc h.2]
  | app _ _ ihf iha => rw [countInto, ihf h.1, iha h.2]
  | letIn _ _ _ _ iht ihv ihb => rw [countInto, iht h.1, ihv h.2.1, ihb h.2.2]

theorem census_of_closed {t : Term} (h : t.Over fun _ => False) : t.census = [] :=
  countInto_of_closed h []

namespace Within

variable {S : Binding → Prop} {b : Binding} {t : Term}

theorem lam_close (h : t.Within fun c => c = b ∨ S c) : (lam (t.close b)).Within S :=
  ⟨h.closed.close b, Over.close h.vars⟩

theorem makeLet {A v : Term} (hA : A.Within S) (hv : v.Within S)
    (ht : t.Within fun c => c = b ∨ S c) : (makeLet b A v t).Within S := by
  refine ⟨?_, .makeLet hA.vars hv.vars ht.vars⟩
  rcases makeLet_cases b A v t with ⟨-, heq⟩ | heq
  · rw [heq]
    exact ht.closed
  · rw [heq]
    exact ⟨hA.closed, hv.closed, ht.lam_close.closed⟩

end Within

end Term

/-! ## What is recorded -/

/-- `S` has every variable that the context or the store records, and their types and values do not
lead out of it. As for `Tracks`, the values are those that `E` gives, up to reduction. -/
structure Records (S : Binding → Prop) (E : Values) (Γ : Context) (s : Store) : Prop where
  tracks : Tracks S E s
  context : ∀ b A, Γ.lookup b = some A → S b ∧ A.Within S
  definitions : ∀ b d, s.definitions.lookup b = some d → S b ∧ d.ty.Within S

namespace Records

variable {S : Binding → Prop} {E : Values} {Γ : Context} {s s' : Store}

theorem of_normalizes (h : Records S E Γ s) {t u : Term} (hn : Normalizes t s u s') :
    Records S E Γ s' := by
  refine ⟨hn.tracks h.tracks, h.context, fun b d hd => ?_⟩
  obtain ⟨d', hd', he⟩ := hn.ages.lookup_eq_some hd
  rw [← he]
  exact h.definitions b d' hd'

theorem of_lookup (h : Records S E Γ s) (hs : s.supply.next ≤ s'.supply.next)
    (hl : ∀ b, s'.definitions.lookup b = s.definitions.lookup b) : Records S E Γ s' :=
  ⟨h.tracks.of_lookup hs hl, h.context, fun b d hd => h.definitions b d (hl b ▸ hd)⟩

theorem derive (h : Records S E Γ s) : Records S E Γ s.derive :=
  h.of_lookup (Nat.le_refl _) s.lookup_derive

theorem of_elaborates (h : Records S E Γ s) {Γ' : Context} {mode : Mode} {e : Expr} {r : Annotated}
    (he : Elaborates Γ' mode s e r s') : Records S E Γ s' :=
  h.of_lookup he.supply_le fun b => by rw [he.definitions_eq]

/-- A binder brings a variable into the context. The variable may have a definition already, which
then stays what it was. -/
theorem assume (h : Records S E Γ s) {b : Binding} {A : Term} (hbs : b.id < s.supply.next)
    (hb : Γ.lookup b = none) (hA : A.Within S) :
    Records (fun c => c = b ∨ S c) E (Γ.bind b A) s := by
  refine ⟨?_, fun c B hB => ?_, fun c d hd => ?_⟩
  · by_cases hS : S b
    · have heq : (fun c => c = b ∨ S c) = S := by
        funext c
        exact propext ⟨fun hc => hc.elim (fun hcb => hcb ▸ hS) id, .inr⟩
      rw [heq]
      exact h.tracks
    · refine h.tracks.assume ?_ (Nat.le_refl _) hbs fun _ => rfl
      cases hd : s.definitions.lookup b with
      | none => rfl
      | some d => exact absurd (h.definitions b d hd).1 hS
  · by_cases hcb : c = b
    · subst hcb
      rw [Scope.lookup_bind_self A hb] at hB
      cases hB
      exact ⟨.inl rfl, hA.mono fun _ => .inr⟩
    · rw [Scope.lookup_bind_of_ne Γ A hcb] at hB
      obtain ⟨hc, hB⟩ := h.context c B hB
      exact ⟨.inr hc, hB.mono fun _ => .inr⟩
  · obtain ⟨hc, hd⟩ := h.definitions c d hd
    exact ⟨.inr hc, hd.mono fun _ => .inr⟩

theorem define (h : Records S E Γ s) {b : Binding} {d : Definition}
    (hb : s.definitions.lookup b = none) (hs : s.supply.next ≤ s'.supply.next)
    (hbs : b.id < s'.supply.next) (hself : s'.definitions.lookup b = some d)
    (hother : ∀ c, c ≠ b → s'.definitions.lookup c = s.definitions.lookup c)
    (hA : d.ty.Within S) (hv : d.value.Within S) :
    Records (fun c => c = b ∨ S c) (E.define b d.value) Γ s' := by
  have hE : E b = none := by
    cases hv : E b with
    | none => rfl
    | some v =>
      obtain ⟨e, he, -⟩ := h.tracks.defined b v hv
      rw [hb] at he
      cases he
  refine ⟨h.tracks.define hE hs hbs hself hother hv.vars (.refl hv.closed), fun c B hB => ?_,
    fun c e he => ?_⟩
  · obtain ⟨hc, hB⟩ := h.context c B hB
    exact ⟨.inr hc, hB.mono fun _ => .inr⟩
  · by_cases hcb : c = b
    · subst hcb
      rw [hself] at he
      cases he
      exact ⟨.inl rfl, hA.mono fun _ => .inr⟩
    · rw [hother c hcb] at he
      obtain ⟨hc, he⟩ := h.definitions c e he
      exact ⟨.inr hc, he.mono fun _ => .inr⟩

end Records

/-! ## Under peeled lets -/

/-- Each definition of the telescope is over `S` and the variables before it, and `T` is `S` with
all of its variables. -/
inductive Telescope.Leads : (Binding → Prop) → Telescope → (Binding → Prop) → Prop where
  | nil {S : Binding → Prop} : Leads S [] S
  | cons {S T : Binding → Prop} {b : Binding} {d : Definition} {peeled : Telescope} :
      d.ty.Within S → d.value.Within S → Leads (fun c => c = b ∨ S c) peeled T →
      Leads S ((b, d) :: peeled) T

namespace Telescope.Leads

variable {S T : Binding → Prop} {peeled : Telescope}

theorem wrap (h : Leads S peeled T) {t : Term} (ht : t.Within T) : (peeled.wrap t).Within S := by
  induction h with
  | nil => exact ht
  | cons hA hv _ ih => exact .makeLet hA hv (ih ht)

end Telescope.Leads

/-- Peeling a term over `S` leads to what its `let`s bind, and all of that is recorded. -/
theorem Peels.records {t u : Term} {peeled : Telescope} {s s' : Store} (h : Peels t s peeled u s')
    {S : Binding → Prop} {E : Values} {Γ : Context} (hR : Records S E Γ s) (ht : t.Within S) :
    ∃ T, peeled.Leads S T ∧ Records T (E.enter peeled) Γ s' ∧ u.Within T := by
  induction h generalizing S E with
  | head h _ =>
    have hr := h.reduces hR.tracks ht.closed ht.vars
    exact ⟨S, .nil, hR.of_normalizes h, hr.within hR.tracks ht⟩
  | @peel t A v body u name b peeled s s₁ s₂ h hb _ ih =>
    have hlet := (h.reduces hR.tracks ht.closed ht.vars).within hR.tracks ht
    have hR₁ := hR.of_normalizes h
    obtain ⟨hA, hv, hbody⟩ := Term.within_letIn.1 hlet
    subst hb
    have hnew := hR₁.tracks.lookup_eq_none (b := (s₁.supply.mint name).1) (Nat.le_refl _)
    have hR₂ : Records _ _ Γ (s₁.enter name ⟨v, A⟩) :=
      hR₁.define (d := ⟨v, A⟩) hnew (Nat.le_succ _) (Nat.lt_succ_self _)
        (Scope.lookup_bind_self _ hnew) (fun _ => Store.lookup_enter_of_ne s₁) hA hv
    obtain ⟨T, hleads, hR', hu⟩ := ih hR₂ (hbody.openWith _)
    exact ⟨T, .cons hA hv hleads, hR', hu⟩

/-! ## The invariant of elaboration -/

/-- The term and the type are over `S`. -/
structure Annotated.Within (S : Binding → Prop) (r : Annotated) : Prop where
  term : r.term.Within S
  ty : r.ty.Within S

theorem Concludes.within {mode : Mode} {inferred r : Annotated} {s s' : Store}
    (h : Concludes mode inferred s r s') {S : Binding → Prop} (hr : inferred.Within S)
    (hmode : ∀ T, mode.expected? = some T → T.Within S) : r.Within S := by
  cases h with
  | inferred | expected => exact hr
  | unified hT _ _ => exact ⟨hr.term, hmode _ hT⟩

theorem Mode.type_within {S : Binding → Prop} :
    ∀ T, type.expected? = some T → T.Within S := by
  rintro _ ⟨⟩
  exact ⟨trivial, trivial⟩

theorem Mode.check_within {S : Binding → Prop} {T : Term} (hT : T.Within S) :
    ∀ U, (check T).expected? = some U → U.Within S := by
  rintro _ ⟨⟩
  exact hT

/-- **The invariant of elaboration.** Over recorded variables, and against a type over them, an
expression elaborates to a term and a type over them. -/
theorem Elaborates.within {Γ : Context} {mode : Mode} {e : Expr} {r : Annotated} {s s' : Store}
    (h : Elaborates Γ mode s e r s') {S : Binding → Prop} {E : Values} (hR : Records S E Γ s)
    {n : Nat} (hn : n ≤ s.supply.next) (he : e.Below n)
    (hmode : ∀ T, mode.expected? = some T → T.Within S) : r.Within S := by
  induction h generalizing S E with
  | type h | boolType h | bool h =>
    exact h.within ⟨⟨trivial, trivial⟩, ⟨trivial, trivial⟩⟩ hmode
  | @ref Γ mode b T r s s' hT h =>
    have hb : S b ∧ T.Within S := by
      cases hl : s.definitions.lookup b with
      | some d =>
        rw [hl] at hT
        cases hT
        exact hR.definitions b d hl
      | none =>
        rw [hl] at hT
        exact hR.context b T hT
    exact h.within ⟨⟨trivial, hb.1⟩, hb.2⟩ hmode
  | @pi Γ mode b domain codomain A B r s s₁ s₂ s₃ hA hb hB h ihA ihB =>
    have hA' := (ihA hR hn he.2.1 Mode.type_within).term
    have hle := Nat.le_trans hn hA.supply_le
    have hR₁ := (hR.of_elaborates hA).assume (Nat.lt_of_lt_of_le he.1 hle) hb hA'
    have hB' := (ihB hR₁ hle he.2.2 Mode.type_within).term.lam_close
    exact h.within ⟨Term.within_pi.2 ⟨hA', hB'⟩, ⟨trivial, trivial⟩⟩ hmode
  | @lam Γ mode b body T A B name peeled r s s₁ s₂ hT hpeel hb _ ih =>
    obtain ⟨U, hleads, hR₁, hpi⟩ := hpeel.records hR.derive (hmode T hT)
    have hle := Nat.le_trans hn hpeel.supply_le
    obtain ⟨hA, hB⟩ := Term.within_pi.1 hpi
    have hR₂ := hR₁.assume (Nat.lt_of_lt_of_le he.1 hle) hb hA
    have hr := ih hR₂ hle he.2 (Mode.check_within (hB.openWith b))
    exact ⟨hleads.wrap hr.term.lam_close, hmode T hT⟩
  | @app Γ mode function argument A B name peeled f a r s s₁ s₂ s₃ s₄ hf hpeel _ h ihf iha =>
    have hf' := ihf hR hn he.1 fun T hT => by cases hT
    have hle := Nat.le_trans hn hf.supply_le
    obtain ⟨U, hleads, hR₂, hpi⟩ := hpeel.records (hR.of_elaborates hf).derive hf'.ty
    obtain ⟨hA, hB⟩ := Term.within_pi.1 hpi
    have hle₂ := Nat.le_trans hle hpeel.supply_le
    have ha := (iha hR₂ hle₂ he.2 (Mode.check_within hA)).term
    have hfa := Term.within_app.2 ⟨hf'.term, hleads.wrap ha⟩
    exact h.within ⟨hfa, hleads.wrap (hB.instantiate ha)⟩ hmode
  | @letIn Γ mode b ty value body A v r s s₁ s₂ s₃ hA hv hb _ ihA ihv ihb =>
    have hA' := (ihA hR hn he.2.1 Mode.type_within).term
    have hR₁ := hR.of_elaborates hA
    have hle := Nat.le_trans hn hA.supply_le
    have hv' := (ihv hR₁ hle he.2.2.1 (Mode.check_within hA')).term
    have hR₂ := hR₁.of_elaborates hv
    have hle₂ := Nat.le_trans hle hv.supply_le
    have hR₃ : Records (fun c => c = b ∨ S c) (E.define b v.term) Γ
        { s₂ with definitions := s₂.definitions.derive.bind b ⟨v.term, A.term⟩ } := by
      refine hR₂.define (d := ⟨v.term, A.term⟩) hb (Nat.le_refl _) (Nat.lt_of_lt_of_le he.1 hle₂)
        (Scope.lookup_bind_self _ ?_) (fun c hc => ?_) hA' hv'
      · rw [Scope.lookup_derive, hb]
      · rw [Scope.lookup_bind_of_ne _ _ hc, Scope.lookup_derive]
    have hr := ihb hR₃ hle₂ he.2.2.2 fun T hT => (hmode T hT).mono fun _ => .inr
    exact ⟨.makeLet hA' hv' hr.term, .makeLet hA' hv' hr.ty⟩

/-- An expression is elaborated at a type, which is elaborated first. -/
theorem Elaborates.within_ascribed {Γ : Context} {e ty : Expr} {T t : Annotated} {s s₁ s₂ : Store}
    (hT : Elaborates Γ .type s ty T s₁) (ht : Elaborates Γ (.check T.term) s₁ e t s₂)
    {S : Binding → Prop} {E : Values} (hR : Records S E Γ s) {n : Nat} (hn : n ≤ s.supply.next)
    (hty : ty.Below n) (he : e.Below n) : T.term.Within S ∧ t.term.Within S := by
  have hT' := (hT.within hR hn hty Mode.type_within).term
  have hle := Nat.le_trans hn hT.supply_le
  exact ⟨hT', (ht.within (hR.of_elaborates hT) hle he (Mode.check_within hT')).term⟩

/-! ## From what a state records -/

/-- The variable is recorded in the context or in the definitions. -/
def Recorded (Γ : Context) (s : Store) (b : Binding) : Prop :=
  Γ.contains b = true ∨ s.definitions.contains b = true

namespace Recorded

variable {Γ : Context} {s s' : Store} {b c : Binding}

theorem of_isSome (h : Recorded Γ s c)
    (hl : (s'.definitions.lookup c).isSome = (s.definitions.lookup c).isSome) :
    Recorded Γ s' c := by
  unfold Recorded Scope.contains at h ⊢
  rwa [hl]

theorem of_bind {A : Term} (h : Recorded (Γ.bind b A) s c) : c = b ∨ Recorded Γ s c := by
  by_cases hcb : c = b
  · exact .inl hcb
  · refine .inr (h.imp_left fun h => ?_)
    rwa [Scope.contains, Scope.lookup_bind_of_ne _ _ hcb] at h

theorem of_define {d : Definition}
    (h : Recorded Γ { s with definitions := s.definitions.derive.bind b d } c) :
    c = b ∨ Recorded Γ s c := by
  by_cases hcb : c = b
  · exact .inl hcb
  · refine .inr (h.imp_right fun h => ?_)
    rwa [Scope.contains, Scope.lookup_bind_of_ne _ _ hcb, Scope.lookup_derive] at h

end Recorded

theorem not_recorded_empty (supply : Supply) (b : Binding) :
    ¬ Recorded {} { supply := supply } b := by
  simp [Recorded, Scope.contains, Scope.lookup, Scope.frames]

/-- Every variable that is recorded has been minted, and types and values that are recorded mention
only recorded variables and have no dangling index. -/
structure ScopeClosed (Γ : Context) (s : Store) : Prop where
  minted : ∀ b, Recorded Γ s b → b.id < s.supply.next
  assumed : ∀ b A, Γ.lookup b = some A → A.Within (Recorded Γ s)
  types : ∀ b d, s.definitions.lookup b = some d → d.ty.Within (Recorded Γ s)
  values : ∀ b d, s.definitions.lookup b = some d → d.value.Within (Recorded Γ s)

namespace ScopeClosed

variable {Γ : Context} {s : Store}

theorem records (h : ScopeClosed Γ s) : Records (Recorded Γ s) s.values Γ s := by
  have hdefined : ∀ b d, s.definitions.lookup b = some d → Recorded Γ s b :=
    fun b d hd => .inr (by simp [Scope.contains, hd])
  refine ⟨⟨h.minted, fun b d hd => h.minted b (hdefined b d hd), fun b v hv => ?_, fun b _ hb => ?_,
    fun b v hv => ?_⟩, fun b A hA => ?_, fun b d hd => ⟨hdefined b d hd, h.types b d hd⟩⟩
  · obtain ⟨d, hd, rfl⟩ := Option.map_eq_some_iff.1 hv
    exact ⟨hdefined b d hd, (h.values b d hd).closed, (h.values b d hd).vars⟩
  · exact Option.map_eq_none_iff.1 hb
  · obtain ⟨d, hd, rfl⟩ := Option.map_eq_some_iff.1 hv
    exact ⟨d, hd, .refl (h.values b d hd).closed⟩
  · exact ⟨.inl (by simp [Scope.contains, hA]), h.assumed b A hA⟩

theorem empty (n : Nat) : ScopeClosed {} { supply := ⟨n⟩ } where
  minted b hb := absurd hb (not_recorded_empty ⟨n⟩ b)
  assumed b A hA := by cases hA
  types b d hd := by cases hd
  values b d hd := by cases hd

end ScopeClosed

theorem within_of_elaborateClosed {fuel n : Nat} {e ty : Expr} {r : Annotated} {s : Store}
    (he : e.Below n) (hty : ty.Below n)
    (hrun : (elaborateClosed fuel e ty).run { supply := ⟨n⟩ } = some (.ok r, s)) :
    r.Within fun _ => False := by
  obtain ⟨e', ty', T, t, s₁, hre, hrt, helabT, helabt, rfl⟩ := elaborates_of_elaborateClosed hrun
  have hvisible : ∀ b ∈ ([] : Visible), b.id < n := by simp
  obtain ⟨hT, ht⟩ := helabT.within_ascribed helabt (ScopeClosed.empty n).records (Nat.le_refl _)
    (ty.resolve_below hrt hvisible hty) (e.resolve_below hre hvisible he)
  exact ⟨ht.mono (not_recorded_empty ⟨n⟩), hT.mono (not_recorded_empty ⟨n⟩)⟩

/-- **No variable escapes elaboration.** From a state whose records do not lead out of it, whatever
an expression elaborates to, in each of the three ways, mentions only variables that the state
records, and has no dangling index; so does a type that is inferred. Hence a closed expression
elaborates to a closed term, and its type to a closed type. Bindings have been minted, and a binder
may stand in the scope of the same binder. -/
theorem elaboration_stays_in_scope {fuel : Nat} {e : Expr} :
    (∀ {Γ : Context} {s : Store}, ScopeClosed Γ s → e.Below s.supply.next →
      (∀ r, (inferType fuel Γ e).answer? s = some r → r.Within (Recorded Γ s)) ∧
      (∀ t, (elaborateType fuel Γ e).answer? s = some t → t.Within (Recorded Γ s)) ∧
      ∀ T t, T.Within (Recorded Γ s) → (checkType fuel Γ e T).answer? s = some t →
        t.Within (Recorded Γ s)) ∧
    ∀ {n : Nat} {ty : Expr} {r : Annotated}, e.Below n → ty.Below n →
      (elaborateClosed fuel e ty).answer? { supply := ⟨n⟩ } = some r →
      (r.term.LocallyClosed ∧ r.term.census = []) ∧ r.ty.LocallyClosed ∧ r.ty.census = [] := by
  refine ⟨fun {Γ s} hs he => ?_, fun {n ty r} he hty h => ?_⟩
  · have hR := hs.records
    refine ⟨fun r h => ?_, fun t h => ?_, fun T t hT h => ?_⟩
    · obtain ⟨s', h⟩ := Check.answer?_eq_some.1 h
      exact (elaborates_of_run e h).within hR (Nat.le_refl _) he fun T hT => by cases hT
    · obtain ⟨s', h⟩ := Check.answer?_eq_some.1 h
      obtain ⟨r, hr, rfl⟩ := elaborates_of_term h
      exact (hr.within hR (Nat.le_refl _) he Mode.type_within).term
    · obtain ⟨s', h⟩ := Check.answer?_eq_some.1 h
      obtain ⟨r, hr, rfl⟩ := elaborates_of_term h
      exact (hr.within hR (Nat.le_refl _) he (Mode.check_within hT)).term
  · obtain ⟨s', h⟩ := Check.answer?_eq_some.1 h
    obtain ⟨ht, hT⟩ := within_of_elaborateClosed he hty h
    exact ⟨⟨ht.closed, Term.census_of_closed ht.vars⟩, hT.closed, Term.census_of_closed hT.vars⟩

/-- The type of `f`: a function type under a `let`. -/
def letArrow : Term := .letIn "A" .type .boolType (.pi "x" (.bound 0) (.bound 1))

/-- `f` is assumed, of a type under a `let`. -/
def arrowContext : Context := { inner := [(⟨0, "f"⟩, letArrow)] }

/-- `g` is defined. -/
def literalStore : Store where
  definitions := { inner := [(⟨1, "g"⟩, ⟨.bool true, .boolType⟩)] }
  supply := ⟨3⟩

theorem arrowContext_scopeClosed : ScopeClosed arrowContext literalStore := by
  refine ⟨?_, fun b A hA => ?_, fun b d hd => ?_, fun b d hd => ?_⟩
  · rintro b (hb | hb)
    · obtain ⟨A, hA⟩ := Option.isSome_iff_exists.1 hb
      rw [(Scope.lookup_singleton hA).1]
      decide
    · obtain ⟨d, hd⟩ := Option.isSome_iff_exists.1 hb
      rw [(Scope.lookup_singleton hd).1]
      decide
  · rw [(Scope.lookup_singleton hA).2]
    exact ⟨by decide, by simp [letArrow, Term.Over]⟩
  · rw [(Scope.lookup_singleton hd).2]
    exact ⟨trivial, trivial⟩
  · rw [(Scope.lookup_singleton hd).2]
    exact ⟨trivial, trivial⟩

/-- In scope of `f` and `g`, `f` is applied under a `let` of `x`: one `let` is peeled off its type and
put back around the type of the result. In the empty scope, a function binds the variable that a
`let` in its body binds again. -/
theorem elaboration_stays_in_scope_rebound :
    let x : Binding := ⟨2, "x"⟩
    let e : Expr := .app (.ref ⟨0, "f"⟩) (.letIn x .boolType (.ref ⟨1, "g"⟩) (.ref x))
    let r : Annotated := ⟨.app (.free ⟨0, "f"⟩)
      (.letIn "x" .boolType (.free ⟨1, "g"⟩) (.bound 0)), .letIn "A" .type .boolType (.bound 0)⟩
    let e' : Expr := .lam x (.letIn x .boolType (.ref x) (.ref x))
    let ty' : Expr := .letIn x .type .boolType (.pi ⟨1, "g"⟩ (.ref x) (.ref x))
    let r' : Annotated := ⟨.lam (.letIn "x" .boolType (.bound 0) (.bound 0)),
      .letIn "x" .type .boolType (.pi "g" (.bound 0) (.bound 1))⟩
    ((inferType 12 arrowContext e).answer? literalStore = some r ∧
      r.Within (Recorded arrowContext literalStore)) ∧
    (elaborateClosed 12 e' ty').answer? { supply := ⟨3⟩ } = some r' ∧
      r'.term.census = [] ∧ r'.ty.census = [] := by
  intro x e r e' ty' r'
  have hrun : (inferType 12 arrowContext e).answer? literalStore = some r := by decide +kernel
  have he : e.Below 3 := by simp [e, x, Expr.Below, Expr.All]
  have hrun' : (elaborateClosed 12 e' ty').answer? { supply := ⟨3⟩ } = some r' := by decide +kernel
  have he' : e'.Below 3 := by simp [e', x, Expr.Below, Expr.All]
  have hty' : ty'.Below 3 := by simp [ty', x, Expr.Below, Expr.All]
  obtain ⟨⟨-, hterm⟩, -, hty⟩ := elaboration_stays_in_scope.2 he' hty' hrun'
  exact ⟨⟨hrun, (elaboration_stays_in_scope.1 arrowContext_scopeClosed he).1 r hrun⟩, hrun', hterm,
    hty⟩

end DepLang
