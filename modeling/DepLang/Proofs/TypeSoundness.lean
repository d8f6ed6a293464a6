import DepLang.Proofs.Resolution
import DepLang.Proofs.SubjectReduction
import DepLang.Proofs.Translation

/-!
# Elaboration is type sound

What elaboration returns is typed in the declarative system. The elaborator keeps the types of
variables in a context and their definitions in the store; `Models Γ ctx s` says that the two
together are the environment `Γ`, up to values that have been reduced.

* `Peels.opens`: moving the `let`s around a type into the store extends the environment by their
  definitions, and leaves a type.
* `Opens.wrap`: putting them back around a term and its type leaves the environment again.
* `Elaborates.typed`: the invariant of elaboration, one case for each rule.

An expression may bind a variable again that is in scope already, and the elaborator notices only
some of these cases. So the result is about expressions in which no binder stands in the scope of
the same binder (`Expr.Distinct`), as it is when every binder is minted on its own.
-/
namespace DepLang

/-! ## Contexts and stores as environments -/

namespace Environment

variable {Γ : Environment} {b : Binding}

theorem binds_set (Γ : Environment) (b : Binding) (e : Entry) :
    (Γ.set b e).Binds = fun c => c = b ∨ Γ.Binds c := by
  funext c
  by_cases h : c = b
  · simp [Binds, h]
  · simp [Binds, set_of_ne _ _ h, h]

theorem values_assume (hb : Γ b = none) (A : Term) : (Γ.assume b A).values = Γ.values := by
  funext c
  by_cases h : c = b
  · subst h
    simp [values, assume, hb]
  · simp [values, assume, set_of_ne _ _ h]

theorem eq_none_of_not_binds (h : ¬ Γ.Binds b) : Γ b = none := by
  cases hb : Γ b with
  | none => rfl
  | some e => exact absurd ⟨e, hb⟩ h

end Environment

/-- The environment is what the context and the store say together: the context gives the types of
variables without a definition, the store has the definitions, with the values reduced or not. -/
structure Models (Γ : Environment) (ctx : Context) (s : Store) : Prop where
  wellTyped : Γ.WellTyped
  tracks : Tracks Γ.Binds Γ.values s
  types : ∀ b d, s.definitions.lookup b = some d → ∃ v, Γ b = some ⟨d.ty, some v⟩
  assumed : ∀ b A, ctx.lookup b = some A → Γ b = some ⟨A, none⟩

namespace Models

variable {Γ : Environment} {ctx : Context} {s s' : Store}

theorem empty (s : Supply) : Models .empty {} { supply := s } where
  wellTyped := .empty
  tracks := by
    refine ⟨?_, ?_, ?_, ?_, ?_⟩
    · rintro b ⟨e, he⟩
      cases he
    · intro b d hd
      cases hd
    · intro b v hv
      cases hv
    · rintro b ⟨e, he⟩
      cases he
    · intro b v hv
      cases hv
  types b d hd := by cases hd
  assumed b A hA := by cases hA

theorem eq_none (h : Models Γ ctx s) {b : Binding} (hb : s.supply.next ≤ b.id) : Γ b = none := by
  refine Environment.eq_none_of_not_binds fun hbinds => ?_
  have := h.tracks.minted b hbinds
  omega

theorem of_ages (h : Models Γ ctx s) (ha : s.Ages s') (ht : Tracks Γ.Binds Γ.values s') :
    Models Γ ctx s' := by
  refine ⟨h.wellTyped, ht, fun b d hd => ?_, h.assumed⟩
  have hty := ha.types b
  rw [hd] at hty
  obtain ⟨d', hd', he⟩ := Option.map_eq_some_iff.1 hty.symm
  obtain ⟨v, hv⟩ := h.types b d' hd'
  exact ⟨v, by rw [hv, he]⟩

theorem of_lookup (h : Models Γ ctx s) (hs : s.supply.next ≤ s'.supply.next)
    (hl : ∀ b, s'.definitions.lookup b = s.definitions.lookup b) : Models Γ ctx s' :=
  ⟨h.wellTyped, h.tracks.of_lookup hs hl, fun b d hd => h.types b d (hl b ▸ hd), h.assumed⟩

theorem derive (h : Models Γ ctx s) : Models Γ ctx s.derive :=
  h.of_lookup (Nat.le_refl _) s.lookup_derive

theorem of_elaborates (h : Models Γ ctx s) {ctx' : Context} {mode : Mode} {e : Expr}
    {r : Annotated} (he : Elaborates ctx' mode s e r s') : Models Γ ctx s' :=
  h.of_lookup he.supply_le fun b => by rw [he.definitions_eq]

theorem assume (h : Models Γ ctx s) {b : Binding} {A : Term} (hb : Γ b = none)
    (hbs : b.id < s.supply.next) (hA : Typed Γ A .type) :
    Models (Γ.assume b A) (ctx.bind b A) s := by
  have hl : s.definitions.lookup b = none := by
    cases hd : s.definitions.lookup b with
    | none => rfl
    | some d =>
      obtain ⟨v, hv⟩ := h.types b d hd
      rw [hb] at hv
      cases hv
  have hctx : ctx.lookup b = none := by
    cases hc : ctx.lookup b with
    | none => rfl
    | some B =>
      have := h.assumed b B hc
      rw [hb] at this
      cases this
  refine ⟨h.wellTyped.set hb (Entry.wellTyped_assume hA), ?_, fun c d hd => ?_, fun c B hB => ?_⟩
  · rw [Environment.values_assume hb, Environment.assume, Environment.binds_set]
    exact h.tracks.assume hl (Nat.le_refl _) hbs fun _ => rfl
  · obtain ⟨v, hv⟩ := h.types c d hd
    exact ⟨v, Environment.le_set hb _ c _ hv⟩
  · by_cases hcb : c = b
    · subst hcb
      rw [Scope.lookup_bind_self A hctx] at hB
      cases hB
      exact Environment.set_self ..
    · rw [Scope.lookup_bind_of_ne ctx A hcb] at hB
      exact Environment.le_set hb _ c _ (h.assumed c B hB)

theorem define (h : Models Γ ctx s) {b : Binding} {d : Definition} (hb : Γ b = none)
    (hs : s.supply.next ≤ s'.supply.next) (hbs : b.id < s'.supply.next)
    (hself : s'.definitions.lookup b = some d)
    (hother : ∀ c, c ≠ b → s'.definitions.lookup c = s.definitions.lookup c)
    (hA : Typed Γ d.ty .type) (hv : Typed Γ d.value d.ty) :
    Models (Γ.define b d.ty d.value) ctx s' := by
  have hvb : Γ.values b = none := by simp [Environment.values, hb]
  refine ⟨h.wellTyped.set hb (Entry.wellTyped_define hA hv), ?_, fun c e he => ?_, fun c B hB => ?_⟩
  · rw [Environment.values_define, Environment.define, Environment.binds_set]
    exact h.tracks.define hvb hs hbs hself hother hv.vars_over (.refl hv.locallyClosed.1)
  · by_cases hcb : c = b
    · subst hcb
      rw [hself] at he
      cases he
      exact ⟨d.value, Environment.set_self ..⟩
    · rw [hother c hcb] at he
      obtain ⟨v, hv⟩ := h.types c e he
      exact ⟨v, Environment.le_set hb _ c _ hv⟩
  · exact Environment.le_set hb _ c _ (h.assumed c B hB)

end Models

/-! ## Peeling types -/

/-- The environment `Δ` has the definitions of a telescope more than `Γ`. -/
inductive Opens : Environment → Telescope → Environment → Prop where
  | nil {Γ : Environment} : Opens Γ [] Γ
  | cons {Γ Δ : Environment} {b : Binding} {d : Definition} {peeled : Telescope} : Γ b = none →
      Typed Γ d.ty .type → Typed Γ d.value d.ty → Opens (Γ.define b d.ty d.value) peeled Δ →
      Opens Γ ((b, d) :: peeled) Δ

namespace Opens

variable {Γ Δ : Environment} {peeled : Telescope}

theorem le (h : Opens Γ peeled Δ) : Γ.Le Δ := by
  induction h with
  | nil => exact fun _ _ h => h
  | cons hb _ _ _ ih => exact fun c e hc => ih c e (Environment.le_set hb _ c e hc)

theorem values_eq (h : Opens Γ peeled Δ) : Δ.values = Γ.values.enter peeled := by
  induction h with
  | nil => rfl
  | cons _ _ _ _ ih => rw [ih, Environment.values_define]; rfl

theorem binds (h : Opens Γ peeled Δ) {b : Binding} (hb : Δ.Binds b) :
    Γ.Binds b ∨ ∃ entry ∈ peeled, entry.1 = b := by
  induction h with
  | nil => exact .inl hb
  | @cons Γ Δ c d peeled _ _ _ _ ih =>
    rcases ih hb with h | ⟨entry, hentry, rfl⟩
    · rw [Environment.define, Environment.binds_set] at h
      rcases h with rfl | h
      · exact .inr ⟨(b, d), List.mem_cons_self, rfl⟩
      · exact .inl h
    · exact .inr ⟨entry, List.mem_cons_of_mem _ hentry, rfl⟩

theorem wrap (h : Opens Γ peeled Δ) (hΓ : Γ.WellTyped) {t T : Term} (ht : Typed Δ t T) :
    Typed Γ (peeled.wrap t) (peeled.wrap T) := by
  induction h with
  | nil => exact ht
  | cons hb hA hv _ ih =>
    exact .makeLet hΓ hb hA hv (ih (hΓ.set hb (Entry.wellTyped_define hA hv)) ht)

end Opens

/-- What peeling a type does to the environment. -/
theorem Peels.opens {t u : Term} {peeled : Telescope} {s s' : Store} (h : Peels t s peeled u s')
    {Γ : Environment} {ctx : Context} (hM : Models Γ ctx s) (ht : Typed Γ t .type) :
    ∃ Δ, Opens Γ peeled Δ ∧ Models Δ ctx s' ∧ Typed Δ u .type := by
  induction h generalizing Γ with
  | head h _ =>
    have hr := h.reduces hM.tracks ht.locallyClosed.1 ht.vars_over
    exact ⟨Γ, .nil, hM.of_ages h.ages (h.tracks hM.tracks), ht.reduces hr hM.wellTyped⟩
  | @peel t A v body u name b peeled s s₁ s₂ h hb _ ih =>
    have hr := h.reduces hM.tracks ht.locallyClosed.1 ht.vars_over
    have hlet := ht.reduces hr hM.wellTyped
    have hM₁ := hM.of_ages h.ages (h.tracks hM.tracks)
    obtain ⟨hA, hv, -⟩ := hlet.letIn_inv
    subst hb
    have hnew := hM₁.eq_none (b := (s₁.supply.mint name).1) (Nat.le_refl _)
    have hM₂ : Models (Γ.define (s₁.supply.mint name).1 A v) ctx (s₁.enter name ⟨v, A⟩) :=
      hM₁.define (d := ⟨v, A⟩) hnew (Nat.le_succ _) (Nat.lt_succ_self _)
        (Scope.lookup_bind_self _ (hM₁.tracks.lookup_eq_none (Nat.le_refl _)))
        (fun _ => Store.lookup_enter_of_ne s₁) hA hv
    obtain ⟨Δ, hopens, hM', hu⟩ := ih hM₂ (hlet.letIn_open hM.wellTyped hnew)
    exact ⟨Δ, .cons (d := ⟨v, A⟩) hnew hA hv hopens, hM', hu⟩

theorem Peels.convertible {t u : Term} {peeled : Telescope} {s s' : Store}
    (h : Peels t s peeled u s') {Γ Δ : Environment} {ctx : Context} (hM : Models Γ ctx s)
    (ht : Typed Γ t .type) (hopens : Opens Γ peeled Δ) : Convertible Δ.values t u := by
  obtain ⟨_, _, _, _, hconv⟩ := h.extension hM.tracks ⟨ht.locallyClosed.1, ht.vars_over⟩
  rwa [hopens.values_eq]

/-! ## Expressions -/

namespace Expr

/-- No binder stands in the scope of the same binder, nor in the scope of a binder of `seen`. Forms
without an elaboration rule are not looked into. -/
def Distinct (seen : Binding → Prop) : Expr → Prop
  | pi b domain codomain =>
    Distinct seen domain ∧ ¬ seen b ∧ Distinct (fun c => c = b ∨ seen c) codomain
  | lam b body => ¬ seen b ∧ Distinct (fun c => c = b ∨ seen c) body
  | app function argument => Distinct seen function ∧ Distinct seen argument
  | letIn b ty value body =>
    Distinct seen ty ∧ Distinct seen value ∧ ¬ seen b ∧ Distinct (fun c => c = b ∨ seen c) body
  | type | boolType | bool _ | name _ | ref _ | sigma _ _ | tuple _ => True

end Expr

/-! ## The invariant of elaboration -/

theorem Concludes.typed {mode : Mode} {inferred r : Annotated} {s s' : Store}
    (h : Concludes mode inferred s r s') {Γ : Environment} {ctx : Context} (hM : Models Γ ctx s)
    (ht : Typed Γ inferred.term inferred.ty)
    (hmode : ∀ T, mode.expected? = some T → Typed Γ T .type) : Typed Γ r.term r.ty := by
  cases h with
  | inferred | expected => exact ht
  | @unified T s' hT hc _ =>
    have hty := ht.regular hM.wellTyped
    have hT := hmode T hT
    exact ht.conv hT (hc.sound trivial hM.tracks ⟨hty.locallyClosed.1, hty.vars_over⟩
      ⟨hT.locallyClosed.1, hT.vars_over⟩)

/-- Closing the variable that a binder was opened with leaves a body typed at all new variables. -/
theorem Typed.close {Γ : Environment} {b : Binding} {A t T : Term} (h : Typed (Γ.assume b A) t T)
    (hΓ : Γ.WellTyped) (hb : Γ b = none) (hA : Typed Γ A .type) :
    ∃ n : Nat, ∀ c : Binding, n ≤ c.id →
      Typed (Γ.assume c A) ((t.close b).openWith c) ((T.close b).openWith c) := by
  obtain ⟨n, hn⟩ := hΓ.bounded
  exact ⟨n, fun c hc => h.rename hΓ hb (Entry.wellTyped_assume hA) (hn c hc)⟩

/-- The variables in scope are binders of `seen`, or have identities from `n` on. -/
def Environment.Covered (Γ : Environment) (seen : Binding → Prop) (n : Nat) : Prop :=
  ∀ b, Γ.Binds b → seen b ∨ n ≤ b.id

namespace Environment.Covered

variable {Γ Δ : Environment} {seen : Binding → Prop} {n : Nat}

theorem eq_none (h : Γ.Covered seen n) {b : Binding} (hb : ¬ seen b) (hlt : b.id < n) :
    Γ b = none := by
  refine eq_none_of_not_binds fun hbinds => ?_
  rcases h b hbinds with hs | hs
  · exact hb hs
  · omega

theorem set (h : Γ.Covered seen n) (b : Binding) (e : Entry) :
    (Γ.set b e).Covered (fun c => c = b ∨ seen c) n := by
  intro c hc
  rw [binds_set] at hc
  rcases hc with rfl | hc
  · exact .inl (.inl rfl)
  · exact (h c hc).imp .inr id

theorem opens (h : Γ.Covered seen n) {t u : Term} {peeled : Telescope} {s s' : Store}
    (hpeel : Peels t s peeled u s') (hn : n ≤ s.supply.next) (hopens : Opens Γ peeled Δ) :
    Δ.Covered seen n := by
  intro c hc
  rcases hopens.binds hc with hc | ⟨entry, hentry, rfl⟩
  · exact h c hc
  · exact .inr (Nat.le_trans hn (hpeel.le_id entry hentry))

end Environment.Covered

/-- The answer `r` is typed in every environment that the context and the store stand for, and has
the expected type if there is one. Variables in scope are binders that have been `seen` or younger
than the expression, so no binder of the expression is among them. -/
def AnswerTyped (n : Nat) (ctx : Context) (mode : Mode) (s : Store) (e : Expr) (r : Annotated) :
    Prop :=
  ∀ ⦃Γ : Environment⦄ ⦃seen : Binding → Prop⦄, Models Γ ctx s → n ≤ s.supply.next → e.Below n →
    e.Distinct seen → Γ.Covered seen n → (∀ T, mode.expected? = some T → Typed Γ T .type) →
    Typed Γ r.term r.ty ∧ ∀ T, mode.expected? = some T → r.ty = T

namespace AnswerTyped

variable {n : Nat} {ctx : Context} {mode : Mode} {s s₁ s₂ s₃ s₄ : Store} {r : Annotated}

theorem expected {e : Expr} {T : Term} (h : AnswerTyped n ctx mode s e r)
    (hT : mode.expected? = some T) {Γ : Environment} {seen : Binding → Prop} (hM : Models Γ ctx s)
    (hn : n ≤ s.supply.next) (he : e.Below n) (hd : e.Distinct seen) (hseen : Γ.Covered seen n)
    (htT : Typed Γ T .type) : Typed Γ r.term T := by
  obtain ⟨ht, hty⟩ := h hM hn he hd hseen fun U hU => by
    rw [hT] at hU
    cases hU
    exact htT
  rwa [hty T hT] at ht

theorem of_concludes {e : Expr} {inferred : Annotated} (h : Concludes mode inferred s r s₁)
    (ht : ∀ Γ, Models Γ ctx s → Typed Γ inferred.term inferred.ty) : AnswerTyped n ctx mode s e r :=
  fun Γ _ hM _ _ _ _ hmode => ⟨h.typed hM (ht Γ hM) hmode, fun _ => h.ty_eq⟩

theorem ref {b : Binding} {T : Term}
    (hT : ((s.definitions.lookup b).map Definition.ty).or (ctx.lookup b) = some T)
    (h : Concludes mode ⟨.free b, T⟩ s r s₁) : AnswerTyped n ctx mode s (.ref b) r := by
  refine of_concludes h fun Γ hM => ?_
  cases hl : s.definitions.lookup b with
  | some d =>
    rw [hl] at hT
    cases hT
    obtain ⟨v, hv⟩ := hM.types b d hl
    exact .var hv (hM.wellTyped.entries b _ hv).ty.locallyClosed.1
  | none =>
    rw [hl] at hT
    have hA := hM.assumed b T hT
    exact .var hA (hM.wellTyped.entries b _ hA).ty.locallyClosed.1

theorem pi {b : Binding} {domain codomain : Expr} {A B : Annotated}
    (ihA : AnswerTyped n ctx .type s domain A)
    (ihB : AnswerTyped n (ctx.bind b A.term) .type s₁ codomain B)
    (hA : Elaborates ctx .type s domain A s₁)
    (hB : Elaborates (ctx.bind b A.term) .type s₁ codomain B s₂)
    (h : Concludes mode ⟨.pi b.name A.term (B.term.close b), .type⟩ s₂ r s₃) :
    AnswerTyped n ctx mode s (.pi b domain codomain) r := by
  intro Γ seen hM hn he hd hseen hmode
  have htA := ihA.expected rfl hM hn he.2.1 hd.1 hseen .type
  have hb := hseen.eq_none hd.2.1 he.1
  have hle := Nat.le_trans hn hA.supply_le
  have hM₁ := hM.of_elaborates hA
  have hM₂ := hM₁.assume hb (Nat.lt_of_lt_of_le he.1 hle) htA
  have htB := ihB.expected rfl hM₂ hle he.2.2 hd.2.2 (hseen.set b _) .type
  obtain ⟨k, hk⟩ := htB.close hM.wellTyped hb htA
  have hpi : Typed Γ (.pi b.name A.term (B.term.close b)) .type := .pi k htA hk
  exact ⟨h.typed (hM₁.of_elaborates hB) hpi hmode, fun T => h.ty_eq⟩

theorem lam {b : Binding} {body : Expr} {T A B : Term} {name : String} {peeled : Telescope}
    (ih : AnswerTyped n (ctx.bind b A) (.check (B.openWith b)) s₁ body r)
    (hT : mode.expected? = some T) (hpeel : Peels T s.derive peeled (.pi name A B) s₁) :
    AnswerTyped n ctx mode s (.lam b body) ⟨peeled.wrap (.lam (r.term.close b)), T⟩ := by
  intro Γ seen hM hn he hd hseen hmode
  have htT := hmode T hT
  obtain ⟨Δ, hopens, hMΔ, hpi⟩ := hpeel.opens hM.derive htT
  have hconv := hpeel.convertible hM.derive htT hopens
  obtain ⟨htA, k, htB⟩ := hpi.pi_inv
  have hseenΔ := hseen.opens hpeel hn hopens
  have hb := hseenΔ.eq_none hd.1 he.1
  have hle := Nat.le_trans hn hpeel.supply_le
  have hMb := hMΔ.assume hb (Nat.lt_of_lt_of_le he.1 hle) htA
  have htBb : Typed (Δ.assume b A) (B.openWith b) .type :=
    Typed.open_fresh (T := .type) htB hMΔ.wellTyped (Entry.wellTyped_assume htA) hb
  have hr := ih.expected rfl hMb hle he.2 hd.2 (hseenΔ.set b _) htBb
  -- Closed again, the body is typed by the codomain, which does not mention the variable.
  obtain ⟨m, hm⟩ := hr.close hMΔ.wellTyped hb htA
  rw [Term.close_openWith (hpi.over_ne hb).2] at hm
  have hlam : Typed Δ (.lam (r.term.close b)) T :=
    (Typed.lam m htA hm).conv (htT.mono hopens.le) hconv.symm
  have hwrap := hopens.wrap hM.wellTyped hlam
  rw [hpeel.wrap_eq (htT.vars_over.mono hM.tracks.minted) (Nat.le_refl _)] at hwrap
  exact ⟨hwrap, fun T' hT' => by rw [hT] at hT'; cases hT'; rfl⟩

theorem app {function argument : Expr} {A B : Term} {name : String} {peeled : Telescope}
    {f a : Annotated} (ihf : AnswerTyped n ctx .infer s function f)
    (iha : AnswerTyped n ctx (.check A) s₂ argument a)
    (hf : Elaborates ctx .infer s function f s₁)
    (hpeel : Peels f.ty s₁.derive peeled (.pi name A B) s₂)
    (ha : Elaborates ctx (.check A) s₂ argument a s₃)
    (h : Concludes mode ⟨.app f.term (peeled.wrap a.term), peeled.wrap (B.instantiate a.term)⟩
      { s₃ with definitions := s₁.definitions } r s₄) :
    AnswerTyped n ctx mode s (.app function argument) r := by
  intro Γ seen hM hn he hd hseen hmode
  obtain ⟨htf, -⟩ := ihf hM hn he.1 hd.1 hseen fun T hT => by cases hT
  have hM₁ := hM.of_elaborates hf
  have hle := Nat.le_trans hn hf.supply_le
  have htF := htf.regular hM.wellTyped
  obtain ⟨Δ, hopens, hMΔ, hpi⟩ := hpeel.opens hM₁.derive htF
  have hconv := hpeel.convertible hM₁.derive htF hopens
  obtain ⟨htA, -⟩ := hpi.pi_inv
  have hle₂ := Nat.le_trans hle hpeel.supply_le
  have hta := iha.expected rfl hMΔ hle₂ he.2 hd.2 (hseen.opens hpeel hle hopens) htA
  -- The terms are translations, so they do not mention what was peeled, and the `let`s around the
  -- whole application vanish as those around the argument do.
  have hbf := (hf.translate_eq hn he.1.refs_over).2
  have hba := (ha.translate_eq hle₂ he.2.refs_over).2
  have happ : Typed Δ (.app f.term a.term) (B.instantiate a.term) :=
    .app ((htf.mono hopens.le).conv hpi hconv) hta
  have hbfa : (Term.app f.term a.term).Below n := ⟨hbf, hba⟩
  have hwrap := hopens.wrap hM.wellTyped happ
  rw [hpeel.wrap_eq hbfa hle] at hwrap
  rw [hpeel.wrap_eq hba hle] at h
  have hM₃ : Models Γ ctx { s₃ with definitions := s₁.definitions } :=
    hM₁.of_lookup (Nat.le_trans hpeel.supply_le ha.supply_le) fun _ => rfl
  exact ⟨h.typed hM₃ hwrap hmode, fun T => h.ty_eq⟩

theorem letIn {b : Binding} {ty value body : Expr} {A v : Annotated}
    (ihA : AnswerTyped n ctx .type s ty A) (ihv : AnswerTyped n ctx (.check A.term) s₁ value v)
    (ihr : AnswerTyped n ctx mode
      { s₂ with definitions := s₂.definitions.derive.bind b ⟨v.term, A.term⟩ } body r)
    (hA : Elaborates ctx .type s ty A s₁) (hv : Elaborates ctx (.check A.term) s₁ value v s₂)
    (hbs : s₂.definitions.lookup b = none) :
    AnswerTyped n ctx mode s (.letIn b ty value body)
      ⟨.makeLet b A.term v.term r.term, .makeLet b A.term v.term r.ty⟩ := by
  intro Γ seen hM hn he hd hseen hmode
  have htA := ihA.expected rfl hM hn he.2.1 hd.1 hseen .type
  have hM₁ := hM.of_elaborates hA
  have hle := Nat.le_trans hn hA.supply_le
  have htv := ihv.expected rfl hM₁ hle he.2.2.1 hd.2.1 hseen htA
  have hM₂ := hM₁.of_elaborates hv
  have hle₂ := Nat.le_trans hle hv.supply_le
  have hb := hseen.eq_none hd.2.2.1 he.1
  have hM₃ : Models (Γ.define b A.term v.term) ctx
      { s₂ with definitions := s₂.definitions.derive.bind b ⟨v.term, A.term⟩ } := by
    refine hM₂.define (d := ⟨v.term, A.term⟩) hb (Nat.le_refl _) (Nat.lt_of_lt_of_le he.1 hle₂)
      (Scope.lookup_bind_self _ ?_) (fun c hc => ?_) htA htv
    · rw [Scope.lookup_derive, hbs]
    · rw [Scope.lookup_bind_of_ne _ _ hc, Scope.lookup_derive]
  obtain ⟨htr, hr'⟩ := ihr hM₃ hle₂ he.2.2.2 hd.2.2.2 (hseen.set b _)
    fun T hT => (hmode T hT).mono (Environment.le_set hb _)
  refine ⟨.makeLet hM.wellTyped hb htA htv htr, fun T hT => ?_⟩
  show Term.makeLet b A.term v.term r.ty = T
  rw [hr' T hT]
  exact Term.makeLet_of_fresh ((hmode T hT).over_ne hb)

end AnswerTyped

/-- **The invariant of elaboration.** In an environment that the context and the store stand for, an
expression elaborates to a typed term, and to the expected type if there is one. -/
theorem Elaborates.typed {ctx : Context} {mode : Mode} {e : Expr} {r : Annotated} {s s' : Store}
    (h : Elaborates ctx mode s e r s') {n : Nat} : AnswerTyped n ctx mode s e r := by
  induction h with
  | type h => exact .of_concludes h fun _ _ => .type
  | boolType h => exact .of_concludes h fun _ _ => .boolType
  | bool h => exact .of_concludes h fun _ _ => .bool
  | ref hT h => exact .ref hT h
  | pi hA _ hB h ihA ihB => exact ihA.pi ihB hA hB h
  | lam hT hpeel _ _ ih => exact ih.lam hT hpeel
  | app hf hpeel ha h ihf iha => exact ihf.app iha hf hpeel ha h
  | letIn hA hv hbs _ ihA ihv ihr => exact ihA.letIn ihv ihr hA hv hbs

/-! ## Closed expressions -/

namespace Expr

variable {visible : Visible}

/-- Resolving names invents no identity: a name becomes a reference to a visible binder. -/
theorem ResolvedTo.below {e e' : Expr} (h : ResolvedTo visible e e') {n : Nat}
    (hv : ∀ b ∈ visible, b.id < n) (he : e.Below n) : e'.Below n := by
  have hcons : ∀ {visible : Visible}, (∀ b ∈ visible, b.id < n) → ∀ {b : Binding}, b.id < n →
      ∀ c ∈ [b] ++ visible, c.id < n :=
    fun hv _ hb => List.forall_mem_cons.2 ⟨hb, hv⟩
  induction h using ResolvedTo.induction with
  | name hb => exact hv _ hb.mem
  | @node visible e e' _ _ hlabel _ ih =>
    cases e with
    | type | boolType | bool | name | ref =>
      cases e' <;> cases hlabel
      exact he
    | pi b domain codomain =>
      cases e' <;> cases hlabel
      exact ⟨he.1, ih 0 [] _ _ rfl rfl hv he.2.1, ih 1 [b] _ _ rfl rfl (hcons hv he.1) he.2.2⟩
    | lam b body =>
      cases e' <;> cases hlabel
      exact ⟨he.1, ih 0 [b] _ _ rfl rfl (hcons hv he.1) he.2⟩
    | app function argument =>
      cases e' <;> cases hlabel
      exact ⟨ih 0 [] _ _ rfl rfl hv he.1, ih 1 [] _ _ rfl rfl hv he.2⟩
    | letIn b ty value body =>
      cases e' <;> cases hlabel
      exact ⟨he.1, ih 0 [] _ _ rfl rfl hv he.2.1, ih 1 [] _ _ rfl rfl hv he.2.2.1,
        ih 2 [b] _ _ rfl rfl (hcons hv he.1) he.2.2.2⟩
    | sigma | tuple =>
      cases e' with
      | sigma | tuple => exact fun hwhole => by cases hwhole
      | _ => cases hlabel

/-- Resolving names changes neither the binders of an expression nor their scopes. -/
theorem ResolvedTo.distinct {e e' : Expr} (h : ResolvedTo visible e e')
    {seen : Binding → Prop} (hd : e.Distinct seen) : e'.Distinct seen := by
  induction h using ResolvedTo.induction generalizing seen with
  | name => trivial
  | @node visible e e' _ _ hlabel _ ih =>
    cases e with
    | type | boolType | bool | name | ref =>
      cases e' <;> cases hlabel
      exact hd
    | pi b domain codomain =>
      cases e' <;> cases hlabel
      exact ⟨ih 0 [] _ _ rfl rfl hd.1, hd.2.1, ih 1 [b] _ _ rfl rfl hd.2.2⟩
    | lam b body =>
      cases e' <;> cases hlabel
      exact ⟨hd.1, ih 0 [b] _ _ rfl rfl hd.2⟩
    | app function argument =>
      cases e' <;> cases hlabel
      exact ⟨ih 0 [] _ _ rfl rfl hd.1, ih 1 [] _ _ rfl rfl hd.2⟩
    | letIn b ty value body =>
      cases e' <;> cases hlabel
      exact ⟨ih 0 [] _ _ rfl rfl hd.1, ih 1 [] _ _ rfl rfl hd.2.1, hd.2.2.1,
        ih 2 [b] _ _ rfl rfl hd.2.2.2⟩
    | sigma | tuple =>
      cases e' with
      | sigma | tuple => trivial
      | _ => cases hlabel

theorem resolve_below (e : Expr) {e' : Expr} (h : e.resolve visible = .ok e') {n : Nat}
    (hv : ∀ b ∈ visible, b.id < n) (hb : e.Below n) : e'.Below n :=
  ((e.resolve_eq_ok_iff visible e').1 h).below hv hb

theorem resolve_keeps (e : Expr) {e' : Expr} (h : e.resolve visible = .ok e') {n : Nat}
    (hv : ∀ b ∈ visible, b.id < n) (hb : e.Below n) {seen : Binding → Prop}
    (hd : e.Distinct seen) : e'.Below n ∧ e'.Distinct seen :=
  ⟨e.resolve_below h hv hb, ((e.resolve_eq_ok_iff visible e').1 h).distinct hd⟩

end Expr

/-- What a closed expression elaborates to against a closed type is typed by what the type
elaborates to, which is a type. -/
theorem typed_of_elaborateClosed {fuel n : Nat} {e ty : Expr} {r : Annotated} {s' : Store}
    (he : e.Below n) (hty : ty.Below n) (hed : e.Distinct fun _ => False)
    (htd : ty.Distinct fun _ => False)
    (h : (elaborateClosed fuel e ty).run { supply := ⟨n⟩ } = some (.ok r, s')) :
    Typed .empty r.ty .type ∧ Typed .empty r.term r.ty := by
  obtain ⟨e', ty', T, t, s₁, hre, hrt, helabT, helabt, rfl⟩ := elaborates_of_elaborateClosed h
  have hnone : ∀ b ∈ ([] : Visible), b.id < n := fun b hb => by cases hb
  obtain ⟨hty', htd'⟩ := ty.resolve_keeps hrt hnone hty htd
  obtain ⟨he', hed'⟩ := e.resolve_keeps hre hnone he hed
  have hM := Models.empty ⟨n⟩
  have hcov : Environment.empty.Covered (fun _ => False) n := by
    rintro b ⟨d, hd⟩
    cases hd
  have htT := helabT.typed.expected rfl hM (Nat.le_refl _) hty' htd' hcov .type
  exact ⟨htT, helabt.typed.expected rfl (hM.of_elaborates helabT) helabT.supply_le he' hed' hcov htT⟩

/-- **Elaboration is type sound.** If a closed expression elaborates against a closed type, then in
the empty environment the type is a type and the term has it. All binders and references have been
minted before, and no binder stands in the scope of the same binder. -/
theorem elaborated_typed {fuel n : Nat} {e ty : Expr} {r : Annotated} (he : e.Below n)
    (hty : ty.Below n) (hed : e.Distinct fun _ => False) (htd : ty.Distinct fun _ => False)
    (h : (elaborateClosed fuel e ty).answer? { supply := ⟨n⟩ } = some r) :
    Typed .empty r.ty .type ∧ Typed .empty r.term r.ty := by
  obtain ⟨s', h⟩ := Check.answer?_eq_some.1 h
  exact typed_of_elaborateClosed he hty hed htd h

/-- The polymorphic identity, bound by a `let` and applied, against a type under a `let`. The type
of the application is found by instantiating a codomain twice and compared through that `let`. -/
theorem elaborated_typed_identity :
    let e : Expr := .letIn ⟨0, "id"⟩
      (.pi ⟨1, "A"⟩ .type (.pi ⟨2, "x"⟩ (.name "A") (.name "A")))
      (.lam ⟨3, "A"⟩ (.lam ⟨4, "x"⟩ (.name "x")))
      (.app (.app (.name "id") .boolType) (.bool true))
    let ty : Expr := .letIn ⟨5, "B"⟩ .type .boolType (.name "B")
    let t : Term := .letIn "id" (.pi "A" .type (.pi "x" (.bound 0) (.bound 1)))
      (.lam (.lam (.bound 0))) (.app (.app (.bound 0) .boolType) (.bool true))
    let T : Term := .letIn "B" .type .boolType (.bound 0)
    (elaborateClosed 20 e ty).answer? { supply := ⟨6⟩ } = some ⟨t, T⟩ ∧
      Typed .empty T .type ∧ Typed .empty t T := by
  intro e ty t T
  have hrun : (elaborateClosed 20 e ty).answer? { supply := ⟨6⟩ } = some ⟨t, T⟩ := by
    decide +kernel
  have he : e.Below 6 := by simp [e, Expr.Below, Expr.All]
  have hty : ty.Below 6 := by simp [ty, Expr.Below, Expr.All]
  have hed : e.Distinct fun _ => False := by simp [e, Expr.Distinct]
  have htd : ty.Distinct fun _ => False := by simp [ty, Expr.Distinct]
  exact ⟨hrun, elaborated_typed he hty hed htd hrun⟩

end DepLang
