import DepLang.Proofs.Ascription
import DepLang.Proofs.TypeSoundness

/-!
# The normal forms of tame terms

A tame term normalises to a `let`, to a function, or to a term that shows its head
(`Normalizes.head`): what stands in the place of a function is of a function type, so it is not a
`let`. If the `let`s around the normal form are moved into the store, a function or a head is left
(`Peels.represents`).

`Represents Γ ctx s` says what a comparison starts from. The context and the store stand for the
environment, as they do in elaboration, no variable is missing, and all types and values are tame.
It lasts while the store ages (`Represents.later`), and under binders and `let`s.
-/
namespace DepLang

/-- The term is a function, or shows its head. -/
def Term.Headed (E : Values) (t : Term) : Prop :=
  (∃ body, t = .lam body) ∨ ∃ head, t.head? E = some head

theorem Term.Headed.head_of_ne_lam {E : Values} {t : Term} (h : t.Headed E)
    (hne : ∀ body, t ≠ .lam body) : ∃ head, t.head? E = some head :=
  h.resolve_left fun ⟨body, hbody⟩ => hne body hbody

theorem Environment.Le.head?_eq {Γ Δ : Environment} (h : Γ.Le Δ) {t : Term}
    (ht : t.Over Γ.Binds) : t.head? Δ.values = t.head? Γ.values := by
  refine Term.head?_congr ht ?_
  rintro b ⟨e, he⟩
  simp only [values, he, h b e he]

theorem Term.Headed.mono {Γ Δ : Environment} {t : Term} (h : t.Headed Γ.values) (hle : Γ.Le Δ)
    (ht : t.Over Γ.Binds) : t.Headed Δ.values := by
  unfold Headed
  rwa [hle.head?_eq ht]

/-- A function is not a member of a type that shows another head than `pi`. -/
theorem Typed.head_of_not_pi {Γ : Environment} {t T U : Term} {head : Head} (h : Typed Γ t T)
    (hΓ : Γ.WellTyped) (ht : t.Headed Γ.values) (hT : Convertible Γ.values T U)
    (hU : U.head? Γ.values = some head) (hhead : head ≠ .pi) :
    ∃ head', t.head? Γ.values = some head' := by
  obtain ⟨m, hm⟩ := hΓ.below
  refine ht.head_of_ne_lam ?_
  rintro body rfl
  obtain ⟨_, _, _, -, -, hpi⟩ := h.lam_inv
  exact hhead ((hpi.trans hT).head_eq hm rfl hU).symm

/-- What is applied is not a `let`: in that place a `let` is of a base type, and a function is not. -/
theorem Tame.isLet_eq_false {Γ : Environment} {f A B : Term} {name : String}
    (h : Tame Γ false f (.pi name A B)) (hΓ : Γ.WellTyped) : f.isLet = false := by
  cases f with
  | letIn =>
    obtain ⟨-, -, -, hplace⟩ := h.letIn_inv hΓ
    obtain ⟨C, hC, hconv⟩ := hplace.resolve_left (by simp)
    exact absurd hconv (hC.not_pi hΓ)
  | bound | free | lam | pi | app | bool | boolType | type => rfl

theorem Tracks.value_eq_none {S : Binding → Prop} {E : Values} {s : Store} (h : Tracks S E s)
    {b : Binding} (hb : s.definitions.lookup b = none) : E b = none := by
  cases hv : E b with
  | none => rfl
  | some v =>
    obtain ⟨d, hd, -⟩ := h.defined b v hv
    rw [hb] at hd
    cases hd

/-- **The head of a normal form.** A tame term normalises to a `let`, to a function, or to something
that shows its head. -/
theorem Normalizes.head {t u : Term} {s s' : Store} (h : Normalizes t s u s') {Γ : Environment}
    {T : Term} {outer : Bool} (hs : Tracks Γ.Binds Γ.values s) (hΓ : Γ.WellTyped) (hE : Γ.Tame)
    (ht : Tame Γ outer t T) : u.isLet = true ∨ u.Headed Γ.values := by
  have htyped := ht.typed hΓ
  induction h using Normalizes.induction generalizing Γ T outer with
  | @layer t _ _ _ _ h =>
    cases h with
    | stable hfree happ hlet =>
      cases t with
      | bound => exact absurd htyped.locallyClosed.1 (Nat.not_lt_zero _)
      | free b => exact absurd rfl (hfree b)
      | app f a => exact absurd rfl (happ f a)
      | letIn => cases hlet
      | lam body => exact .inr (.inl ⟨body, rfl⟩)
      | pi | bool | boolType | type => exact .inr (.inr ⟨_, rfl⟩)
    | undefined hb => exact .inr (.inr ⟨_, Term.head?_free.2 ⟨hs.value_eq_none hb, rfl⟩⟩)
    | @defined b d _ _ _ hd hv =>
      cases hw : Γ.values b with
      | none =>
        rw [hs.undefined b htyped.vars_over hw] at hd
        cases hd
      | some w =>
        obtain ⟨-, hwlc, -⟩ := hs.values b w hw
        obtain ⟨e, he, hwd⟩ := hs.defined b w hw
        obtain rfl : e = d := by simpa [hd] using he.symm
        have hd := ht.reduces ((Reduces.delta hw hwlc).trans hwd) hΓ hE
        exact hv.ih hs hΓ hE hd (hd.typed hΓ)
    | apply hf ha hu =>
      obtain ⟨_, A, B, htf, hta, -⟩ := htyped.app_inv
      have hs₁ := hf.run.tracks hs
      have hfr := hf.run.reduces hs htf.locallyClosed.1 htf.vars_over
      have har := ha.run.reduces hs₁ hta.locallyClosed.1 hta.vars_over
      have hr := (Reduces.app hfr har).trans (.beta hfr.locallyClosed.2 har.locallyClosed.2)
      have hbody := ht.reduces hr hΓ hE
      exact hu.ih (ha.run.tracks hs₁) hΓ hE hbody (hbody.typed hΓ)
    | stuck hf _ hlam =>
      obtain ⟨_, A, B, htf, -⟩ := ht.app_inv hΓ
      have htf₀ := htf.typed hΓ
      have hf' := htf.reduces (hf.run.reduces hs htf₀.locallyClosed.1 htf₀.vars_over) hΓ hE
      have hpi : Convertible Γ.values (.pi _ A B) (.pi _ A B) := .refl htf₀.locallyClosed.2
      rcases hf.ih hs hΓ hE htf htf₀ with hlet | ⟨body, rfl⟩ | ⟨head, hhead⟩
      · rw [hf'.isLet_eq_false hΓ] at hlet
        cases hlet
      · exact absurd rfl (hlam body)
      · obtain ⟨b, n, rfl⟩ := (hf'.typed hΓ).head_of_pi hΓ hpi hhead
        exact .inr (.inr ⟨_, Term.head?_app.2 ⟨b, n, hhead, rfl⟩⟩)
    | @letIn name b A A' v v' _ body' _ _ s₂ s₃ hA hv hb hbody =>
      rcases Term.makeLet_cases b A' ((s₃.definitions.lookup b).elim v' Definition.value) body' with
        ⟨hfresh, heq⟩ | heq
      · rw [heq]
        obtain ⟨htA, htv, htbody, -⟩ := ht.letIn_inv hΓ
        have htv₀ := htv.typed hΓ
        have hs₁ := hA.run.tracks hs
        have hs₂ := hv.run.tracks hs₁
        have hvr := hv.run.reduces hs₁ htv₀.locallyClosed.1 htv₀.vars_over
        subst hb
        have hnew : Γ (s₂.supply.mint name).1 = none :=
          Environment.eq_none_of_not_binds fun hb => Nat.lt_irrefl _ (hs₂.minted _ hb)
        have hs₂' : Tracks (Γ.define (s₂.supply.mint name).1 A v).Binds
            (Γ.define (s₂.supply.mint name).1 A v).values (s₂.derive.enter name ⟨v', A'⟩) := by
          rw [Environment.values_define, Environment.define, Environment.binds_set]
          exact hs₂.derive.enter name htv₀.vars_over hvr
        have hΓ' := hΓ.set hnew (Entry.wellTyped_define (htA.typed hΓ) htv₀)
        have htbody := htbody _ hnew
        have hhead := hbody.ih hs₂' hΓ' (hE.define hnew htA htv) htbody (htbody.typed hΓ')
        -- The normal form of the body does not use the variable, so its definition does not matter.
        refine hhead.imp id fun hhead => hhead.imp id ?_
        rintro ⟨head, hhead⟩
        refine ⟨head, hhead ▸ Term.head?_congr hfresh fun c hc => ?_⟩
        rw [Environment.values_define, Values.define_of_ne _ _ hc]
      · rw [heq]
        exact .inl rfl

/-! ## What a comparison starts from -/

/-- A store that is found later. It may know other values for the same definitions, and bindings may
have been minted since. -/
structure Store.Later (s s' : Store) : Prop where
  ages : s.Ages s'
  keeps : s.Keeps s'

namespace Store.Later

variable {s s₁ s₂ : Store}

theorem refl (s : Store) : s.Later s := ⟨.refl s, .refl s⟩

theorem trans (h₁ : s.Later s₁) (h₂ : s₁.Later s₂) : s.Later s₂ :=
  ⟨h₁.ages.trans h₂.ages, h₁.keeps.trans h₂.keeps⟩

theorem supply_le (h : s.Later s₁) : s.supply.next ≤ s₁.supply.next := h.keeps.supply

theorem restore (h : s.supply.next ≤ s₁.supply.next) :
    s.Later { s₁ with definitions := s.definitions } :=
  ⟨⟨h, fun _ => rfl⟩, h, fun hs => hs.of_lookup h fun _ => rfl⟩

theorem mint (s : Store) (name : String) : s.Later { s with supply := (s.supply.mint name).2 } :=
  ⟨⟨Nat.le_succ _, fun _ => rfl⟩, .mint s name⟩

end Store.Later

theorem Normalizes.later {t u : Term} {s s' : Store} (h : Normalizes t s u s') : s.Later s' :=
  ⟨h.ages, h.keeps⟩

/-- The context and the store stand for the environment, no variable is missing, and all is
tame. -/
structure Represents (Γ : Environment) (ctx : Context) (s : Store) : Prop where
  models : Models Γ ctx s
  found : ∀ b A, Γ b = some ⟨A, none⟩ → ctx.lookup b = some A
  tame : Γ.Tame

namespace Represents

variable {Γ : Environment} {ctx : Context} {s s' : Store}

theorem empty (supply : Supply) : Represents .empty {} { supply := supply } where
  models := .empty supply
  found _ _ h := by cases h
  tame := .empty

theorem wellTyped (h : Represents Γ ctx s) : Γ.WellTyped := h.models.wellTyped

theorem later (h : Represents Γ ctx s) (hs : s.Later s') : Represents Γ ctx s' :=
  ⟨h.models.of_ages hs.ages (hs.keeps.tracks h.models.tracks), h.found, h.tame⟩

theorem derive (h : Represents Γ ctx s) : Represents Γ ctx s.derive :=
  ⟨h.models.derive, h.found, h.tame⟩

theorem eq_none (h : Represents Γ ctx s) (name : String) : Γ (s.supply.mint name).1 = none :=
  h.models.eq_none (Nat.le_refl _)

theorem assume (h : Represents Γ ctx s) (name : String) {A : Term} (hA : Tame Γ true A .type) :
    Represents (Γ.assume (s.supply.mint name).1 A) (ctx.bind (s.supply.mint name).1 A)
      { s with supply := (s.supply.mint name).2 } := by
  have hnew := h.eq_none name
  have hminted := h.later (.mint s name)
  refine ⟨hminted.models.assume hnew (Nat.lt_succ_self _) (hA.typed h.wellTyped), fun c B hc => ?_,
    h.tame.assume hnew hA⟩
  by_cases hcb : c = (s.supply.mint name).1
  · subst hcb
    rw [Environment.assume, Environment.set_self] at hc
    cases hc
    refine Scope.lookup_bind_self A ?_
    cases hl : ctx.lookup (s.supply.mint name).1 with
    | none => rfl
    | some C =>
      rw [h.models.assumed _ C hl] at hnew
      cases hnew
  · rw [Environment.assume, Environment.set_of_ne _ _ hcb] at hc
    rw [Scope.lookup_bind_of_ne ctx A hcb]
    exact h.found c B hc

theorem enter (h : Represents Γ ctx s) (name : String) {A v : Term} (hA : Tame Γ true A .type)
    (hv : Tame Γ false v A) :
    Represents (Γ.define (s.supply.mint name).1 A v) ctx (s.enter name ⟨v, A⟩) := by
  refine ⟨?_, fun c B hc => ?_, h.tame.define (h.eq_none name) hA hv⟩
  · exact h.models.define (d := ⟨v, A⟩) (h.eq_none name) (Nat.le_succ _) (Nat.lt_succ_self _)
      (Scope.lookup_bind_self _ (h.models.tracks.lookup_eq_none (Nat.le_refl _)))
      (fun _ => Store.lookup_enter_of_ne s) (hA.typed h.wellTyped) (hv.typed h.wellTyped)
  · by_cases hcb : c = (s.supply.mint name).1
    · subst hcb
      rw [Environment.define, Environment.set_self] at hc
      cases hc
    · rw [Environment.define, Environment.set_of_ne _ _ hcb] at hc
      exact h.found c B hc

end Represents

/-- What normalising does to a tame term. -/
theorem Normalizes.tame {t u T : Term} {s s' : Store} (h : Normalizes t s u s') {Γ : Environment}
    {ctx : Context} (hR : Represents Γ ctx s) (ht : Tame Γ true t T) :
    Tame Γ true u T ∧ Convertible Γ.values t u ∧ (u.isLet = true ∨ u.Headed Γ.values) := by
  have hs := hR.models.tracks
  have htyped := ht.typed hR.wellTyped
  have hr := h.reduces hs htyped.locallyClosed.1 htyped.vars_over
  exact ⟨ht.reduces hr hR.wellTyped hR.tame, hr.convertible hs.below,
    h.head hs hR.wellTyped hR.tame ht⟩

/-- **Peeling.** Moving the `let`s around a term into the store extends the environment by their
definitions. What is left has the type of the term, and is a function or shows its head. The `let`s
can be put back around a type. -/
theorem Peels.represents {t u T : Term} {peeled : Telescope} {s s' : Store}
    (h : Peels t s peeled u s') {Γ : Environment} {ctx : Context} (hR : Represents Γ ctx s)
    (ht : Tame Γ true t T) :
    ∃ Δ, Opens Γ peeled Δ ∧ Represents Δ ctx s' ∧ Tame Δ true u T ∧ Convertible Δ.values t u ∧
      u.Headed Δ.values ∧
      ∀ U, Tame Δ true U .type → Tame Γ true (peeled.wrap U) .type := by
  induction h generalizing Γ with
  | head h hlet =>
    obtain ⟨hu, hconv, hhead⟩ := h.tame hR ht
    rw [hlet] at hhead
    exact ⟨Γ, .nil, hR.later h.later, hu, hconv, hhead.resolve_left (by simp), fun _ hU => hU⟩
  | @peel t A v body u name b peeled s s₁ s₂ h hb _ ih =>
    obtain ⟨hlet, hconv, -⟩ := h.tame hR ht
    have hΓ := hR.wellTyped
    have hR₁ := hR.later h.later
    obtain ⟨hA, hv, hbody, -⟩ := hlet.letIn_inv hΓ
    subst hb
    have hnew := hR₁.eq_none name
    obtain ⟨Δ, hopens, hRΔ, hu, hconv', hhead, hwrap⟩ := ih (hR₁.enter name hA hv) (hbody _ hnew)
    refine ⟨Δ, .cons (d := ⟨v, A⟩) hnew (hA.typed hΓ) (hv.typed hΓ) hopens, hRΔ, hu,
      .trans ?_ hconv', hhead, fun U hU => .makeLet hA hv hΓ hnew .type (hwrap U hU)⟩
    have hlc := (hlet.typed hΓ).locallyClosed.1
    have hunfold : Convertible (Γ.define (s₁.supply.mint name).1 A v).values
        (body.openWith (s₁.supply.mint name).1) (body.instantiate v) := by
      refine .instantiate_right hlc.2.2 (.delta ?_ hlc.2.1)
      rw [Environment.values_define, Values.define_self]
    refine hopens.le.convertible (.trans ?_ hunfold.symm)
    exact (Environment.le_set hnew _).convertible (hconv.trans (.zeta hlc))

end DepLang
