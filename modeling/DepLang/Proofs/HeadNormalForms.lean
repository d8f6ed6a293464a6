import DepLang.Proofs.Idempotence
import DepLang.Proofs.NormalForms
import DepLang.Proofs.Preservation

/-!
# The shape of normal forms

A normaliser looks into applications and `let`s, and into nothing else. `Term.Exposes t u` says that
`u` stands in `t` where it looks. In a normal form it finds nothing to do there
(`whnf_leaves_nothing_to_do`): no function is applied, no variable has a definition, and every `let`
is used, but not in a place that is exposed.

That does not make the head of a normal form plain. Under the `let`s around it, a normal form may be
an application of a `let`, and a function may stand under that `let` (`applied_let_stays_applied`):
an argument is given to a function only if nothing stands between the two. So a normal form that is
an application has a function at its head in no case, but a `let` in some.

No `let` is at the head if none comes to be applied. `NoLetApplied` says what a class of terms needs
for that: it is closed under reduction, and no application in it is one of a `let`
(`Normalizes.headNormal`). Two classes are such.

* The `let`s stand outside: around the term, in a function that is not applied, in a function type
  or in the type of a `let`, where no reduction brings them into the place of a function
  (`Term.LetsOutside`). Nothing is asked of types.
* The term is tame: it has a type, and its other `let`s have the type `boolType` or `type`.
-/
namespace DepLang

namespace Term

/-! ## Exposed places -/

/-- The second term stands in the first where a normaliser looks: only applications and `let`s are
around it. -/
inductive Exposes : Term → Term → Prop where
  | here {t : Term} : Exposes t t
  | function {f a u : Term} : Exposes f u → Exposes (.app f a) u
  | argument {f a u : Term} : Exposes a u → Exposes (.app f a) u
  | letType {name : String} {A v t u : Term} : Exposes A u → Exposes (.letIn name A v t) u
  | letValue {name : String} {A v t u : Term} : Exposes v u → Exposes (.letIn name A v t) u
  | letBody {name : String} {A v t u : Term} : Exposes t u → Exposes (.letIn name A v t) u

theorem Inert.of_exposes {D : Binding → Prop} {t u : Term} (h : t.Inert D) (hu : t.Exposes u) :
    u.Inert D := by
  induction hu with
  | here => exact h
  | function _ ih => exact ih h.1
  | argument _ ih => exact ih h.2.1
  | letType _ ih => exact ih h.1
  | letValue _ ih => exact ih h.2.1
  | letBody _ ih => exact ih h.2.2.1

end Term

/-- **Nothing is left to do in a normal form.** Take a term without dangling indices, and
definitions whose values have none. In the places that its normal form exposes, no function is
applied, no variable is defined, neither before the run nor after it, and no index stands, which
would be the variable of a `let` around it; and the variable of each `let` there occurs in its
body. -/
theorem whnf_leaves_nothing_to_do {fuel : Nat} {t u : Term} {s s' : Store} (hs : s.WellScoped)
    (hlc : t.LocallyClosed) (ht : t.Below s.supply.next) (h : whnf fuel t s = some (u, s')) :
    ∀ v, u.Exposes v →
      (∀ body a, v ≠ .app (.lam body) a) ∧
      (∀ b, v = .free b → s.definitions.lookup b = none ∧ s'.definitions.lookup b = none) ∧
      (∀ i, v ≠ .bound i) ∧
      ∀ name A value body, v = .letIn name A value body → body.Uses 0 := by
  intro v hv
  have hn := normalizes_of_whnf h
  have hinert := (hn.inert hs hlc ht).of_exposes hv
  refine ⟨?_, ?_, ?_, ?_⟩
  · rintro body a rfl
    exact hinert.2.2 body rfl
  · rintro b rfl
    have hnone : (s'.definitions.lookup b).isSome = false := Bool.eq_false_iff.2 hinert
    have hbefore := hn.ages.isSome_lookup b
    rw [hnone] at hbefore
    exact ⟨by simpa using hbefore.symm, by simpa using hnone⟩
  · rintro i rfl
    exact hinert
  · rintro name A value body rfl
    exact hinert.2.2.2

/-- The `let` of the normal form is used, and the function of the application under it is a
variable that has no definition. -/
theorem whnf_leaves_nothing_to_do_live :
    let s := loopingStore selfApplied 3
    s.WellScoped ∧ nestedLets.LocallyClosed ∧ nestedLets.Below 3 ∧
      whnf 6 nestedLets s = some (liveLet, loopingStore (.lam (.bound 0)) 5) ∧
      (∃ name A value body, liveLet = .letIn name A value body ∧ body.Uses 0) ∧
      liveLet.Exposes (.free ⟨2, "y"⟩) ∧ s.definitions.lookup ⟨2, "y"⟩ = none := by
  intro s
  obtain ⟨hlc, ht⟩ := nestedLets_minted
  have hshape := whnf_leaves_nothing_to_do loopingStore_wellScoped hlc ht whnf_nestedLets
  have hy : liveLet.Exposes (.free ⟨2, "y"⟩) := .letBody (.function (.function .here))
  exact ⟨loopingStore_wellScoped, hlc, ht, whnf_nestedLets,
    ⟨_, _, _, _, rfl, (hshape _ .here).2.2.2 _ _ _ _ rfl⟩, hy, ((hshape _ hy).2.1 _ rfl).1⟩

/-! ## Heads -/

namespace Term

/-- What stands under the `let`s around a term. -/
def underLets : Term → Term
  | letIn _ _ _ body => underLets body
  | t => t

/-- Under the `let`s around it, the term is not an application with a function or a `let` at its
head. -/
def HeadNormal (t : Term) : Prop :=
  ∀ f a, t.underLets = app f a →
    (∀ body, t.underLets.spineHead ≠ lam body) ∧ t.underLets.spineHead.isLet = false

theorem exposes_underLets (t : Term) : t.Exposes t.underLets := by
  induction t with
  | letIn _ _ _ _ _ _ ih => exact .letBody ih
  | _ => exact .here

theorem underLets_of_not_let {t : Term} (h : t.isLet = false) : t.underLets = t := by
  cases t with
  | letIn => cases h
  | _ => rfl

theorem Inert.spineHead_ne_lam {D : Binding → Prop} {f a : Term} (h : (app f a).Inert D) :
    ∀ body, (app f a).spineHead ≠ lam body := by
  induction f generalizing a with
  | app g b ih _ => exact ih h.1
  | lam body => exact absurd rfl (h.2.2 body)
  | _ => simp [spineHead]

theorem isLet_closeAt (b : Binding) (k : Nat) (t : Term) : (closeAt b k t).isLet = t.isLet := by
  cases t with
  | free c =>
    rw [closeAt]
    split <;> rfl
  | _ => rfl

theorem spineHead_closeAt (b : Binding) (k : Nat) (t : Term) :
    (closeAt b k t).spineHead = closeAt b k t.spineHead := by
  induction t with
  | app f _ ih => exact ih
  | free c => by_cases hc : c = b <;> simp [spineHead, closeAt, hc]
  | _ => rfl

theorem exists_underLets_closeAt (b : Binding) (k : Nat) (t : Term) :
    ∃ j, (closeAt b k t).underLets = closeAt b j t.underLets := by
  induction t generalizing k with
  | letIn _ _ _ _ _ _ ih => exact ih (k + 1)
  | free c =>
    refine ⟨k, ?_⟩
    by_cases hc : c = b <;> simp [underLets, closeAt, hc]
  | _ => exact ⟨k, rfl⟩

namespace HeadNormal

theorem of_not_app {t : Term} (h : ∀ f a, t ≠ app f a) (hlet : t.isLet = false) : t.HeadNormal := by
  intro f a heq
  rw [underLets_of_not_let hlet] at heq
  exact absurd heq (h f a)

theorem app {f : Term} (h : f.HeadNormal) (hlam : ∀ body, f ≠ lam body) (hlet : f.isLet = false)
    (a : Term) : (Term.app f a).HeadNormal := by
  intro _ _ _
  show (∀ body, f.spineHead ≠ lam body) ∧ f.spineHead.isLet = false
  cases f with
  | app g b => exact h g b rfl
  | letIn => cases hlet
  | lam body => exact absurd rfl (hlam body)
  | _ => exact ⟨by simp [spineHead], rfl⟩

/-- Closing a variable changes no head but the variable. -/
theorem closeAt {t : Term} (h : t.HeadNormal) (b : Binding) (k : Nat) :
    (Term.closeAt b k t).HeadNormal := by
  obtain ⟨j, hj⟩ := exists_underLets_closeAt b k t
  intro f a heq
  rw [hj] at heq ⊢
  rw [spineHead_closeAt, isLet_closeAt]
  cases hu : t.underLets with
  | app g c =>
    obtain ⟨hlam, hlet⟩ := h g c hu
    rw [hu] at hlam hlet
    exact ⟨Inert.ne_lam_closeAt hlam, hlet⟩
  | free c =>
    rw [hu, Term.closeAt] at heq
    split at heq <;> cases heq
  | _ =>
    rw [hu] at heq
    cases heq

theorem makeLet {t : Term} (h : t.HeadNormal) (b : Binding) (A v : Term) :
    (Term.makeLet b A v t).HeadNormal := by
  rcases makeLet_cases b A v t with ⟨-, heq⟩ | heq
  · rw [heq]
    exact h
  · rw [heq]
    exact h.closeAt b 0

end HeadNormal

end Term

/-! ## Terms in which no let is applied -/

/-- A class of terms, over variables and with values for them, in which no `let` comes to be applied
when a term or the body of a `let` around it is reduced. -/
structure NoLetApplied (I : (Binding → Prop) → Values → Term → Prop) : Prop where
  reduces : ∀ {S E t u}, I S E t → Reduces E t u → I S E u
  function : ∀ {S E f a}, I S E (.app f a) → I S E f ∧ f.isLet = false
  body : ∀ {S E name A v t b}, I S E (.letIn name A v t) → ¬ S b →
    I (fun c => c = b ∨ S c) (E.define b v) (t.openWith b)

/-- **The head of a normal form** is neither a function nor a `let`, where no `let` is applied. -/
theorem Normalizes.headNormal {I : (Binding → Prop) → Values → Term → Prop} (hI : NoLetApplied I)
    {t u : Term} {s s' : Store} (h : Normalizes t s u s') {S : Binding → Prop} {E : Values}
    (hs : Tracks S E s) (hlc : t.LocallyClosed) (hover : t.Over S) (ht : I S E t) :
    u.HeadNormal := by
  induction h using Normalizes.induction generalizing S E with
  | layer _ h =>
    cases h with
    | stable _ happ hlet => exact .of_not_app happ hlet
    | undefined => exact .of_not_app (by simp) rfl
    | @defined b d _ _ _ hd hv =>
      cases hw : E b with
      | none =>
        rw [hs.undefined b hover hw] at hd
        cases hd
      | some w =>
        obtain ⟨-, hwlc, hwS⟩ := hs.values b w hw
        obtain ⟨e, he, hwd⟩ := hs.defined b w hw
        obtain rfl : e = d := by simpa [hd] using he.symm
        exact hv.ih hs hwd.locallyClosed.2 (hs.reduct_over hwd hwS)
          (hI.reduces ht ((Reduces.delta hw hwlc).trans hwd))
    | apply hf ha hu =>
      have hs₁ := hf.run.tracks hs
      have hfr := hf.run.reduces hs hlc.1 hover.1
      have har := ha.run.reduces hs₁ hlc.2 hover.2
      have hr := (Reduces.app hfr har).trans (.beta hfr.locallyClosed.2 har.locallyClosed.2)
      exact hu.ih (ha.run.tracks hs₁) hr.locallyClosed.2 (hs.reduct_over hr hover) (hI.reduces ht hr)
    | @stuck _ _ _ a' _ _ _ hf _ hne =>
      have hfr := hf.run.reduces hs hlc.1 hover.1
      obtain ⟨-, hlet⟩ := hI.function (hI.reduces ht (.app hfr (.refl hlc.2)))
      exact (hf.ih hs hlc.1 hover.1 (hI.function ht).1).app hne hlet a'
    | @letIn name _ _ A' _ _ _ _ _ _ s₂ _ hA hv hb hbody =>
      have hs₁ := hA.run.tracks hs
      have hs₂ := hv.run.tracks hs₁
      have hvr := hv.run.reduces hs₁ hlc.2.1 hover.2.1
      subst hb
      have hnew : ¬ S (s₂.supply.mint name).1 := fun hS => Nat.lt_irrefl _ (hs₂.minted _ hS)
      have hbody := hbody.ih (hs₂.derive.enter name hover.2.1 hvr) (hlc.2.2.openWith _)
        (Term.Over.openWith (hover.2.2.mono fun c => .inr) (.inl rfl)) (hI.body ht hnew)
      exact hbody.makeLet _ A' _

/-! ## Lets that stand outside -/

namespace Term

/-- No `let` can come to be applied. A `let` may stand around the term if the term stands outside
itself, which `outer` says: it is neither applied, nor an argument, nor the value of a variable. It
may stand inside a function that stands outside, inside any function type, and inside the type of a
`let`. -/
def LetsOutside (outer : Bool) : Term → Prop
  | lam body => outer = true ∨ LetsOutside false body
  | app function argument => LetsOutside false function ∧ LetsOutside false argument
  | letIn _ _ value body => outer = true ∧ LetsOutside false value ∧ LetsOutside true body
  | bound _ | free _ | pi _ _ _ | bool _ | boolType | type => True

namespace LetsOutside

variable {outer : Bool} {t : Term}

theorem weaken (h : t.LetsOutside false) : t.LetsOutside outer := by
  cases t with
  | lam => exact .inr (h.resolve_left (by simp))
  | letIn => exact absurd h.1 (by simp)
  | _ => exact h

theorem replaceAt {s : Term} (h : t.LetsOutside outer) (hs : s.LetsOutside false) (k : Nat) :
    (Term.replaceAt s k t).LetsOutside outer := by
  induction t generalizing outer k with
  | bound i =>
    rw [Term.replaceAt]
    split
    · exact hs.weaken
    · trivial
  | free | pi | bool | boolType | type => trivial
  | lam _ ih => exact h.imp id (ih · _)
  | app _ _ ihf iha => exact ⟨ihf h.1 _, iha h.2 _⟩
  | letIn _ _ _ _ _ ihv ihb => exact ⟨h.1, ihv h.2.1 _, ihb h.2.2 _⟩

theorem isLet_eq_false (h : t.LetsOutside false) : t.isLet = false := by
  cases t with
  | letIn => exact absurd h.1 (by simp)
  | _ => rfl

theorem of_replaceAt {s : Term} {k : Nat} (h : (Term.replaceAt s k t).LetsOutside outer) :
    t.LetsOutside outer := by
  induction t generalizing outer k with
  | bound | free | pi | bool | boolType | type => trivial
  | lam _ ih => exact h.imp id ih
  | app _ _ ihf iha => exact ⟨ihf h.1, iha h.2⟩
  | letIn _ _ _ _ _ ihv ihb => exact ⟨h.1, ihv h.2.1, ihb h.2.2⟩

end LetsOutside

end Term

/-- Reduction keeps the `let`s outside, where no value has one. -/
theorem Reduces.letsOutside {E : Values} {t u : Term} (h : Reduces E t u)
    (hE : ∀ b v, E b = some v → v.LetsOutside false) {outer : Bool} (ht : t.LetsOutside outer) :
    u.LetsOutside outer := by
  induction h generalizing outer with
  | refl => exact ht
  | trans _ _ ih₁ ih₂ => exact ih₂ hE (ih₁ hE ht)
  | delta hb _ => exact (hE _ _ hb).weaken
  | @beta E body a =>
    have hbody : body.LetsOutside false := ht.1.resolve_left (by simp)
    exact (hbody.replaceAt ht.2 0).weaken
  | app _ _ ihf iha => exact ⟨ihf hE ht.1, iha hE ht.2⟩
  | @letIn E name A A' v v' t u n _ _ _ _ ihv iht =>
    let b : Binding := ⟨n, ""⟩
    have hvalues : ∀ c w, E.define b v c = some w → w.LetsOutside false :=
      Values.forall_define ht.2.1 fun c w _ => hE c w
    have hopen : (t.openWith b).LetsOutside true := ht.2.2.replaceAt (s := .free b) trivial 0
    exact ⟨ht.1, ihv hE ht.2.1, (iht b (Nat.le_refl n) hvalues hopen).of_replaceAt⟩
  | drop =>
    obtain ⟨rfl, -, hbody⟩ := ht
    exact hbody

theorem noLetApplied_outside : NoLetApplied fun _ E t =>
    (∀ b v, E b = some v → v.LetsOutside false) ∧ t.LetsOutside true where
  reduces := fun ⟨hE, ht⟩ hr => ⟨hE, hr.letsOutside hE ht⟩
  function := fun ⟨hE, hf, _⟩ => ⟨⟨hE, hf.weaken⟩, hf.isLet_eq_false⟩
  body := fun {_ _ _ _ _ _ b} ⟨hE, _, hv, ht⟩ _ =>
    ⟨Values.forall_define hv fun c w _ => hE c w, ht.replaceAt (s := .free b) trivial 0⟩

/-! ## Lets that are not functions -/

theorem noLetApplied_tame : NoLetApplied fun S E t =>
    ∃ Γ T, Γ.Binds = S ∧ Γ.values = E ∧ Γ.WellTyped ∧ Γ.Tame ∧ Tame Γ true t T where
  reduces := by
    rintro S E t u ⟨Γ, T, rfl, rfl, hΓ, hE, ht⟩ hr
    exact ⟨Γ, T, rfl, rfl, hΓ, hE, ht.reduces hr hΓ hE⟩
  function := by
    rintro S E f a ⟨Γ, T, rfl, rfl, hΓ, hE, ht⟩
    obtain ⟨_, A, B, hf, -⟩ := ht.app_inv hΓ
    exact ⟨⟨Γ, _, rfl, rfl, hΓ, hE, hf.weaken⟩, hf.isLet_eq_false hΓ⟩
  body := by
    rintro S E name A v t b ⟨Γ, T, rfl, rfl, hΓ, hE, ht⟩ hb
    have hnew := Environment.eq_none_of_not_binds hb
    obtain ⟨hA, hv, hbody, -⟩ := ht.letIn_inv hΓ
    refine ⟨Γ.define b A v, T, ?_, Environment.values_define Γ b A v,
      hΓ.set hnew (Entry.wellTyped_define (hA.typed hΓ) (hv.typed hΓ)), hE.define hnew hA hv,
      hbody b hnew⟩
    rw [Environment.define, Environment.binds_set]

/-- No `let` comes to be applied when the term is normalised: the `let`s stand outside and no value
has one, or the term and the values are tame. -/
inductive LetsUnapplied (s : Store) (t : Term) : Prop where
  | outside : t.LetsOutside true →
      (∀ b d, s.definitions.lookup b = some d → d.value.LetsOutside false) → LetsUnapplied s t
  | tame {Γ : Environment} {T : Term} : Tracks Γ.Binds Γ.values s → Γ.WellTyped → Γ.Tame →
      Tame Γ true t T → LetsUnapplied s t

/-- **The head of a normal form.** Take a term without dangling indices, and definitions whose
values have none. Under the `let`s around it, its normal form is not an application with a function
at its head. Nor is it one with a `let` at its head, if no `let` comes to be applied. -/
theorem whnf_exposes_head {fuel : Nat} {t u : Term} {s s' : Store} (hs : s.WellScoped)
    (hlc : t.LocallyClosed) (ht : t.Below s.supply.next) (h : whnf fuel t s = some (u, s')) :
    (∀ f a, u.underLets = .app f a → ∀ body, u.underLets.spineHead ≠ .lam body) ∧
      (LetsUnapplied s t → u.HeadNormal) := by
  have hn := normalizes_of_whnf h
  refine ⟨fun f a heq => ?_, fun hlets => ?_⟩
  · have hinert := (hn.inert hs hlc ht).of_exposes u.exposes_underLets
    rw [heq] at hinert ⊢
    exact hinert.spineHead_ne_lam
  · cases hlets with
    | outside ht' hvalues =>
      refine hn.headNormal noLetApplied_outside hs.tracks hlc ht ⟨fun b v hv => ?_, ht'⟩
      obtain ⟨d, hd, rfl⟩ := Option.map_eq_some_iff.1 hv
      exact hvalues b d hd
    | tame htracks hΓ hE ht' =>
      exact hn.headNormal noLetApplied_tame htracks hlc (ht'.typed hΓ).vars_over
        ⟨_, _, rfl, rfl, hΓ, hE, ht'⟩

/-- A `let` around an application that uses its variable in a function and as an argument. -/
theorem whnf_exposes_head_outer :
    let s := loopingStore selfApplied 3
    let t : Term := .letIn "x" .boolType (.app (.free ⟨0, "f"⟩) (.bool true))
      (.app (.app (.free ⟨2, "y"⟩) (.lam (.app (.free ⟨1, "loop"⟩) (.bound 1)))) (.bound 0))
    s.WellScoped ∧ t.LocallyClosed ∧ t.Below 3 ∧ LetsUnapplied s t ∧
      whnf 5 t s = some (liveLet, loopingStore (.lam (.bound 0)) 4) ∧ liveLet.HeadNormal := by
  intro s t
  have hlc : t.LocallyClosed := by simp [t, Term.LocallyClosed, Term.ClosedAt]
  have ht : t.Below 3 := by simp [t, Term.Below, Term.Over]
  have hlets : LetsUnapplied s t := by
    refine .outside (by simp [t, Term.LetsOutside]) fun b d hd => ?_
    have hmem : (b, d) ∈ s.definitions.inner := Scope.mem_bindings.2 hd
    simp only [s, loopingStore, List.mem_cons, Prod.mk.injEq, List.not_mem_nil, or_false] at hmem
    rcases hmem with ⟨-, rfl⟩ | ⟨-, rfl⟩ <;> simp [selfApplied, Term.LetsOutside]
  have hrun : whnf 5 t s = some (liveLet, loopingStore (.lam (.bound 0)) 4) := rfl
  exact ⟨loopingStore_wellScoped, hlc, ht, hlets, hrun,
    (whnf_exposes_head loopingStore_wellScoped hlc ht hrun).2 hlets⟩

/-- `let y : Bool := true in λ. y` is applied to `false`, and comes back as it is: the `let` is
used, so it stays between the function and the argument. -/
theorem applied_let_stays_applied :
    let t : Term := .app (.letIn "y" .boolType (.bool true) (.lam (.bound 1))) (.bool false)
    Store.WellScoped {} ∧ t.LocallyClosed ∧ t.Below 0 ∧
      whnf 3 t {} = some (t, { supply := ⟨1⟩ }) ∧ ¬ t.HeadNormal := by
  intro t
  refine ⟨⟨?_, ?_, ?_⟩, by decide, ?_, rfl, fun h => ?_⟩
  · intro b d hd
    cases hd
  · intro b d hd
    cases hd
  · intro b d hd
    cases hd
  · simp [t, Term.Below, Term.Over]
  · exact absurd (h _ _ rfl).2 (by decide)

end DepLang
