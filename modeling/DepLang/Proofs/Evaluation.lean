import DepLang.Proofs.Convertible
import DepLang.Proofs.Renaming

/-!
# Normal forms, without a store

`Evaluates n E t u` says that `u` is the normal form of `t` with the definitions `E`. It follows
normalisation rule by rule, but has no store: nothing is remembered, and the variable of a `let` is
named by the level `n` at which it is entered. It is what normal forms are measured against.

* `Evaluates.unique`: a term has at most one normal form.
* `Evaluates.alike`: terms that are alike have normal forms that are, with definitions that are
  alike and at any levels above what is in use. So definitions that a term does not lead to do not
  matter.
* `Term.Inert D t`: nothing is left to do for a normaliser that knows definitions of the variables
  in `D` only. Normal forms are inert (`Evaluates.inert`), and an inert term is its own normal form
  (`Evaluates.eq_of_inert`).
-/
namespace DepLang

/-- The normal form of a term, where `E` gives definitions. The variable of a `let` is named by the
level. -/
inductive Evaluates : Nat → Values → Term → Term → Prop where
  | stable {n : Nat} {E : Values} {t : Term} : t.isStable = true → Evaluates n E t t
  | undefined {n : Nat} {E : Values} {b : Binding} : E b = none → Evaluates n E (.free b) (.free b)
  | defined {n : Nat} {E : Values} {b : Binding} {v u : Term} : E b = some v → Evaluates n E v u →
      Evaluates n E (.free b) u
  | apply {n : Nat} {E : Values} {f a a' body u : Term} : Evaluates n E f (.lam body) →
      Evaluates n E a a' → Evaluates n E (body.instantiate a') u → Evaluates n E (.app f a) u
  | stuck {n : Nat} {E : Values} {f f' a a' : Term} : Evaluates n E f f' → Evaluates n E a a' →
      (∀ body, f' ≠ .lam body) → Evaluates n E (.app f a) (.app f' a')
  | letIn {n : Nat} {E : Values} {name : String} {ty ty' v v' body body' : Term} :
      Evaluates n E ty ty' → Evaluates n E v v' →
      Evaluates (n + 1) (E.define ⟨n, name⟩ v') (body.openWith ⟨n, name⟩) body' →
      Evaluates n E (.letIn name ty v body) (.makeLet ⟨n, name⟩ ty' v' body')

namespace Evaluates

variable {n : Nat} {E : Values} {t u u' : Term}

theorem unique (h : Evaluates n E t u) (h' : Evaluates n E t u') : u = u' := by
  induction h generalizing u' with
  | stable ht =>
    cases h' with
    | stable => rfl
    | undefined | defined | apply | stuck | letIn => cases ht
  | undefined hb =>
    cases h' with
    | stable | undefined => rfl
    | defined hb' => rw [hb] at hb'; cases hb'
  | defined hb _ ih =>
    cases h' with
    | stable ht => cases ht
    | undefined hb' => rw [hb] at hb'; cases hb'
    | defined hb' hv =>
      rw [hb] at hb'
      cases hb'
      exact ih hv
  | apply _ _ _ ihf iha ihu =>
    cases h' with
    | stable ht => cases ht
    | apply hf ha hu =>
      cases ihf hf
      cases iha ha
      exact ihu hu
    | stuck hf _ hne => exact absurd (ihf hf).symm (hne _)
  | stuck _ _ hne ihf iha =>
    cases h' with
    | stable ht => cases ht
    | apply hf _ _ => exact absurd (ihf hf) (hne _)
    | stuck hf ha _ => rw [ihf hf, iha ha]
  | letIn _ _ _ ihty ihv ihbody =>
    cases h' with
    | stable ht => cases ht
    | letIn hty hv hbody =>
      cases ihty hty
      cases ihv hv
      rw [ihbody hbody]

theorem locallyClosed (h : Evaluates n E t u) (hE : ∀ b v, E b = some v → v.LocallyClosed)
    (ht : t.LocallyClosed) : u.LocallyClosed := by
  induction h with
  | stable | undefined => exact ht
  | defined hb _ ih => exact ih hE (hE _ _ hb)
  | apply _ _ _ ihf iha ihu =>
    exact ihu hE (Term.ClosedAt.instantiate (ihf hE ht.1) (iha hE ht.2))
  | stuck _ _ _ ihf iha => exact ⟨ihf hE ht.1, iha hE ht.2⟩
  | @letIn n E name ty ty' v v' body body' _ _ _ ihty ihv ihbody =>
    have hv' := ihv hE ht.2.1
    have hbody := ihbody (Values.forall_define hv' fun c w _ => hE c w) (ht.2.2.openWith _)
    rcases Term.makeLet_cases ⟨n, name⟩ ty' v' body' with ⟨-, heq⟩ | heq
    · rw [heq]
      exact hbody
    · rw [heq]
      exact ⟨ihty hE ht.1, hv', hbody.close _⟩

end Evaluates

/-! ## Definitions that are alike -/

/-- Variables that stand for each other have values that are alike, or none. -/
def Values.Alike (R : Pairs) (E F : Values) : Prop :=
  ∀ b c, R b c → Option.Rel (Term.Alike R) (E b) (F c)

theorem Values.Alike.define {R : Pairs} {E F : Values} (h : Values.Alike R E F) {m n : Nat}
    (hR : R.Matches m n) {v w : Term} (hvw : v.Alike R w) (name : String) :
    Values.Alike (R.add ⟨m, name⟩ ⟨n, name⟩) (E.define ⟨m, name⟩ v) (F.define ⟨n, name⟩ w) := by
  rintro b c (⟨rfl, rfl⟩ | hbc)
  · rw [Values.define_self, Values.define_self]
    exact .some (hvw.mono fun _ _ => .inr)
  · rw [Values.define_of_ne _ _ (hR.ne_left hbc (Nat.le_refl _)),
      Values.define_of_ne _ _ (hR.ne_right hbc (Nat.le_refl _))]
    exact rel_mono (h b c hbc) fun _ _ hvalue => hvalue.mono fun _ _ => .inr

/-- **Identities do not matter.** Terms that are alike have normal forms that are alike. -/
theorem Evaluates.alike {m : Nat} {E : Values} {t u : Term} (h : Evaluates m E t u) {R : Pairs}
    {n : Nat} {F : Values} (hR : R.Matches m n) (hE : E.Alike R F) {t' : Term} (ht : t.Alike R t') :
    ∃ u', Evaluates n F t' u' ∧ u.Alike R u' := by
  induction h generalizing R n F t' with
  | stable hst =>
    refine ⟨t', .stable ?_, ht⟩
    cases ht <;> first | rfl | cases hst
  | undefined hb =>
    cases ht with
    | @free _ c hbc =>
      have hc := hE _ c hbc
      rw [hb] at hc
      cases hF : F c with
      | none => exact ⟨_, .undefined hF, .free hbc⟩
      | some w => rw [hF] at hc; cases hc
  | defined hb _ ih =>
    cases ht with
    | @free _ c hbc =>
      have hc := hE _ c hbc
      rw [hb] at hc
      cases hF : F c with
      | none => rw [hF] at hc; cases hc
      | some w =>
        rw [hF, Option.rel_some_some] at hc
        obtain ⟨u', hu', halike⟩ := ih hR hE hc
        exact ⟨u', .defined hF hu', halike⟩
  | apply _ _ _ ihf iha ihu =>
    cases ht with
    | app hf ha =>
      obtain ⟨f', hf', hlam⟩ := ihf hR hE hf
      obtain ⟨a', ha', haa⟩ := iha hR hE ha
      cases hlam with
      | lam hbody =>
        obtain ⟨u', hu', huu⟩ := ihu hR hE (hbody.instantiate haa)
        exact ⟨u', .apply hf' ha' hu', huu⟩
  | stuck _ _ hne ihf iha =>
    cases ht with
    | app hf ha =>
      obtain ⟨f', hf', hff⟩ := ihf hR hE hf
      obtain ⟨a', ha', haa⟩ := iha hR hE ha
      exact ⟨_, .stuck hf' ha' (hff.ne_lam hne), .app hff haa⟩
  | @letIn m E name ty ty' v v' body body' _ _ _ ihty ihv ihbody =>
    cases ht with
    | letIn _ hty hv hbody =>
      obtain ⟨ty₂, hty₂, htyty⟩ := ihty hR hE hty
      obtain ⟨v₂, hv₂, hvv⟩ := ihv hR hE hv
      obtain ⟨body₂, hbody₂, hbb⟩ :=
        ihbody (hR.mint name) (hE.define hR hvv name) (hbody.openWith_add _ _)
      exact ⟨_, .letIn hty₂ hv₂ hbody₂,
        .makeLet (hR.separates_mint name) (fun _ _ => Pairs.Matches.of_add) rfl htyty hvv hbb⟩

/-- Definitions that a term does not lead to do not matter, and neither does the level. -/
theorem Evaluates.elsewhere {m : Nat} {E : Values} {t u : Term} (h : Evaluates m E t u) {n : Nat}
    {F : Values} {P : Binding → Prop} (hm : ∀ b, P b → b.id < m) (hn : ∀ b, P b → b.id < n)
    (hF : ∀ b, P b → F b = E b) (hE : ∀ b v, P b → E b = some v → v.Over P) (ht : t.Over P) :
    Evaluates n F t u := by
  have hsame : ∀ b, P b → Pairs.same P b b := fun b hb => ⟨rfl, hb⟩
  obtain ⟨u', hu', halike⟩ := h.alike (.same hm hn) (F := F) (by
    rintro b c ⟨rfl, hb⟩
    rw [hF b hb]
    cases hv : E b with
    | none => exact .none
    | some v => exact .some (.refl (hE b v hb hv) hsame)) (.refl ht hsame)
  rw [halike.eq_of_same]
  exact hu'

/-! ## Nothing left to do -/

namespace Term

/-- The variable `index` binders up occurs. -/
def Uses (index : Nat) : Term → Prop
  | bound i => i = index
  | lam body => Uses (index + 1) body
  | pi _ domain codomain => Uses index domain ∨ Uses (index + 1) codomain
  | app function argument => Uses index function ∨ Uses index argument
  | letIn _ ty value body => Uses index ty ∨ Uses index value ∨ Uses (index + 1) body
  | free _ | bool _ | boolType | type => False

/-- Where a normaliser looks, which is everywhere but in functions and function types, there is no
variable in `D` and none of a `let`, no function is applied, and every `let` is used. -/
def Inert (D : Binding → Prop) : Term → Prop
  | bound _ => False
  | free b => ¬ D b
  | app function argument => Inert D function ∧ Inert D argument ∧ ∀ body, function ≠ lam body
  | letIn _ ty value body => Inert D ty ∧ Inert D value ∧ Inert D body ∧ Uses 0 body
  | lam _ | pi _ _ _ | bool _ | boolType | type => True

/-- How deep a normaliser looks into a term that leaves it nothing to do. -/
def reach : Term → Nat
  | app function argument => max (reach function) (reach argument) + 1
  | letIn _ ty value body => max (reach ty) (max (reach value) (reach body)) + 1
  | bound _ | free _ | lam _ | pi _ _ _ | bool _ | boolType | type => 1

theorem reach_closeAt (b : Binding) (k : Nat) (t : Term) : (closeAt b k t).reach = t.reach := by
  induction t generalizing k with
  | free c =>
    rw [closeAt]
    split <;> rfl
  | bound | lam | pi | bool | boolType | type => rfl
  | app _ _ ihf iha => rw [closeAt, reach, reach, ihf, iha]
  | letIn _ _ _ _ ihA ihv iht => rw [closeAt, reach, reach, ihA, ihv, iht]

theorem reach_makeLet_le {b : Binding} {A v t : Term} {n : Nat} (hA : A.reach ≤ n)
    (hv : v.reach ≤ n) (ht : t.reach ≤ n) : (makeLet b A v t).reach ≤ n + 1 := by
  unfold makeLet
  split
  · exact Nat.le_succ_of_le ht
  · simp only [reach, close, reach_closeAt]
    omega

theorem Uses.closeAt {t : Term} {index : Nat} (h : t.Uses index) (b : Binding) (k : Nat) :
    (Term.closeAt b k t).Uses index := by
  induction t generalizing index k with
  | bound => exact h
  | free | bool | boolType | type => exact h.elim
  | lam _ ih => exact ih h _
  | pi _ _ _ ihA ihB => exact h.imp (ihA · _) (ihB · _)
  | app _ _ ihf iha => exact h.imp (ihf · _) (iha · _)
  | letIn _ _ _ _ ihA ihv iht => exact h.imp (ihA · _) (Or.imp (ihv · _) (iht · _))

theorem Uses.replaceAt {t : Term} {index : Nat} (h : t.Uses index) (s : Term) {k : Nat}
    (hk : index ≠ k) : (Term.replaceAt s k t).Uses index := by
  induction t generalizing index k with
  | bound i =>
    have hik : i ≠ k := fun e => hk ((h : i = index).symm.trans e)
    rw [Term.replaceAt, if_neg hik]
    exact h
  | free | bool | boolType | type => exact h.elim
  | lam _ ih => exact ih h (by omega)
  | pi _ _ _ ihA ihB => exact h.imp (ihA · hk) (ihB · (by omega))
  | app _ _ ihf iha => exact h.imp (ihf · hk) (iha · hk)
  | letIn _ _ _ _ ihA ihv iht => exact h.imp (ihA · hk) (Or.imp (ihv · hk) (iht · (by omega)))

theorem uses_closeAt {t : Term} {b : Binding} (h : t.usage b ≠ 0) (k : Nat) :
    (Term.closeAt b k t).Uses k := by
  induction t generalizing k with
  | bound | bool | boolType | type => exact absurd rfl h
  | free c =>
    by_cases hc : c = b
    · rw [Term.closeAt, if_pos hc]
      exact rfl
    · simp [usage, hc] at h
  | lam _ ih => exact ih h _
  | pi _ A B ihA ihB =>
    have hor : A.usage b ≠ 0 ∨ B.usage b ≠ 0 := by
      simp only [usage] at h
      omega
    exact hor.imp (ihA · _) (ihB · _)
  | app f a ihf iha =>
    have hor : f.usage b ≠ 0 ∨ a.usage b ≠ 0 := by
      simp only [usage] at h
      omega
    exact hor.imp (ihf · _) (iha · _)
  | letIn _ A v t ihA ihv iht =>
    have hor : A.usage b ≠ 0 ∨ v.usage b ≠ 0 ∨ t.usage b ≠ 0 := by
      simp only [usage] at h
      omega
    exact hor.imp (ihA · _) (Or.imp (ihv · _) (iht · _))

theorem Uses.usage_replaceAt {t : Term} {k : Nat} (h : t.Uses k) (b : Binding) :
    (Term.replaceAt (.free b) k t).usage b ≠ 0 := by
  induction t generalizing k with
  | bound i =>
    have hik : i = k := h
    simp [Term.replaceAt, hik, usage]
  | free | bool | boolType | type => exact h.elim
  | lam _ ih => exact ih h
  | pi _ _ _ ihA ihB =>
    have hor := h.imp ihA ihB
    simp only [Term.replaceAt, usage]
    omega
  | app _ _ ihf iha =>
    have hor := h.imp ihf iha
    simp only [Term.replaceAt, usage]
    omega
  | letIn _ _ _ _ ihA ihv iht =>
    have hor := h.imp ihA (Or.imp ihv iht)
    simp only [Term.replaceAt, usage]
    omega

theorem Alike.uses {R : Pairs} {t u : Term} (h : t.Alike R u) {index : Nat} (ht : t.Uses index) :
    u.Uses index := by
  induction h generalizing index with
  | bound => exact ht
  | free | bool | boolType | type => exact ht.elim
  | lam _ ih => exact ih ht
  | pi _ _ _ ihA ihB => exact ht.imp ihA ihB
  | app _ _ ihf iha => exact ht.imp ihf iha
  | letIn _ _ _ _ ihA ihv iht => exact ht.imp ihA (Or.imp ihv iht)

theorem makeLet_openWith {b : Binding} {A v body : Term} (hb : body.Over (· ≠ b))
    (hu : body.Uses 0) : makeLet b A v (body.openWith b) = letIn b.name A v body := by
  have husage : (body.openWith b).usage b ≠ 0 := hu.usage_replaceAt b
  rw [makeLet, if_neg husage, close_openWith hb]

namespace Inert

variable {D D' : Binding → Prop} {t : Term}

/-- Only definitions of variables that occur matter, and fewer of them leave nothing to do. -/
theorem mono (h : t.Inert D) {P : Binding → Prop} (ht : t.Over P) (hD : ∀ b, P b → D' b → D b) :
    t.Inert D' := by
  induction t with
  | bound => exact h
  | free b => exact fun hb => h (hD b ht hb)
  | lam | pi | bool | boolType | type => trivial
  | app _ _ ihf iha => exact ⟨ihf h.1 ht.1, iha h.2.1 ht.2, h.2.2⟩
  | letIn _ _ _ _ ihA ihv iht =>
    exact ⟨ihA h.1 ht.1, ihv h.2.1 ht.2.1, iht h.2.2.1 ht.2.2, h.2.2.2⟩

theorem define (h : t.Inert D) {b : Binding} (ht : t.Over (· ≠ b)) :
    t.Inert fun c => c = b ∨ D c :=
  h.mono ht fun _ hc hD => hD.resolve_left hc

theorem ne_lam_replaceAt {s : Term} {k : Nat} (h : t.Inert D) (hne : ∀ body, t ≠ lam body) :
    ∀ body, Term.replaceAt s k t ≠ lam body := by
  cases t with
  | bound => exact h.elim
  | lam body => exact absurd rfl (hne body)
  | _ => simp [Term.replaceAt]

/-- Putting a term for an index changes nothing where a normaliser looks. -/
theorem replaceAt (h : t.Inert D) (s : Term) (k : Nat) : (Term.replaceAt s k t).Inert D := by
  induction t generalizing k with
  | bound => exact h.elim
  | free => exact h
  | lam | pi | bool | boolType | type => trivial
  | app _ _ ihf iha => exact ⟨ihf h.1 _, iha h.2.1 _, h.1.ne_lam_replaceAt h.2.2⟩
  | letIn _ _ _ _ ihA ihv iht =>
    exact ⟨ihA h.1 _, ihv h.2.1 _, iht h.2.2.1 _, h.2.2.2.replaceAt s (by omega)⟩

theorem reach_replaceAt (h : t.Inert D) (s : Term) (k : Nat) :
    (Term.replaceAt s k t).reach = t.reach := by
  induction t generalizing k with
  | bound => exact h.elim
  | free | lam | pi | bool | boolType | type => rfl
  | app _ _ ihf iha => rw [Term.replaceAt, reach, reach, ihf h.1, iha h.2.1]
  | letIn _ _ _ _ ihA ihv iht =>
    rw [Term.replaceAt, reach, reach, ihA h.1, ihv h.2.1, iht h.2.2.1]

theorem ne_lam_closeAt {b : Binding} {k : Nat} (hne : ∀ body, t ≠ lam body) :
    ∀ body, Term.closeAt b k t ≠ lam body := by
  cases t with
  | lam body => exact absurd rfl (hne body)
  | free c =>
    rw [Term.closeAt]
    split <;> simp
  | _ => simp [Term.closeAt]

/-- A variable that is defined does not stand where a normaliser looks, so closing it changes
nothing there. -/
theorem closeAt {b : Binding} (h : t.Inert fun c => c = b ∨ D c) (k : Nat) :
    (Term.closeAt b k t).Inert D := by
  induction t generalizing k with
  | bound => exact h.elim
  | free c =>
    rw [Term.closeAt, if_neg fun e => h (.inl e)]
    exact fun hc => h (.inr hc)
  | lam | pi | bool | boolType | type => trivial
  | app _ _ ihf iha => exact ⟨ihf h.1 _, iha h.2.1 _, ne_lam_closeAt h.2.2⟩
  | letIn _ _ _ _ ihA ihv iht =>
    exact ⟨ihA h.1 _, ihv h.2.1 _, iht h.2.2.1 _, h.2.2.2.closeAt b _⟩

theorem makeLet {b : Binding} {A v : Term} (hA : A.Inert D) (hv : v.Inert D)
    (h : t.Inert fun c => c = b ∨ D c) : (makeLet b A v t).Inert D := by
  unfold Term.makeLet
  split
  · rename_i hzero
    exact h.mono (usage_eq_zero_iff.1 hzero) fun _ _ => .inr
  · rename_i hused
    exact ⟨hA, hv, h.closeAt 0, uses_closeAt hused 0⟩

theorem alike {R : Pairs} {u : Term} (h : t.Inert D) (htu : t.Alike R u)
    (hD : ∀ b c, R b c → D' c → D b) : u.Inert D' := by
  induction htu with
  | bound => exact h
  | free hbc => exact fun hc => h (hD _ _ hbc hc)
  | lam | pi | bool | boolType | type => trivial
  | app hf _ ihf iha => exact ⟨ihf h.1, iha h.2.1, hf.ne_lam h.2.2⟩
  | letIn _ _ _ hbody ihA ihv iht =>
    exact ⟨ihA h.1, ihv h.2.1, iht h.2.2.1, hbody.uses h.2.2.2⟩

end Inert

end Term

/-- **Nothing is left to do in a normal form.** -/
theorem Evaluates.inert {n : Nat} {E : Values} {t u : Term} (h : Evaluates n E t u) :
    u.Inert fun b => (E b).isSome = true := by
  induction h with
  | @stable n E t ht =>
    cases t <;> trivial
  | undefined hb => simp [Term.Inert, hb]
  | defined _ _ ih => exact ih
  | apply _ _ _ _ _ ihu => exact ihu
  | stuck _ _ hne ihf iha => exact ⟨ihf, iha, hne⟩
  | @letIn n E name _ _ _ _ _ body' _ _ _ ihty ihv ihbody =>
    have hdefined : ∀ c : Binding, (c = ⟨n, name⟩ ∨ (E c).isSome = true) →
        ∀ {v : Term}, (E.define ⟨n, name⟩ v c).isSome = true := by
      intro c hc v
      by_cases hcn : c = ⟨n, name⟩
      · rw [hcn, Values.define_self]
        rfl
      · rw [Values.define_of_ne _ _ hcn]
        exact hc.resolve_left hcn
    obtain ⟨m, hm⟩ := body'.exists_below
    exact .makeLet ihty ihv (ihbody.mono hm fun c _ hc => hdefined c hc)

/-- **An inert term is its own normal form.** -/
theorem Evaluates.eq_of_inert {n : Nat} {E : Values} {t u : Term} (h : Evaluates n E t u)
    {D : Binding → Prop} (hD : ∀ b, (E b).isSome = true → D b) (ht : t.Inert D) (hb : t.Below n) :
    u = t := by
  induction h generalizing D with
  | stable | undefined => rfl
  | @defined n E b v u hv _ _ => exact absurd (hD b (by simp [hv])) ht
  | apply _ _ _ ihf _ _ => exact absurd (ihf hD ht.1 hb.1).symm (ht.2.2 _)
  | stuck _ _ _ ihf iha => rw [ihf hD ht.1 hb.1, iha hD ht.2.1 hb.2]
  | @letIn n E name ty ty' v v' body body' _ _ _ ihty ihv ihbody =>
    have hfresh : body.Over (· ≠ ⟨n, name⟩) := Term.Below.ne hb.2.2 (Nat.le_refl n)
    have hopen : (body.openWith ⟨n, name⟩).Below (n + 1) :=
      Term.Over.openWith (hb.2.2.mono fun _ => Nat.lt_succ_of_lt) (Nat.lt_succ_self n)
    have hbody := ihbody (fun c hc => by
      by_cases hcn : c = ⟨n, name⟩
      · exact .inl hcn
      · rw [Values.define_of_ne _ _ hcn] at hc
        exact .inr (hD c hc)) ((ht.2.2.1.define hfresh).replaceAt _ 0) hopen
    rw [ihty hD ht.1 hb.1, ihv hD ht.2.1 hb.2.1, hbody, Term.makeLet_openWith hfresh ht.2.2.2]

end DepLang
