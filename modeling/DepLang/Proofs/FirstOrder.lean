import DepLang.Proofs.Conversion
import Mathlib.Logic.Function.Basic
import Mathlib.Logic.Relation
import Mathlib.Order.WellFoundedSet

/-!
# First-order terms normalise

Terms may loop: the universe contains itself, and nothing keeps a definition from mentioning its own
variable. Without functions and applications, and with definitions that do not go in circles, they
do not. Unfolding a definition or entering a `let` is all that can happen to such a term, and a
**weight** says how much of that is to come.

* A variable weighs more than its value (`Store.Weighs`). Such weights exist if the definitions are
  acyclic (`Definitions.Acyclic.exists_weights`).
* The variable of a `let` weighs one more than the value that it binds, so a `let` weighs more than
  its body, opened with a variable of that weight (`Term.weight_openWith`).

Normalising a term ends, and never makes it heavier (`Store.Weighs.normalizes`). Nor does moving the
`let`s around it into the store (`Store.Weighs.peels`), which gives their variables a weight.
-/
namespace DepLang

namespace Term

/-- Neither a function nor an application occurs in the term. -/
def FirstOrder : Term → Prop
  | lam _ | app _ _ => False
  | pi _ domain codomain => domain.FirstOrder ∧ codomain.FirstOrder
  | letIn _ ty value body => ty.FirstOrder ∧ value.FirstOrder ∧ body.FirstOrder
  | bound _ | free _ | bool _ | boolType | type => True

namespace FirstOrder

variable {s t : Term}

theorem replaceAt (hs : s.FirstOrder) (ht : t.FirstOrder) (k : Nat) :
    (Term.replaceAt s k t).FirstOrder := by
  induction t generalizing k with
  | bound i =>
    rw [Term.replaceAt]
    split
    · exact hs
    · trivial
  | pi _ _ _ ihA ihB => exact ⟨ihA ht.1 k, ihB ht.2 (k + 1)⟩
  | letIn _ _ _ _ ihA ihv ihb => exact ⟨ihA ht.1 k, ihv ht.2.1 k, ihb ht.2.2 (k + 1)⟩
  | lam | app => exact ht.elim
  | free | bool | boolType | type => trivial

theorem openWith (ht : t.FirstOrder) (b : Binding) : (t.openWith b).FirstOrder :=
  replaceAt (s := free b) trivial ht 0

theorem closeAt (ht : t.FirstOrder) (b : Binding) (k : Nat) : (Term.closeAt b k t).FirstOrder := by
  induction t generalizing k with
  | free c =>
    rw [Term.closeAt]
    split <;> trivial
  | pi _ _ _ ihA ihB => exact ⟨ihA ht.1 k, ihB ht.2 (k + 1)⟩
  | letIn _ _ _ _ ihA ihv ihb => exact ⟨ihA ht.1 k, ihv ht.2.1 k, ihb ht.2.2 (k + 1)⟩
  | lam | app => exact ht.elim
  | bound | bool | boolType | type => trivial

theorem makeLet {ty value body : Term} (hty : ty.FirstOrder) (hvalue : value.FirstOrder)
    (hbody : body.FirstOrder) (b : Binding) : (Term.makeLet b ty value body).FirstOrder := by
  rcases makeLet_cases b ty value body with ⟨-, h⟩ | h
  · rw [h]
    exact hbody
  · rw [h]
    exact ⟨hty, hvalue, hbody.closeAt b 0⟩

end FirstOrder

/-! ## Weights -/

/-- The weights of indices under one more binder, whose variable has the weight `w`. -/
def push (w : Nat) (ε : Nat → Nat) : Nat → Nat
  | 0 => w
  | i + 1 => ε i

/-- The weight of a term whose variables have the weights that `ω` gives, and whose dangling indices
have those of `ε`. -/
def weightIn (ω : Binding → Nat) : (Nat → Nat) → Term → Nat
  | ε, bound i => ε i
  | _, free b => ω b
  | ε, lam body => weightIn ω (push 0 ε) body + 1
  | ε, pi _ domain codomain => weightIn ω ε domain + weightIn ω (push 0 ε) codomain + 1
  | ε, app function argument => weightIn ω ε function + weightIn ω ε argument + 1
  | ε, letIn _ ty value body =>
    weightIn ω ε ty + weightIn ω ε value + weightIn ω (push (weightIn ω ε value + 1) ε) body + 1
  | _, bool _ | _, boolType | _, type => 0

/-- The weight of a term without dangling indices. -/
def weight (ω : Binding → Nat) (t : Term) : Nat := t.weightIn ω fun _ => 0

/-- The weight of the body of a binder whose variable has the weight `w`. -/
def weightUnder (ω : Binding → Nat) (w : Nat) (body : Term) : Nat :=
  body.weightIn ω (push w fun _ => 0)

theorem weight_pi (ω : Binding → Nat) (name : String) (A B : Term) :
    (pi name A B).weight ω = A.weight ω + B.weightUnder ω 0 + 1 :=
  rfl

theorem weight_letIn (ω : Binding → Nat) (name : String) (ty v body : Term) :
    (letIn name ty v body).weight ω =
      ty.weight ω + v.weight ω + body.weightUnder ω (v.weight ω + 1) + 1 :=
  rfl

theorem push_le {w w' k : Nat} {ε ε' : Nat → Nat} (hw : w ≤ w') (hε : ∀ i < k, ε i ≤ ε' i) :
    ∀ i < k + 1, push w ε i ≤ push w' ε' i
  | 0, _ => hw
  | i + 1, hi => hε i (Nat.lt_of_succ_lt_succ hi)

theorem push_update (w x k : Nat) (ε : Nat → Nat) :
    push w (Function.update ε k x) = Function.update (push w ε) (k + 1) x := by
  funext i
  cases i with
  | zero => simp [push]
  | succ i => simp [push, Function.update_apply]

theorem push_eq_update (w : Nat) : push w (fun _ => 0) = Function.update (fun _ => 0) 0 w := by
  funext i
  cases i with
  | zero => simp [push]
  | succ i => simp [push]

/-- Heavier variables make a heavier term. Only those count that occur. -/
theorem weightIn_mono {P : Binding → Prop} {ω ω' : Binding → Nat} (hω : ∀ b, P b → ω b ≤ ω' b)
    {t : Term} (ht : t.Over P) {k : Nat} (hk : t.ClosedAt k) {ε ε' : Nat → Nat}
    (hε : ∀ i < k, ε i ≤ ε' i) : t.weightIn ω ε ≤ t.weightIn ω' ε' := by
  induction t generalizing k ε ε' with
  | bound i => exact hε i hk
  | free b => exact hω b ht
  | lam body ih => exact Nat.succ_le_succ (ih ht hk (push_le (Nat.le_refl _) hε))
  | pi name A B ihA ihB =>
    have hA := ihA ht.1 hk.1 hε
    have hB := ihB ht.2 hk.2 (push_le (Nat.le_refl 0) hε)
    simp only [weightIn]
    omega
  | app f a ihf iha =>
    have hf := ihf ht.1 hk.1 hε
    have ha := iha ht.2 hk.2 hε
    simp only [weightIn]
    omega
  | letIn name A v body ihA ihv ihb =>
    have hA := ihA ht.1 hk.1 hε
    have hv := ihv ht.2.1 hk.2.1 hε
    have hb := ihb ht.2.2 hk.2.2 (push_le (Nat.add_le_add_right hv 1) hε)
    simp only [weightIn]
    omega
  | bool | boolType | type => exact Nat.le_refl _

theorem weightIn_congr {P : Binding → Prop} {ω ω' : Binding → Nat} (hω : ∀ b, P b → ω b = ω' b)
    {t : Term} (ht : t.Over P) {k : Nat} (hk : t.ClosedAt k) {ε ε' : Nat → Nat}
    (hε : ∀ i < k, ε i = ε' i) : t.weightIn ω ε = t.weightIn ω' ε' :=
  Nat.le_antisymm
    (weightIn_mono (fun b hb => (hω b hb).le) ht hk fun i hi => (hε i hi).le)
    (weightIn_mono (fun b hb => (hω b hb).ge) ht hk fun i hi => (hε i hi).ge)

theorem weight_congr {P : Binding → Prop} {ω ω' : Binding → Nat} {t : Term} (ht : t.Within P)
    (hω : ∀ b, P b → ω b = ω' b) : t.weight ω = t.weight ω' :=
  weightIn_congr hω ht.vars ht.closed fun _ _ => rfl

theorem weight_update {ω : Binding → Nat} {t : Term} {b : Binding} (ht : t.Within (· ≠ b))
    (w : Nat) : t.weight (Function.update ω b w) = t.weight ω :=
  weight_congr ht fun _ hc => Function.update_of_ne hc w ω

theorem weight_update_le {ω : Binding → Nat} {t : Term} (ht : t.LocallyClosed) (b : Binding)
    {w w' : Nat} (h : w ≤ w') :
    t.weight (Function.update ω b w) ≤ t.weight (Function.update ω b w') := by
  refine weightIn_mono (fun c _ => ?_) t.over_usage ht fun _ _ => Nat.le_refl _
  by_cases hc : c = b
  · subst hc
    simpa using h
  · simp [hc]

theorem weightUnder_le (ω : Binding → Nat) {body : Term} (hc : body.ClosedAt 1) {w w' : Nat}
    (h : w ≤ w') : body.weightUnder ω w ≤ body.weightUnder ω w' :=
  weightIn_mono (fun _ _ => Nat.le_refl _) body.over_usage hc
    (push_le h fun _ _ => Nat.le_refl _)

theorem le_weightIn (ω : Binding → Nat) {b : Binding} {t : Term} (h : t.usage b ≠ 0)
    (ε : Nat → Nat) : ω b ≤ t.weightIn ω ε := by
  induction t generalizing ε with
  | free c =>
    by_cases hc : c = b
    · exact hc ▸ Nat.le_refl _
    · simp [usage, hc] at h
  | lam body ih => exact Nat.le_succ_of_le (ih h _)
  | pi name A B ihA ihB =>
    simp only [weightIn]
    by_cases hA : A.usage b = 0
    · have := ihB (by simpa [usage, hA] using h) (push 0 ε)
      omega
    · have := ihA hA ε
      omega
  | app f a ihf iha =>
    simp only [weightIn]
    by_cases hf : f.usage b = 0
    · have := iha (by simpa [usage, hf] using h) ε
      omega
    · have := ihf hf ε
      omega
  | letIn name A v body ihA ihv ihb =>
    simp only [weightIn]
    by_cases hA : A.usage b = 0
    · by_cases hv : v.usage b = 0
      · have := ihb (by simpa [usage, hA, hv] using h) (push (v.weightIn ω ε + 1) ε)
        omega
      · have := ihv hv ε
        omega
    · have := ihA hA ε
      omega
  | bound | bool | boolType | type => exact absurd rfl h

theorem over_ne_of_weight_lt {ω : Binding → Nat} {b : Binding} {t : Term} (h : t.weight ω < ω b) :
    t.Over (· ≠ b) := by
  rw [← usage_eq_zero_iff]
  by_contra hb
  exact absurd (le_weightIn ω hb _) (Nat.not_le.2 h)

theorem weightIn_replaceAt (ω : Binding → Nat) {s : Term} (hs : s.LocallyClosed) (t : Term)
    (k : Nat) (ε : Nat → Nat) :
    (replaceAt s k t).weightIn ω ε = t.weightIn ω (Function.update ε k (s.weight ω)) := by
  induction t generalizing k ε with
  | bound i =>
    by_cases hi : i = k
    · subst hi
      obtain ⟨n, hn⟩ := exists_below s
      rw [replaceAt, if_pos rfl, weightIn, Function.update_self]
      exact weightIn_congr (fun _ _ => rfl) hn hs fun i hi => absurd hi (Nat.not_lt_zero i)
    · rw [replaceAt, if_neg hi, weightIn, weightIn, Function.update_of_ne hi]
  | lam body ih => simp only [replaceAt, weightIn, ih, push_update]
  | pi _ A B ihA ihB => simp only [replaceAt, weightIn, ihA, ihB, push_update]
  | app f a ihf iha => simp only [replaceAt, weightIn, ihf, iha]
  | letIn _ A v body ihA ihv ihb => simp only [replaceAt, weightIn, ihA, ihv, ihb, push_update]
  | free | bool | boolType | type => rfl

theorem weightIn_closeAt (ω : Binding → Nat) (b : Binding) {t : Term} {k : Nat} (h : t.ClosedAt k)
    (ε : Nat → Nat) (w : Nat) :
    (closeAt b k t).weightIn ω (Function.update ε k w) =
      t.weightIn (Function.update ω b w) ε := by
  induction t generalizing k ε with
  | bound i => exact Function.update_of_ne (Nat.ne_of_lt h) w ε
  | free c =>
    by_cases hc : c = b
    · subst hc
      rw [closeAt, if_pos rfl, weightIn, weightIn, Function.update_self, Function.update_self]
    · rw [closeAt, if_neg hc, weightIn, weightIn, Function.update_of_ne hc]
  | lam body ih => simp only [closeAt, weightIn, push_update, ih h]
  | pi _ A B ihA ihB => simp only [closeAt, weightIn, push_update, ihA h.1, ihB h.2]
  | app f a ihf iha => simp only [closeAt, weightIn, ihf h.1, iha h.2]
  | letIn _ A v body ihA ihv ihb =>
    simp only [closeAt, weightIn, push_update, ihA h.1, ihv h.2.1, ihb h.2.2]
  | bool | boolType | type => rfl

theorem weight_instantiate (ω : Binding → Nat) (body : Term) {s : Term} (hs : s.LocallyClosed) :
    (body.instantiate s).weight ω = body.weightUnder ω (s.weight ω) := by
  rw [weightUnder, push_eq_update]
  exact weightIn_replaceAt ω hs body 0 _

/-- A binder is opened with a variable of the weight that the binder gives to its index. -/
theorem weight_openWith (ω : Binding → Nat) {body : Term} {b : Binding} (hc : body.ClosedAt 1)
    (hb : body.Over (· ≠ b)) (w : Nat) :
    (body.openWith b).weight (Function.update ω b w) = body.weightUnder ω w := by
  have hw : (free b).weight (Function.update ω b w) = w := Function.update_self ..
  refine (weight_instantiate _ body (locallyClosed_free b)).trans ?_
  rw [hw]
  exact weightIn_congr (fun _ hc => Function.update_of_ne hc w ω) hb hc fun _ _ => rfl

theorem weightUnder_close (ω : Binding → Nat) (b : Binding) {body : Term}
    (hbody : body.LocallyClosed) (w : Nat) :
    (body.close b).weightUnder ω w = body.weight (Function.update ω b w) := by
  rw [weightUnder, push_eq_update]
  exact weightIn_closeAt ω b hbody _ _

/-- A `let`, kept or dropped, weighs no more than its parts do, with a variable that weighs more
than the value. -/
theorem weight_makeLet_le {ω : Binding → Nat} (b : Binding) (ty : Term) {value body : Term}
    {w : Nat} (hvalue : value.weight ω ≤ w) (hbody : body.LocallyClosed) :
    (makeLet b ty value body).weight ω ≤
      ty.weight ω + w + body.weight (Function.update ω b (w + 1)) + 1 := by
  rcases makeLet_cases b ty value body with ⟨hfresh, h⟩ | h
  · rw [h, weight_update ⟨hbody, hfresh⟩]
    omega
  · have hmono := weight_update_le (ω := ω) hbody b (Nat.add_le_add_right hvalue 1)
    rw [h, weight_letIn, weightUnder_close ω b hbody]
    omega

end Term

/-! ## Acyclic definitions -/

namespace Definitions

/-- The value of `b` mentions `c`. -/
def Mentions (definitions : Definitions) (b c : Binding) : Prop :=
  ∃ d, definitions.lookup b = some d ∧ d.value.usage c ≠ 0

/-- No definition leads back to itself. -/
def Acyclic (definitions : Definitions) : Prop :=
  ∀ b, ¬ Relation.TransGen definitions.Mentions b b

theorem acyclic_of_lt {definitions : Definitions} (rank : Binding → Nat)
    (h : ∀ b c, definitions.Mentions b c → rank c < rank b) : definitions.Acyclic := by
  have hlt : ∀ {b c}, Relation.TransGen definitions.Mentions b c → rank c < rank b := by
    intro b c hbc
    induction hbc with
    | single hbc => exact h _ _ hbc
    | tail _ hcd ih => exact Nat.lt_trans (h _ _ hcd) ih
  exact fun b hb => Nat.lt_irrefl _ (hlt hb)

namespace Acyclic

variable {definitions : Definitions}

/-- From a variable to what its value mentions one comes to an end. There are finitely many
definitions, so it is enough that the way never returns. -/
theorem wellFounded (h : definitions.Acyclic) :
    WellFounded fun c b => definitions.Mentions b c := by
  have hstrict : IsStrictOrder Binding fun c b => Relation.TransGen definitions.Mentions b c :=
    { irrefl := h, trans := fun _ _ _ hab hbc => hbc.trans hab }
  have hwf := Set.wellFoundedOn_iff.1
    (definitions.keys.finite_toSet.wellFoundedOn (r := fun c b =>
      Relation.TransGen definitions.Mentions b c))
  have hkeys : ∀ {b d}, definitions.lookup b = some d → b ∈ definitions.keys :=
    fun hd => Scope.mem_keys.2 (by rw [hd]; rfl)
  refine ⟨fun b => hwf.induction b fun b ih => ⟨b, fun c hc => ?_⟩⟩
  cases hl : definitions.lookup c with
  | none =>
    refine ⟨c, fun e he => ?_⟩
    obtain ⟨d, hd, -⟩ := he
    rw [hl] at hd
    cases hd
  | some d =>
    obtain ⟨e, he, -⟩ := id hc
    exact ih c ⟨.single hc, hkeys hl, hkeys he⟩

/-- **Acyclic definitions have weights.** Variables can be given weights such that each weighs more
than its value. -/
theorem exists_weights (h : definitions.Acyclic)
    (hclosed : ∀ b d, definitions.lookup b = some d → d.value.LocallyClosed) :
    ∃ ω : Binding → Nat, ∀ b d, definitions.lookup b = some d → d.value.weight ω < ω b := by
  classical
  let ω : Binding → Nat := h.wellFounded.fix fun b smaller =>
    (definitions.lookup b).elim 0 fun d => d.value.weight (fun c =>
      if hc : definitions.Mentions b c then smaller c hc else 0) + 1
  refine ⟨ω, fun b d hd => ?_⟩
  have hω : ω b = d.value.weight (fun c => if definitions.Mentions b c then ω c else 0) + 1 := by
    refine (h.wellFounded.fix_eq _ b).trans ?_
    rw [hd]
    rfl
  rw [hω, Nat.lt_succ_iff]
  exact Term.weightIn_mono (fun c hc => (if_pos ⟨d, hd, hc⟩).ge) d.value.over_usage (hclosed b d hd)
    fun _ _ => Nat.le_refl _

end Acyclic

end Definitions

/-! ## Normalisation -/

namespace Store

/-- Definitions are of minted variables, their values are first-order, and a variable weighs more
than its value. -/
structure Weighs (ω : Binding → Nat) (s : Store) : Prop where
  wellScoped : s.WellScoped
  firstOrder : ∀ b d, s.definitions.lookup b = some d → d.value.FirstOrder
  weighs : ∀ b d, s.definitions.lookup b = some d → d.value.weight ω < ω b

namespace Weighs

variable {ω : Binding → Nat} {s s' : Store} {t : Term}

theorem of_lookup (h : s.Weighs ω) (hs : s.supply.next ≤ s'.supply.next)
    (hl : ∀ b, s'.definitions.lookup b = s.definitions.lookup b) : s'.Weighs ω where
  wellScoped := h.wellScoped.of_lookup hs hl
  firstOrder b d hd := h.firstOrder b d (hl b ▸ hd)
  weighs b d hd := h.weighs b d (hl b ▸ hd)

theorem derive (h : s.Weighs ω) : s.derive.Weighs ω := h.of_lookup (Nat.le_refl _) s.lookup_derive

theorem of_eq (h : s.Weighs ω) {ω' : Binding → Nat} (hω : ∀ b, b.id < s.supply.next → ω' b = ω b) :
    s.Weighs ω' := by
  refine ⟨h.wellScoped, h.firstOrder, fun b d hd => ?_⟩
  rw [hω b (h.wellScoped.keys b d hd),
    Term.weight_congr ⟨h.wellScoped.closed b d hd, h.wellScoped.below b d hd⟩ hω]
  exact h.weighs b d hd

theorem update (h : s.Weighs ω) (name : String) (w : Nat) :
    s.Weighs (Function.update ω (s.supply.mint name).1 w) :=
  h.of_eq fun b hb => Function.update_of_ne (by rintro rfl; exact Nat.lt_irrefl _ hb) w ω

theorem set (h : s.Weighs ω) (hs : s'.WellScoped) {b : Binding}
    (hself : ∀ d, s'.definitions.lookup b = some d → d.value.FirstOrder ∧ d.value.weight ω < ω b)
    (hother : ∀ c, c ≠ b → s'.definitions.lookup c = s.definitions.lookup c) : s'.Weighs ω := by
  have hall : ∀ c d, s'.definitions.lookup c = some d →
      d.value.FirstOrder ∧ d.value.weight ω < ω c := by
    intro c d hd
    by_cases hc : c = b
    · subst hc
      exact hself d hd
    · rw [hother c hc] at hd
      exact ⟨h.firstOrder c d hd, h.weighs c d hd⟩
  exact ⟨hs, fun c d hd => (hall c d hd).1, fun c d hd => (hall c d hd).2⟩

/-- A `let` is entered, whose variable weighs one more than its value. -/
theorem enter (h : s.Weighs ω) (name : String) {v : Term} (ty : Term) (hv : v.FirstOrder)
    (hvs : v.Within fun b => b.id < s.supply.next) :
    (s.enter name ⟨v, ty⟩).Weighs
      (Function.update ω (s.supply.mint name).1 (v.weight ω + 1)) := by
  have hvb : v.Within (· ≠ (s.supply.mint name).1) :=
    ⟨hvs.closed, Term.Below.ne hvs.vars (Nat.le_refl _)⟩
  refine (h.update name (v.weight ω + 1)).set (h.wellScoped.enter name ty hvs) (fun d hd => ?_)
    fun c hc => lookup_enter_of_ne s hc
  rw [h.wellScoped.lookup_enter_self] at hd
  cases hd
  rw [Function.update_self, Term.weight_update hvb]
  exact ⟨hv, Nat.lt_succ_self _⟩

theorem enter_body (h : s.Weighs ω) (name : String) {v body : Term} (ty : Term) (hv : v.FirstOrder)
    (hvs : v.Within fun b => b.id < s.supply.next) (hc : body.ClosedAt 1)
    (hb : body.Below s.supply.next) :
    (s.enter name ⟨v, ty⟩).Weighs
        (Function.update ω (s.supply.mint name).1 (v.weight ω + 1)) ∧
      (body.openWith (s.supply.mint name).1).Within
        (fun b => b.id < (s.enter name ⟨v, ty⟩).supply.next) ∧
      (body.openWith (s.supply.mint name).1).weight
        (Function.update ω (s.supply.mint name).1 (v.weight ω + 1)) =
          body.weightUnder ω (v.weight ω + 1) :=
  ⟨h.enter name ty hv hvs,
    ⟨hc.openWith _, (Term.Below.mono hb (Nat.le_succ _)).openWith (Nat.lt_succ_self _)⟩,
    Term.weight_openWith ω hc (hb.ne (Nat.le_refl _)) _⟩

/-- What is known of the value of a `let` that was entered. A value that weighs less than its
variable does not mention it, so it weighs the same without the variable. -/
theorem value_le {b : Binding} {w : Nat} (h : s.Weighs (Function.update ω b (w + 1)))
    {d : Definition} (hd : s.definitions.lookup b = some d) :
    d.value.FirstOrder ∧ d.value.weight ω ≤ w := by
  have hlt := h.weighs b d hd
  have hb := Term.over_ne_of_weight_lt hlt
  rw [Function.update_self, Term.weight_update ⟨h.wellScoped.closed b d hd, hb⟩] at hlt
  exact ⟨h.firstOrder b d hd, Nat.le_of_lt_succ hlt⟩

theorem remember (h : s.Weighs ω) {b : Binding} {value : Term}
    (hs : (s.remember b value).WellScoped) (hf : value.FirstOrder) (hw : value.weight ω < ω b) :
    (s.remember b value).Weighs ω := by
  refine h.set hs (fun d hd => ?_) fun c hc => lookup_remember_of_ne s value hc
  rw [lookup_remember_self] at hd
  obtain ⟨e, -, rfl⟩ := Option.map_eq_some_iff.1 hd
  exact ⟨hf, hw⟩

/-- **First-order terms normalise.** The induction is on the weight. A variable weighs more than its
value, and a `let` more than its type, its value and its opened body. The value of the `let` may
have been normalised on the way, and is lighter than the variable still. -/
theorem normalizes (h : s.Weighs ω) (ht : t.FirstOrder)
    (hts : t.Within fun b => b.id < s.supply.next) :
    ∃ u s', Normalizes t s u s' ∧ s'.Weighs ω ∧ u.FirstOrder ∧ u.weight ω ≤ t.weight ω := by
  induction hn : t.weight ω using Nat.strong_induction_on generalizing ω s t with
  | _ n ih =>
  cases t with
  | bound i => exact absurd hts.closed (Nat.not_lt_zero i)
  | lam | app => exact ht.elim
  | pi | bool | boolType | type =>
    exact ⟨_, s, .layer (.stable (by simp) (by simp) rfl), h, ht, hn.le⟩
  | free b =>
    cases hl : s.definitions.lookup b with
    | none => exact ⟨_, s, .layer (.undefined hl), h, trivial, hn.le⟩
    | some d =>
      have hlt : d.value.weight ω < ω b := h.weighs b d hl
      have hb : ω b = n := hn
      obtain ⟨u, s₁, hu, h₁, hf, hle⟩ := ih _ (by omega) h (h.firstOrder b d hl)
        ⟨h.wellScoped.closed b d hl, h.wellScoped.below b d hl⟩ rfl
      have hdefined := Normalizes.layer (.defined hl hu)
      exact ⟨u, _, hdefined, h₁.remember (h.wellScoped.of_normalizes hdefined) hf (by omega), hf,
        by omega⟩
  | letIn name ty v body =>
    rw [Term.weight_letIn] at hn
    obtain ⟨ty', s₁, hty, h₁, htyf, htyle⟩ := ih _ (by omega) h ht.1
      ⟨hts.closed.1, hts.vars.1⟩ rfl
    have hle₁ := hty.ages.supply
    have hvs : v.Within fun b => b.id < s₁.supply.next :=
      ⟨hts.closed.2.1, Term.Below.mono hts.vars.2.1 hle₁⟩
    obtain ⟨v', s₂, hv, h₂, hvf, hvle⟩ := ih _ (by omega) h₁ ht.2.1 hvs rfl
    have hle₂ := Nat.le_trans hle₁ hv.ages.supply
    have hvs' := h₁.wellScoped.minted_of_normalizes hv hvs
    have hbody : body.Below s₂.supply.next := Term.Below.mono hts.vars.2.2 hle₂
    obtain ⟨h₃, hopens, hopen⟩ := h₂.derive.enter_body name ty' hvf hvs' hts.closed.2.2 hbody
    have hunder := Term.weightUnder_le ω hts.closed.2.2 (Nat.add_le_add_right hvle 1)
    obtain ⟨body', s₃, hb, h₄, hbf, hble⟩ := ih _ (by omega) h₃ (ht.2.2.openWith _) hopens rfl
    have hbs := h₃.wellScoped.minted_of_normalizes hb hopens
    obtain ⟨d, hd⟩ := hb.exists_let_value
    obtain ⟨hdf, hdle⟩ := h₄.value_le hd
    have hmake := Term.weight_makeLet_le (s₂.supply.mint name).1 ty' hdle hbs.closed
    refine ⟨_, _, .layer (.letIn hty hv rfl hb), h₂.of_lookup ?_ fun _ => rfl, ?_, ?_⟩
    · exact Nat.le_trans (Nat.le_succ _) hb.ages.supply
    · rw [hd]
      exact .makeLet htyf hdf hbf _
    · rw [hd]
      have hbody' : body'.weight (Function.update ω (s₂.supply.mint name).1 (v'.weight ω + 1)) ≤
          body.weightUnder ω (v.weight ω + 1) := hble.trans (hopen.le.trans hunder)
      exact hmake.trans (by omega)

/-- **Peeling first-order terms ends.** The variables of the `let`s get weights, and what is behind
the `let`s is no heavier than the term. -/
theorem peels (h : s.Weighs ω) (ht : t.FirstOrder)
    (hts : t.Within fun b => b.id < s.supply.next) :
    ∃ peeled u s' ω', Peels t s peeled u s' ∧ s'.Weighs ω' ∧
      (∀ b, b.id < s.supply.next → ω' b = ω b) ∧ u.FirstOrder ∧ u.weight ω' ≤ t.weight ω := by
  induction hn : t.weight ω using Nat.strong_induction_on generalizing ω s t with
  | _ n ih =>
  obtain ⟨u, s₁, hu, h₁, hf, hle⟩ := h.normalizes ht hts
  have hus := h.wellScoped.minted_of_normalizes hu hts
  cases hlet : u.isLet with
  | false => exact ⟨[], u, s₁, ω, .head hu hlet, h₁, fun _ _ => rfl, hf, by omega⟩
  | true =>
    cases u with
    | letIn name ty v body =>
      have hvs : v.Within fun b => b.id < s₁.supply.next := ⟨hus.closed.2.1, hus.vars.2.1⟩
      obtain ⟨h₂, hopens, hopen⟩ :=
        h₁.enter_body name ty hf.2.1 hvs hus.closed.2.2 hus.vars.2.2
      rw [Term.weight_letIn] at hle
      obtain ⟨peeled, u', s', ω', hpeel, h', hω, hf', hle'⟩ :=
        ih _ (by omega) h₂ (hf.2.2.openWith _) hopens rfl
      refine ⟨_, u', s', ω', .peel hu rfl hpeel, h', fun c hc => ?_, hf', by omega⟩
      have hc₁ : c.id < s₁.supply.next := Nat.lt_of_lt_of_le hc hu.ages.supply
      rw [hω c (Nat.lt_succ_of_lt hc₁)]
      exact Function.update_of_ne (by rintro rfl; exact Nat.lt_irrefl _ hc₁) _ ω
    | _ => cases hlet

end Weighs

end Store

end DepLang
