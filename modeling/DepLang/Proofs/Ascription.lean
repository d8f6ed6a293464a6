import DepLang.Proofs.Heads

/-!
# Lets that are not functions

Normalisation keeps a `let` around the normal form of its body. If the `let` stands in the place of
a function, its application is left as it is, even if the body is a function: the head of the
application stays hidden. This does not happen to a term in which every `let`

* stands where nothing is applied or substituted: around the whole term, in the body of a function
  or of a `let` that stands so, in a part of a function type, or in the type of a `let`;
* or has the type `boolType` or `type`, so it is not a function and never becomes one.

A term does not show the types of its `let`s. They are ascribed: `let it : A := t in it` is `t`
again, but has the type `A` only. `Ascribes outer t u` says that `u` is `t` with base types ascribed
to parts of it, among them all `let`s outside of the places above; `outer` says that `t` itself
stands in such a place. A term is tame, `Tame Γ outer t T`, if it is typed with such ascriptions.

Tameness has the rules of typing: one that takes a term apart for each form, and those that put
terms together. Each comes from the rule of typing for the term with its ascriptions, which is
convertible with the term (`Ascribes.convertible`) and gives it its type (`Typed.of_ascribes`). So
typed terms keep their tameness when they are reduced (`Tame.reduces`).
-/
namespace DepLang

/-- A type that no function has, whatever its variables stand for. -/
def Term.IsBase : Term → Prop
  | boolType | type => True
  | bound _ | free _ | lam _ | pi _ _ _ | app _ _ | bool _ | letIn _ _ _ _ => False

/-- The term on the right is the one on the left with base types ascribed to some of its parts. -/
inductive Ascribes : Bool → Term → Term → Prop where
  | bound {outer : Bool} (i : Nat) : Ascribes outer (.bound i) (.bound i)
  | free {outer : Bool} (b : Binding) : Ascribes outer (.free b) (.free b)
  | bool {outer : Bool} (value : Bool) : Ascribes outer (.bool value) (.bool value)
  | boolType {outer : Bool} : Ascribes outer .boolType .boolType
  | type {outer : Bool} : Ascribes outer .type .type
  | lam {outer : Bool} {t u : Term} : Ascribes outer t u → Ascribes outer (.lam t) (.lam u)
  | pi {outer : Bool} {name : String} {A A' B B' : Term} : Ascribes true A A' →
      Ascribes true B B' → Ascribes outer (.pi name A B) (.pi name A' B')
  | app {outer : Bool} {f f' a a' : Term} : Ascribes false f f' → Ascribes false a a' →
      Ascribes outer (.app f a) (.app f' a')
  | letIn {name : String} {A A' v v' t u : Term} : Ascribes true A A' → Ascribes false v v' →
      Ascribes true t u → Ascribes true (.letIn name A v t) (.letIn name A' v' u)
  | base {outer : Bool} {A t u : Term} : A.IsBase → Ascribes true t u →
      Ascribes outer t (.letIn "it" A u (.bound 0))

namespace Term.IsBase

variable {A : Term}

theorem replaceAt_eq (h : A.IsBase) (s : Term) (k : Nat) : Term.replaceAt s k A = A := by
  cases A with
  | boolType | type => rfl
  | _ => exact h.elim

theorem closeAt_eq (h : A.IsBase) (b : Binding) (k : Nat) : Term.closeAt b k A = A := by
  cases A with
  | boolType | type => rfl
  | _ => exact h.elim

theorem closedAt (h : A.IsBase) (k : Nat) : A.ClosedAt k := by
  cases A with
  | boolType | type => trivial
  | _ => exact h.elim

theorem vars_over (h : A.IsBase) (P : Binding → Prop) : A.Over P := by
  cases A with
  | boolType | type => trivial
  | _ => exact h.elim

theorem typed (h : A.IsBase) (Γ : Environment) : Typed Γ A .type := by
  cases A with
  | boolType => exact .boolType
  | type => exact .type
  | _ => exact h.elim

theorem not_pi (h : A.IsBase) {Γ : Environment} (hΓ : Γ.WellTyped) {name : String} {B C : Term} :
    ¬ Convertible Γ.values A (.pi name B C) := by
  obtain ⟨m, hm⟩ := hΓ.below
  intro hc
  cases A with
  | boolType | type => exact absurd (hc.head_eq hm rfl rfl) (by simp)
  | _ => exact h.elim

end Term.IsBase

namespace Ascribes

variable {outer : Bool} {t u s s' : Term}

theorem weaken (h : Ascribes false t u) : Ascribes outer t u := by
  generalize hplace : false = place at h
  induction h with
  | bound => exact .bound _
  | free => exact .free _
  | bool => exact .bool _
  | boolType => exact .boolType
  | type => exact .type
  | lam _ ih => exact .lam (ih hplace)
  | pi hA hB => exact .pi hA hB
  | app hf ha => exact .app hf ha
  | letIn => cases hplace
  | base hA h => exact .base hA h

theorem replaceAt (h : Ascribes outer t u) (hs : Ascribes false s s') (k : Nat) :
    Ascribes outer (Term.replaceAt s k t) (Term.replaceAt s' k u) := by
  induction h generalizing k with
  | bound i =>
    rw [Term.replaceAt, Term.replaceAt]
    split
    · exact hs.weaken
    · exact .bound i
  | free => exact .free _
  | bool => exact .bool _
  | boolType => exact .boolType
  | type => exact .type
  | lam _ ih => exact .lam (ih _)
  | pi _ _ ihA ihB => exact .pi (ihA _) (ihB _)
  | app _ _ ihf iha => exact .app (ihf _) (iha _)
  | letIn _ _ _ ihA ihv iht => exact .letIn (ihA _) (ihv _) (iht _)
  | base hA _ ih =>
    rw [Term.replaceAt.eq_def s' k (.letIn ..)]
    dsimp only
    rw [hA.replaceAt_eq]
    exact .base hA (ih _)

theorem closeAt (h : Ascribes outer t u) (b : Binding) (k : Nat) :
    Ascribes outer (Term.closeAt b k t) (Term.closeAt b k u) := by
  induction h generalizing k with
  | free c =>
    rw [Term.closeAt]
    split
    · exact .bound k
    · exact .free c
  | bound => exact .bound _
  | bool => exact .bool _
  | boolType => exact .boolType
  | type => exact .type
  | lam _ ih => exact .lam (ih _)
  | pi _ _ ihA ihB => exact .pi (ihA _) (ihB _)
  | app _ _ ihf iha => exact .app (ihf _) (iha _)
  | letIn _ _ _ ihA ihv iht => exact .letIn (ihA _) (ihv _) (iht _)
  | base hA _ ih =>
    rw [Term.closeAt.eq_def b k (.letIn ..)]
    dsimp only
    rw [hA.closeAt_eq]
    exact .base hA (ih _)

theorem instantiate (h : Ascribes outer t u) (hs : Ascribes false s s') :
    Ascribes outer (t.instantiate s) (u.instantiate s') :=
  h.replaceAt hs 0

theorem openWith (h : Ascribes outer t u) (b : Binding) :
    Ascribes outer (t.openWith b) (u.openWith b) :=
  h.instantiate (.free b)

theorem vars_over_iff (h : Ascribes outer t u) (P : Binding → Prop) : u.Over P ↔ t.Over P := by
  induction h with
  | bound | free | bool | boolType | type => rfl
  | lam _ ih => exact ih
  | pi _ _ ihA ihB => exact and_congr ihA ihB
  | app _ _ ihf iha => exact and_congr ihf iha
  | letIn _ _ _ ihA ihv iht => exact and_congr ihA (and_congr ihv iht)
  | base hA _ ih => exact ⟨fun h => ih.1 h.2.1, fun h => ⟨hA.vars_over P, ih.2 h, trivial⟩⟩

theorem closedAt (h : Ascribes outer t u) {k : Nat} (ht : t.ClosedAt k) : u.ClosedAt k := by
  induction h generalizing k with
  | bound | free | bool | boolType | type => exact ht
  | lam _ ih => exact ih (k := k + 1) ht
  | pi _ _ ihA ihB => exact ⟨ihA ht.1, ihB ht.2⟩
  | app _ _ ihf iha => exact ⟨ihf ht.1, iha ht.2⟩
  | letIn _ _ _ ihA ihv iht => exact ⟨ihA ht.1, ihv ht.2.1, iht ht.2.2⟩
  | base hA _ ih => exact ⟨hA.closedAt k, ih ht, Nat.succ_pos k⟩

/-- Induction with the bodies of binders opened, at all variables. -/
@[elab_as_elim]
theorem openInduction {motive : ∀ outer t u, Ascribes outer t u → Prop}
    (same : ∀ outer t h, motive outer t t h)
    (lam : ∀ outer t u (h : Ascribes outer t u), (∀ b, motive _ _ _ (h.openWith b)) →
      motive _ _ _ (.lam h))
    (pi : ∀ outer name A A' B B' (hA : Ascribes true A A') (hB : Ascribes true B B'),
      motive _ _ _ hA → (∀ b, motive _ _ _ (hB.openWith b)) →
      motive outer (.pi name A B) (.pi name A' B') (.pi hA hB))
    (app : ∀ outer f f' a a' (hf : Ascribes false f f') (ha : Ascribes false a a'),
      motive _ _ _ hf → motive _ _ _ ha → motive outer _ _ (.app hf ha))
    (letIn : ∀ name A A' v v' t u (hA : Ascribes true A A') (hv : Ascribes false v v')
      (h : Ascribes true t u), motive _ _ _ hA → motive _ _ _ hv →
      (∀ b, motive _ _ _ (h.openWith b)) →
      motive _ (.letIn name A v t) (.letIn name A' v' u) (.letIn hA hv h))
    (base : ∀ outer (A : Term) t u (hA : A.IsBase) (h : Ascribes true t u), motive _ _ _ h →
      motive outer _ _ (.base hA h))
    (h : Ascribes outer t u) : motive outer t u h := by
  induction hn : u.size using Nat.strongRecOn generalizing outer t u with
  | ind n ih =>
    subst hn
    have part : ∀ {outer t t'} (h : Ascribes outer t t'), t'.size < u.size → motive _ _ _ h :=
      fun h hlt => ih _ hlt h rfl
    have body : ∀ {outer t t'} (h : Ascribes outer t t'), t'.size < u.size →
        ∀ b, motive _ _ _ (h.openWith b) :=
      fun h hlt b => ih _ (by rwa [Term.size_openWith]) (h.openWith b) rfl
    cases h with
    | bound | free | bool | boolType | type => exact same _ _ _
    | lam h => exact lam _ _ _ h (body h (by simp only [Term.size]; omega))
    | pi hA hB =>
      exact pi _ _ _ _ _ _ hA hB (part hA (by simp only [Term.size]; omega))
        (body hB (by simp only [Term.size]; omega))
    | app hf ha =>
      exact app _ _ _ _ _ hf ha (part hf (by simp only [Term.size]; omega))
        (part ha (by simp only [Term.size]; omega))
    | letIn hA hv h =>
      exact letIn _ _ _ _ _ _ _ hA hv h (part hA (by simp only [Term.size]; omega))
        (part hv (by simp only [Term.size]; omega)) (body h (by simp only [Term.size]; omega))
    | base hA h => exact base _ _ _ _ hA h (part h (by simp only [Term.size]; omega))

theorem convertible (h : Ascribes outer t u) (E : Values) (ht : t.LocallyClosed) :
    Convertible E u t := by
  induction h using openInduction with
  | same => exact .refl ht
  | lam _ _ _ _ ih => exact .lam 0 fun b _ => ih b (Term.ClosedAt.openWith ht b)
  | pi _ _ _ _ _ _ _ _ ihA ihB => exact .pi 0 (ihA ht.1) fun b _ => ihB b (ht.2.openWith b)
  | app _ _ _ _ _ _ _ ihf iha => exact .app (ihf ht.1) (iha ht.2)
  | letIn _ _ _ _ _ _ _ _ _ _ ihA ihv iht =>
    exact .letIn 0 (ihA ht.1) (ihv ht.2.1) fun b _ => iht b (ht.2.2.openWith b)
  | base _ _ _ _ hA h ih =>
    exact .trans (.zeta ⟨hA.closedAt 0, h.closedAt ht, Nat.succ_pos 0⟩) (ih ht)

theorem of_app {f a : Term} (h : Ascribes true (.app f a) u) : Ascribes false (.app f a) u := by
  cases h with
  | app hf ha => exact .app hf ha
  | base hA h => exact .base hA h

theorem of_head? {E : Values} {head : Head} (h : Ascribes true t u) (ht : t.head? E = some head) :
    Ascribes false t u := by
  cases h with
  | bound => exact .bound _
  | free => exact .free _
  | bool => exact .bool _
  | boolType => exact .boolType
  | type => exact .type
  | pi hA hB => exact .pi hA hB
  | app hf ha => exact .app hf ha
  | base hA h => exact .base hA h
  | lam | letIn => cases ht

end Ascribes

/-! ## Typing with ascriptions -/

namespace Typed

variable {Γ : Environment} {A t T : Term}

theorem ascribe (h : Typed Γ t A) (hΓ : Γ.WellTyped) : Typed Γ (.letIn "it" A t (.bound 0)) A := by
  have hA := h.regular hΓ
  have hlc := hA.locallyClosed.1
  have hlet : Typed Γ (.letIn "it" A t (.bound 0)) (A.instantiate t) := by
    refine .letIn 0 hA h fun b _ => ?_
    rw [Term.openWith, Term.openWith, hlc.instantiate_eq]
    exact .var (Environment.set_self Γ b ⟨A, some t⟩) hlc
  rwa [hlc.instantiate_eq] at hlet

theorem ascribe_inv (h : Typed Γ (.letIn "it" A t (.bound 0)) T) (hΓ : Γ.WellTyped) :
    Typed Γ t A ∧ Convertible Γ.values A T := by
  obtain ⟨hA, ht, -⟩ := h.letIn_inv
  obtain ⟨m, hm⟩ := hΓ.below
  obtain ⟨b, hb, hnew, -⟩ := hΓ.exists_new t m
  obtain ⟨e, he, hconv⟩ := (h.letIn_open hΓ hnew).var_inv
  rw [Environment.define, Environment.set_self] at he
  cases he
  rw [Environment.values_define] at hconv
  exact ⟨ht, hconv.forget (hm.fresh hb) ht.locallyClosed.1 (ht.over_ne hnew)
    (hA.over_ne hnew) ((h.regular hΓ).over_ne hnew)⟩

theorem of_ascribes {outer : Bool} {u : Term} (h : Typed Γ u T) (hΓ : Γ.WellTyped)
    (hu : Ascribes outer t u) : Typed Γ t T := by
  induction hu using Ascribes.openInduction generalizing Γ T with
  | same => exact h
  | lam _ t u _ ih =>
    obtain ⟨m, hm⟩ := hΓ.bounded
    obtain ⟨name, A, B, hA, ⟨k, hbody⟩, hpi⟩ := h.lam_inv
    have ht : ∀ b : Binding, max k m ≤ b.id →
        Typed (Γ.assume b A) (t.openWith b) (B.openWith b) := fun b hb =>
      ih b (hbody b (by omega)) (hΓ.set (hm b (by omega)) (Entry.wellTyped_assume hA))
    have hlam : Typed Γ (.lam t) (.pi name A B) := .lam _ hA ht
    exact hlam.conv (h.regular hΓ) hpi
  | pi _ name A A' B B' hA _ ihA ihB =>
    obtain ⟨m, hm⟩ := hΓ.bounded
    obtain ⟨hA', k, hB'⟩ := h.pi_inv
    have htA := ihA hA' hΓ
    have htB : ∀ b : Binding, max k m ≤ b.id → Typed (Γ.assume b A) (B.openWith b) .type := by
      intro b hb
      have hnew := hm b (by omega)
      have hopen := ihB b (hB' b (by omega)) (hΓ.set hnew (Entry.wellTyped_assume hA'))
      exact hopen.reassume hΓ hnew hA' (hA.convertible _ htA.locallyClosed.1)
    exact (Typed.pi _ htA htB).conv (h.regular hΓ) (h.formation_inv rfl)
  | app _ f f' a a' _ ha ihf iha =>
    obtain ⟨name, A, B, hf', ha', hB⟩ := h.app_inv
    have hta := iha ha' hΓ
    have haconv := (ha.convertible Γ.values hta.locallyClosed.1).symm
    exact (Typed.app (ihf hf' hΓ) hta).conv (h.regular hΓ)
      ((Convertible.instantiate_right hf'.locallyClosed.2.2 haconv).trans hB)
  | letIn name A A' v v' t u hA hv _ ihA ihv iht =>
    obtain ⟨m, hm⟩ := hΓ.bounded
    obtain ⟨hA', hv', B, ⟨k, hbody⟩, hB⟩ := h.letIn_inv
    have htA := ihA hA' hΓ
    have htv := ihv hv' hΓ
    have hAconv := hA.convertible Γ.values htA.locallyClosed.1
    have hvconv := hv.convertible Γ.values htv.locallyClosed.1
    have ht : ∀ b : Binding, max k m ≤ b.id →
        Typed (Γ.define b A v) (t.openWith b) (B.openWith b) := by
      intro b hb
      have hnew := hm b (by omega)
      have hopen := iht b (hbody b (by omega)) (hΓ.set hnew (Entry.wellTyped_define hA' hv'))
      exact hopen.redefine hΓ hnew hA' htA hAconv hvconv
    have hBlc : B.ClosedAt 1 := .of_openWith (ht ⟨max k m, ""⟩ (Nat.le_refl _)).locallyClosed.2
    exact (Typed.letIn _ htA (htv.conv htA hAconv) ht).conv (h.regular hΓ)
      ((Convertible.instantiate_right hBlc hvconv.symm).trans hB)
  | base _ _ _ _ _ _ ih =>
    obtain ⟨h', hconv⟩ := h.ascribe_inv hΓ
    exact (ih h' hΓ).conv (h.regular hΓ) hconv

end Typed

/-- The term has the type, and is typed with base types ascribed to the `let`s that do not stand in
outer places. -/
def Tame (Γ : Environment) (outer : Bool) (t T : Term) : Prop :=
  ∃ u, Ascribes outer t u ∧ Typed Γ u T

namespace Tame

variable {Γ Δ : Environment} {outer : Bool} {t T A v : Term} {b : Binding}

theorem typed (h : Tame Γ outer t T) (hΓ : Γ.WellTyped) : Typed Γ t T := by
  obtain ⟨u, hu, ht⟩ := h
  exact ht.of_ascribes hΓ hu

theorem weaken (h : Tame Γ false t T) : Tame Γ outer t T := by
  obtain ⟨u, hu, ht⟩ := h
  exact ⟨u, hu.weaken, ht⟩

theorem conv {T' : Term} (h : Tame Γ outer t T) (hT' : Typed Γ T' .type)
    (hc : Convertible Γ.values T T') : Tame Γ outer t T' := by
  obtain ⟨u, hu, ht⟩ := h
  exact ⟨u, hu, ht.conv hT' hc⟩

theorem mono (h : Tame Γ outer t T) (hle : Γ.Le Δ) : Tame Δ outer t T := by
  obtain ⟨u, hu, ht⟩ := h
  exact ⟨u, hu, ht.mono hle⟩

theorem of_head? {head : Head} (h : Tame Γ true t T) (ht : t.head? Γ.values = some head) :
    Tame Γ false t T := by
  obtain ⟨u, hu, hut⟩ := h
  exact ⟨u, hu.of_head? ht, hut⟩

theorem of_app {f a : Term} (h : Tame Γ true (.app f a) T) : Tame Γ false (.app f a) T := by
  obtain ⟨u, hu, ht⟩ := h
  exact ⟨u, hu.of_app, ht⟩

/-- A term of a base type may stand anywhere. -/
theorem at_place (h : Tame Γ true t T) (hΓ : Γ.WellTyped)
    (hplace : outer = true ∨ ∃ A : Term, A.IsBase ∧ Convertible Γ.values A T) :
    Tame Γ outer t T := by
  obtain rfl | ⟨A, hA, hc⟩ := hplace
  · exact h
  · obtain ⟨u, hu, ht⟩ := h
    have hT := ht.regular hΓ
    exact ⟨_, .base hA hu, ((ht.conv (hA.typed Γ) hc.symm).ascribe hΓ).conv hT hc⟩

/-! ## Taking terms apart -/

/-- How the term with ascriptions is made from those of the parts, if nothing is ascribed to the
term itself. -/
def Parts (outer : Bool) : Term → Term → Prop
  | .lam t, u => ∃ u', u = .lam u' ∧ Ascribes outer t u'
  | .pi name A B, u => ∃ A' B', u = .pi name A' B' ∧ Ascribes true A A' ∧ Ascribes true B B'
  | .app f a, u => ∃ f' a', u = .app f' a' ∧ Ascribes false f f' ∧ Ascribes false a a'
  | .letIn name A v t, u => outer = true ∧ ∃ A' v' u', u = .letIn name A' v' u' ∧
      Ascribes true A A' ∧ Ascribes false v v' ∧ Ascribes true t u'
  | t, u => u = t

/-- The ascriptions around a term can be removed. If that changes the place, the term is of a base
type. -/
theorem parts (h : Tame Γ outer t T) (hΓ : Γ.WellTyped) :
    ∃ place u, Parts place t u ∧ Typed Γ u T ∧
      (place = outer ∨ ∃ A, A.IsBase ∧ Convertible Γ.values A T) := by
  obtain ⟨u, hu, ht⟩ := h
  induction hu generalizing T with
  | bound | free | bool | boolType | type => exact ⟨_, _, rfl, ht, .inl rfl⟩
  | lam hu => exact ⟨_, _, ⟨_, rfl, hu⟩, ht, .inl rfl⟩
  | pi hA hB => exact ⟨_, _, ⟨_, _, rfl, hA, hB⟩, ht, .inl rfl⟩
  | app hf ha => exact ⟨_, _, ⟨_, _, rfl, hf, ha⟩, ht, .inl rfl⟩
  | letIn hA hv hb => exact ⟨_, _, ⟨rfl, _, _, _, rfl, hA, hv, hb⟩, ht, .inl rfl⟩
  | @base _ A _ _ hA _ ih =>
    obtain ⟨h', hconv⟩ := ht.ascribe_inv hΓ
    obtain ⟨place, u, hparts, hu, -⟩ := ih h'
    exact ⟨place, u, hparts, hu.conv (ht.regular hΓ) hconv, .inr ⟨A, hA, hconv⟩⟩

theorem pi_inv {name : String} {A B : Term} (h : Tame Γ outer (.pi name A B) T)
    (hΓ : Γ.WellTyped) :
    Tame Γ true A .type ∧ ∀ b, Γ b = none → Tame (Γ.assume b A) true (B.openWith b) .type := by
  have hlc := (h.typed hΓ).locallyClosed.1
  obtain ⟨_, _, ⟨A', B', rfl, hA, hB⟩, ht, -⟩ := h.parts hΓ
  obtain ⟨hA', n, hB'⟩ := ht.pi_inv
  refine ⟨⟨A', hA, hA'⟩, fun b hb => ⟨B'.openWith b, hB.openWith b, ?_⟩⟩
  have hopen : Typed (Γ.assume b A') (B'.openWith b) .type :=
    Typed.open_fresh (T := .type) hB' hΓ (Entry.wellTyped_assume hA') hb
  exact hopen.reassume hΓ hb hA' (hA.convertible _ hlc.1)

theorem codomain {name : String} {A B a : Term} (h : Tame Γ outer (.pi name A B) T)
    (hΓ : Γ.WellTyped) (ha : Tame Γ false a A) : Tame Γ true (B.instantiate a) .type := by
  have hlc := (h.typed hΓ).locallyClosed.1
  obtain ⟨_, _, ⟨A', B', rfl, hA, hB⟩, ht, -⟩ := h.parts hΓ
  obtain ⟨hA', n, hB'⟩ := ht.pi_inv
  obtain ⟨a', haa', ha'⟩ := ha.conv hA' (hA.convertible _ hlc.1).symm
  exact ⟨B'.instantiate a', hB.instantiate haa',
    Typed.instantiate (T := .type) hB' hΓ (Entry.wellTyped_assume hA') ha' fun v hv => by cases hv⟩

theorem lam_parts {name : String} {A B : Term} (h : Tame Γ outer (.lam t) (.pi name A B))
    (hΓ : Γ.WellTyped) : ∃ u, Ascribes outer t u ∧ Typed Γ (.lam u) (.pi name A B) := by
  obtain ⟨place, _, ⟨u, rfl, hu⟩, ht, rfl | ⟨C, hC, hconv⟩⟩ := h.parts hΓ
  · exact ⟨u, hu, ht⟩
  · exact absurd hconv (hC.not_pi hΓ)

theorem lam_open {name : String} {A B : Term} (h : Tame Γ outer (.lam t) (.pi name A B))
    (hΓ : Γ.WellTyped) (hb : Γ b = none) :
    Tame (Γ.assume b A) outer (t.openWith b) (B.openWith b) := by
  obtain ⟨u, hu, ht⟩ := h.lam_parts hΓ
  exact ⟨u.openWith b, hu.openWith b, ht.lam_open hΓ hb⟩

theorem app_inv {f a : Term} (h : Tame Γ outer (.app f a) T) (hΓ : Γ.WellTyped) :
    ∃ name A B, Tame Γ false f (.pi name A B) ∧ Tame Γ false a A ∧
      Convertible Γ.values (B.instantiate a) T := by
  have hlc := (h.typed hΓ).locallyClosed.1
  obtain ⟨_, _, ⟨f', a', rfl, hf, ha⟩, ht, -⟩ := h.parts hΓ
  obtain ⟨name, A, B, hf', ha', hconv⟩ := ht.app_inv
  refine ⟨name, A, B, ⟨f', hf, hf'⟩, ⟨a', ha, ha'⟩, .trans ?_ hconv⟩
  exact .instantiate_right hf'.locallyClosed.2.2 (ha.convertible _ hlc.2).symm

/-- A `let` that does not stand in an outer place is of a base type. -/
theorem letIn_inv {name : String} (h : Tame Γ outer (.letIn name A v t) T) (hΓ : Γ.WellTyped) :
    Tame Γ true A .type ∧ Tame Γ false v A ∧
      (∀ b, Γ b = none → Tame (Γ.define b A v) true (t.openWith b) T) ∧
      (outer = true ∨ ∃ C, C.IsBase ∧ Convertible Γ.values C T) := by
  have hlc := (h.typed hΓ).locallyClosed.1
  obtain ⟨htA, -⟩ := (h.typed hΓ).letIn_inv
  obtain ⟨place, _, ⟨rfl, A', v', u, rfl, hA, hv, hu⟩, ht, hplace⟩ := h.parts hΓ
  obtain ⟨hA', hv', -⟩ := ht.letIn_inv
  have hAA' := hA.convertible Γ.values hlc.1
  refine ⟨⟨A', hA, hA'⟩, ⟨v', hv, hv'.conv htA hAA'⟩, fun b hb => ?_, hplace.imp Eq.symm id⟩
  exact ⟨u.openWith b, hu.openWith b, (ht.letIn_open hΓ hb).redefine hΓ hb hA' htA hAA'
    (hv.convertible _ hlc.2.1)⟩

/-! ## Putting terms together -/

theorem app {name : String} {A B f a : Term} (hf : Tame Γ false f (.pi name A B))
    (ha : Tame Γ false a A) (hΓ : Γ.WellTyped) : Tame Γ outer (.app f a) (B.instantiate a) := by
  have happ := Typed.app (hf.typed hΓ) (ha.typed hΓ)
  obtain ⟨f', hff', hf'⟩ := hf
  obtain ⟨a', haa', ha'⟩ := ha
  refine ⟨.app f' a', .app hff' haa', (Typed.app hf' ha').conv (happ.regular hΓ) ?_⟩
  exact .instantiate_right hf'.locallyClosed.2.2 (haa'.convertible _ happ.locallyClosed.1.2)

theorem beta {name : String} {A B a : Term} (hf : Tame Γ false (.lam t) (.pi name A B))
    (ha : Tame Γ false a A) (hΓ : Γ.WellTyped) :
    Tame Γ false (t.instantiate a) (B.instantiate a) := by
  have hfa := Typed.app (hf.typed hΓ) (ha.typed hΓ)
  obtain ⟨u, hu, htu⟩ := hf.lam_parts hΓ
  obtain ⟨a', haa', ha'⟩ := ha
  refine ⟨u.instantiate a', hu.instantiate haa', ?_⟩
  refine ((Typed.app htu ha').beta hΓ).conv (hfa.regular hΓ) ?_
  exact .instantiate_right htu.locallyClosed.2.2 (haa'.convertible _ hfa.locallyClosed.1.2)

/-- A definition that is not used can be left out. -/
theorem strengthen (h : Tame (Γ.define b A v) outer t T) (hΓ : Γ.WellTyped) (hb : Γ b = none)
    (hv : Typed Γ v A) (ht : t.Over (· ≠ b)) (hT : T.Over (· ≠ b)) : Tame Γ outer t T := by
  obtain ⟨u, hu, hut⟩ := h
  have hsubst := hut.substOnly hΓ hb (Entry.wellTyped_define (hv.regular hΓ) hv) hv fun w hw => by
    cases hw
    exact .refl hv.locallyClosed.1
  rw [Term.substAll_only_of_fresh ((hu.vars_over_iff _).2 ht), Term.substAll_only_of_fresh hT]
    at hsubst
  exact ⟨u, hu, hsubst⟩

theorem letIn {name : String} (hA : Tame Γ true A .type) (hv : Tame Γ false v A)
    (hΓ : Γ.WellTyped) (hb : Γ b = none) (ht : t.Over (· ≠ b)) (hT : Typed Γ T .type)
    (h : Tame (Γ.define b A v) true (t.openWith b) T) : Tame Γ true (.letIn name A v t) T := by
  have htA := hA.typed hΓ
  have htv := hv.typed hΓ
  obtain ⟨A', hAA', hA'⟩ := hA
  obtain ⟨v', hvv', hv'⟩ := hv
  obtain ⟨u, hu, hut⟩ := h
  have hAconv := (hAA'.convertible Γ.values htA.locallyClosed.1).symm
  have hvconv := (hvv'.convertible Γ.values htv.locallyClosed.1).symm
  have hv'A' := hv'.conv hA' hAconv
  -- The variable is closed again, in the body and in its ascriptions.
  have hclose : Ascribes true ((t.openWith b).close b) (u.close b) := hu.closeAt b 0
  rw [Term.close_openWith ht] at hclose
  refine ⟨.letIn name A' v' (u.close b), .letIn hAA' hvv' hclose, ?_⟩
  obtain ⟨m, hm⟩ := hΓ.bounded
  have hut' := hut.redefine hΓ hb htA hA' hAconv hvconv
  have hlet : Typed Γ (.letIn name A' v' (u.close b)) ((T.close b).instantiate v') :=
    .letIn m hA' hv'A' fun c hc =>
      hut'.rename hΓ hb (Entry.wellTyped_define hA' hv'A') (hm c hc)
  have hTclose : T.close b = T := Term.closeAt_of_fresh (hT.over_ne hb) 0
  rwa [hTclose, hT.locallyClosed.1.instantiate_eq] at hlet

theorem makeLet (hA : Tame Γ true A .type) (hv : Tame Γ false v A) (hΓ : Γ.WellTyped)
    (hb : Γ b = none) (hT : Typed Γ T .type) (h : Tame (Γ.define b A v) true t T) :
    Tame Γ true (.makeLet b A v t) T := by
  have htv := hv.typed hΓ
  have hΓ' := hΓ.set hb (Entry.wellTyped_define (hA.typed hΓ) htv)
  rcases Term.makeLet_cases b A v t with ⟨hfresh, heq⟩ | heq
  · rw [heq]
    exact h.strengthen hΓ hb htv hfresh (hT.over_ne hb)
  · rw [heq]
    refine .letIn hA hv hΓ hb (t.close_over_ne b) hT ?_
    rwa [Term.openWith_close (h.typed hΓ').locallyClosed.1]

end Tame

/-! ## Reduction -/

/-- The type of the entry is tame, and its value may be put for the variable. -/
structure Entry.Tame (Γ : Environment) (e : Entry) : Prop where
  ty : DepLang.Tame Γ true e.ty .type
  value : ∀ v, e.value = some v → DepLang.Tame Γ false v e.ty

/-- Every entry is tame in the environment itself. -/
def Environment.Tame (Γ : Environment) : Prop := ∀ b e, Γ b = some e → e.Tame Γ

namespace Environment.Tame

variable {Γ : Environment}

theorem empty : Environment.empty.Tame := fun _ _ h => by cases h

theorem set (h : Γ.Tame) {b : Binding} (hb : Γ b = none) {e : Entry} (he : e.Tame Γ) :
    (Γ.set b e).Tame := by
  have hle := le_set hb e
  have mono : ∀ {d : Entry}, d.Tame Γ → d.Tame (Γ.set b e) :=
    fun hd => ⟨hd.ty.mono hle, fun v hv => (hd.value v hv).mono hle⟩
  intro c d hc
  by_cases hcb : c = b
  · subst hcb
    rw [set_self] at hc
    cases hc
    exact mono he
  · rw [set_of_ne _ _ hcb] at hc
    exact mono (h c d hc)

theorem define (h : Γ.Tame) {b : Binding} (hb : Γ b = none) {A v : Term}
    (hA : DepLang.Tame Γ true A .type) (hv : DepLang.Tame Γ false v A) : (Γ.define b A v).Tame :=
  h.set hb ⟨hA, fun _ hw => by cases hw; exact hv⟩

theorem assume (h : Γ.Tame) {b : Binding} (hb : Γ b = none) {A : Term}
    (hA : DepLang.Tame Γ true A .type) : (Γ.assume b A).Tame :=
  h.set hb ⟨hA, fun _ hw => by cases hw⟩

end Environment.Tame

/-- **Tame terms reduce to tame terms.** -/
theorem Tame.reduces {Γ : Environment} {outer : Bool} {t u T : Term} (h : Tame Γ outer t T)
    (hr : Reduces Γ.values t u) (hΓ : Γ.WellTyped) (hE : Γ.Tame) : Tame Γ outer u T := by
  generalize hvalues : Γ.values = E at hr
  induction hr generalizing Γ outer T with
  | refl => exact h
  | trans _ _ ih₁ ih₂ => exact ih₂ (ih₁ h hΓ hE hvalues) hΓ hE hvalues
  | delta hb _ =>
    subst hvalues
    obtain ⟨e, he, hv⟩ := Environment.values_eq_some.1 hb
    obtain ⟨e', he', hconv⟩ := (h.typed hΓ).var_inv
    cases he.symm.trans he'
    exact (((hE _ e he).value _ hv).conv ((h.typed hΓ).regular hΓ) hconv).weaken
  | beta =>
    subst hvalues
    obtain ⟨_, A, B, hf, ha, hconv⟩ := h.app_inv hΓ
    exact ((hf.beta ha hΓ).conv ((h.typed hΓ).regular hΓ) hconv).weaken
  | @app E f f' a a' _ ha ihf iha =>
    subst hvalues
    obtain ⟨m, hm⟩ := hΓ.below
    obtain ⟨_, A, B, htf, hta, hconv⟩ := h.app_inv hΓ
    have happ : Tame Γ outer (.app f' a') (B.instantiate a') :=
      .app (ihf htf hΓ hE rfl) (iha hta hΓ hE rfl) hΓ
    refine happ.conv ((h.typed hΓ).regular hΓ) (.trans ?_ hconv)
    exact (Convertible.instantiate_right (htf.typed hΓ).locallyClosed.2.2 (ha.convertible hm)).symm
  | @letIn E name A A' v v' t u n hA hv _ ihA ihv iht =>
    subst hvalues
    obtain ⟨m, hm⟩ := hΓ.below
    have hT := (h.typed hΓ).regular hΓ
    obtain ⟨htA, htv, ht, hplace⟩ := h.letIn_inv hΓ
    have hAA' := hA.convertible hm
    have hA' := ihA htA hΓ hE rfl
    have hv' := (ihv htv hΓ hE rfl).conv (hA'.typed hΓ) hAA'
    -- One variable that is new to the body is enough.
    obtain ⟨b, hb, hnew, hub⟩ := hΓ.exists_new u n
    have hΓ' := hΓ.set hnew (Entry.wellTyped_define (htA.typed hΓ) (htv.typed hΓ))
    obtain ⟨u', hu, hut⟩ := iht b hb (ht b hnew) hΓ' (hE.define hnew htA htv)
      (Environment.values_define Γ b A v)
    have hbody : Tame (Γ.define b A' v') true (u.openWith b) T :=
      ⟨u', hu, hut.redefine hΓ hnew (htA.typed hΓ) (hA'.typed hΓ) hAA' (hv.convertible hm)⟩
    have hlet : Tame Γ true (.letIn name A' v' u) T :=
      .letIn hA' hv' hΓ hnew hub hT hbody
    exact hlet.at_place hΓ hplace
  | @drop E name A v t hA hv ht =>
    subst hvalues
    obtain ⟨b, -, hnew, htb⟩ := hΓ.exists_new t 0
    have hT := (h.typed hΓ).regular hΓ
    obtain ⟨-, htv, hbody, hplace⟩ := h.letIn_inv hΓ
    have hbody := hbody b hnew
    rw [Term.openWith, ht.instantiate_eq] at hbody
    have hbody := hbody.strengthen hΓ hnew (htv.typed hΓ) htb (hT.over_ne hnew)
    exact hbody.at_place hΓ hplace

end DepLang
