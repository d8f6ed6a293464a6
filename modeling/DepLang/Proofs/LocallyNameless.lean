import DepLang.Term.Closed

/-!
# Laws of opening, closing and substituting

The proofs about terms need three facts again and again: what an operation does to dangling indices
(`ClosedAt`), what it does to free variables (`Over`), and how it commutes with the others. They are
stated here once, for an index at any depth, and then at the outermost binder.

* `Term.Over P`: every free variable satisfies `P`. A variable does not occur if all free variables
  differ from it (`usage_eq_zero_iff`), and every term is over the variables below some identity
  (`exists_below`), so a fresh variable can always be found.
* `Term.substAll`: puts a term for every free variable at once. Substituting for one variable,
  renaming and unfolding definitions are all instances of it, so a relation on terms needs one
  substitution lemma only.
* `close_openWith`, `openWith_close`, `instantiate_close`, `instantiate_eq_substAll`: opening and
  closing undo each other, and instantiating a binder is substituting for the variable it was
  opened with.
* `open_close_laws`: these laws together, with substitution for one variable (`Term.subst`).
-/
namespace DepLang.Term

/-- Every free variable of the term satisfies `P`. -/
def Over (P : Binding → Prop) : Term → Prop
  | free b => P b
  | lam body => Over P body
  | pi _ domain codomain => Over P domain ∧ Over P codomain
  | app function argument => Over P function ∧ Over P argument
  | letIn _ ty value body => Over P ty ∧ Over P value ∧ Over P body
  | bound _ | bool _ | boolType | type => True

/-- Every free variable has an identity below `n`. -/
def Below (n : Nat) (t : Term) : Prop := t.Over fun b => b.id < n

/-- Puts `σ b` for every free variable `b`. -/
def substAll (σ : Binding → Term) : Term → Term
  | bound i => bound i
  | free b => σ b
  | lam body => lam (substAll σ body)
  | pi name domain codomain => pi name (substAll σ domain) (substAll σ codomain)
  | app function argument => app (substAll σ function) (substAll σ argument)
  | bool value => bool value
  | boolType => boolType
  | type => type
  | letIn name ty value body => letIn name (substAll σ ty) (substAll σ value) (substAll σ body)

/-- Puts `s` for `b`, and leaves the other variables alone. -/
def only (b : Binding) (s : Term) : Binding → Term := fun c => if c = b then s else free c

@[simp] theorem only_self (b : Binding) (s : Term) : only b s b = s := if_pos rfl

theorem only_of_ne {b c : Binding} (s : Term) (h : c ≠ b) : only b s c = free c := if_neg h

attribute [local simp] Over substAll usage replaceAt closeAt ClosedAt

/-! ## Free variables -/

theorem Over.mono {P Q : Binding → Prop} {t : Term} (h : t.Over P) (hPQ : ∀ b, P b → Q b) :
    t.Over Q := by
  induction t with
  | bound | bool | boolType | type => trivial
  | free b => exact hPQ b h
  | lam body ih => exact ih h
  | pi _ _ _ ihd ihc => exact ⟨ihd h.1, ihc h.2⟩
  | app _ _ ihf iha => exact ⟨ihf h.1, iha h.2⟩
  | letIn _ _ _ _ iht ihv ihb => exact ⟨iht h.1, ihv h.2.1, ihb h.2.2⟩

theorem Over.and {P Q : Binding → Prop} {t : Term} (hP : t.Over P) (hQ : t.Over Q) :
    t.Over fun b => P b ∧ Q b := by
  induction t with
  | bound | bool | boolType | type => trivial
  | free b => exact ⟨hP, hQ⟩
  | lam body ih => exact ih hP hQ
  | pi _ _ _ ihd ihc => exact ⟨ihd hP.1 hQ.1, ihc hP.2 hQ.2⟩
  | app _ _ ihf iha => exact ⟨ihf hP.1 hQ.1, iha hP.2 hQ.2⟩
  | letIn _ _ _ _ iht ihv ihb =>
    exact ⟨iht hP.1 hQ.1, ihv hP.2.1 hQ.2.1, ihb hP.2.2 hQ.2.2⟩

theorem Below.mono {t : Term} {m n : Nat} (h : t.Below m) (hmn : m ≤ n) : t.Below n :=
  Over.mono h fun _ hb => Nat.lt_of_lt_of_le hb hmn

theorem exists_below (t : Term) : ∃ n, t.Below n := by
  induction t with
  | bound | bool | boolType | type => exact ⟨0, trivial⟩
  | free b => exact ⟨b.id + 1, Nat.lt_succ_self _⟩
  | lam body ih => exact ih
  | pi _ _ _ ihd ihc =>
    obtain ⟨m, hm⟩ := ihd; obtain ⟨n, hn⟩ := ihc
    exact ⟨max m n, hm.mono (Nat.le_max_left _ _), hn.mono (Nat.le_max_right _ _)⟩
  | app _ _ ihf iha =>
    obtain ⟨m, hm⟩ := ihf; obtain ⟨n, hn⟩ := iha
    exact ⟨max m n, hm.mono (Nat.le_max_left _ _), hn.mono (Nat.le_max_right _ _)⟩
  | letIn _ _ _ _ iht ihv ihb =>
    obtain ⟨l, hl⟩ := iht; obtain ⟨m, hm⟩ := ihv; obtain ⟨n, hn⟩ := ihb
    exact ⟨max l (max m n), hl.mono (by omega), hm.mono (by omega), hn.mono (by omega)⟩

theorem usage_eq_zero_iff {b : Binding} {t : Term} : t.usage b = 0 ↔ t.Over (· ≠ b) := by
  induction t with
  | bound | bool | boolType | type => simp
  | free c => by_cases h : c = b <;> simp [h]
  | lam body ih => simpa using ih
  | pi _ _ _ ihd ihc => simp [ihd, ihc]
  | app _ _ ihf iha => simp [ihf, iha]
  | letIn _ _ _ _ iht ihv ihb => simp [iht, ihv, ihb, and_assoc]

theorem over_usage (t : Term) : t.Over fun b => t.usage b ≠ 0 := by
  induction t with
  | free b => simp
  | lam body ih => exact ih
  | pi _ A B ihA ihB | app A B ihA ihB =>
    exact ⟨ihA.mono fun b hb => by simp [hb], ihB.mono fun b hb => by simp [hb]⟩
  | letIn _ A v body ihA ihv ihb =>
    exact ⟨ihA.mono fun b hb => by simp [hb], ihv.mono fun b hb => by simp [hb],
      ihb.mono fun b hb => by simp [hb]⟩
  | bound | bool | boolType | type => trivial

theorem Over.of_usage {P : Binding → Prop} {t : Term} (h : t.Over P) {b : Binding}
    (hb : t.usage b ≠ 0) : P b := by
  refine Classical.byContradiction fun hP => hb (usage_eq_zero_iff.2 (h.mono ?_))
  rintro c hc rfl
  exact hP hc

theorem Below.ne {n : Nat} {t : Term} (h : t.Below n) {b : Binding} (hb : n ≤ b.id) :
    t.Over (· ≠ b) :=
  Over.mono h fun c hc e => by subst e; omega

/-- There is a new variable for two terms, as high as one likes. -/
theorem exists_fresh (t u : Term) (n : Nat) :
    ∃ b : Binding, n ≤ b.id ∧ t.Over (· ≠ b) ∧ u.Over (· ≠ b) := by
  obtain ⟨i, hi⟩ := t.exists_below
  obtain ⟨j, hj⟩ := u.exists_below
  refine ⟨⟨max n (max i j), ""⟩, ?_, hi.ne ?_, hj.ne ?_⟩ <;> show _ ≤ max n (max i j) <;> omega

theorem Over.replaceAt {P : Binding → Prop} {s t : Term} (hs : s.Over P) (ht : t.Over P)
    (k : Nat) : (Term.replaceAt s k t).Over P := by
  induction t generalizing k with
  | bound i => unfold Term.replaceAt; split <;> trivial
  | free | bool | boolType | type => exact ht
  | lam body ih => exact ih ht _
  | pi _ _ _ ihd ihc => exact ⟨ihd ht.1 _, ihc ht.2 _⟩
  | app _ _ ihf iha => exact ⟨ihf ht.1 _, iha ht.2 _⟩
  | letIn _ _ _ _ iht ihv ihb => exact ⟨iht ht.1 _, ihv ht.2.1 _, ihb ht.2.2 _⟩

theorem Over.of_replaceAt {P : Binding → Prop} {s t : Term} {k : Nat}
    (h : (Term.replaceAt s k t).Over P) : t.Over P := by
  induction t generalizing k with
  | bound | bool | boolType | type => trivial
  | free b => exact h
  | lam body ih => exact ih h
  | pi _ _ _ ihd ihc => exact ⟨ihd h.1, ihc h.2⟩
  | app _ _ ihf iha => exact ⟨ihf h.1, iha h.2⟩
  | letIn _ _ _ _ iht ihv ihb => exact ⟨iht h.1, ihv h.2.1, ihb h.2.2⟩

theorem Over.closeAt {P : Binding → Prop} {b : Binding} {t : Term}
    (h : t.Over fun c => c = b ∨ P c) (k : Nat) : (Term.closeAt b k t).Over P := by
  induction t generalizing k with
  | bound | bool | boolType | type => trivial
  | free c =>
    unfold Term.closeAt
    split
    · trivial
    · rename_i hc
      rcases h with h | h
      · exact absurd h hc
      · exact h
  | lam body ih => exact ih h _
  | pi _ _ _ ihd ihc => exact ⟨ihd h.1 _, ihc h.2 _⟩
  | app _ _ ihf iha => exact ⟨ihf h.1 _, iha h.2 _⟩
  | letIn _ _ _ _ iht ihv ihb => exact ⟨iht h.1 _, ihv h.2.1 _, ihb h.2.2 _⟩

/-! ## Dangling indices -/

theorem ClosedAt.replaceAt_eq {t : Term} {k : Nat} (h : t.ClosedAt k) (s : Term) {i : Nat}
    (hi : k ≤ i) : replaceAt s i t = t := by
  induction t generalizing k i with
  | bound j =>
    have : j ≠ i := by have : j < k := h; omega
    simp [this]
  | free | bool | boolType | type => rfl
  | lam body ih => rw [replaceAt, ih h (by omega)]
  | pi _ _ _ ihd ihc => rw [replaceAt, ihd h.1 hi, ihc h.2 (by omega)]
  | app _ _ ihf iha => rw [replaceAt, ihf h.1 hi, iha h.2 hi]
  | letIn _ _ _ _ iht ihv ihb => rw [replaceAt, iht h.1 hi, ihv h.2.1 hi, ihb h.2.2 (by omega)]

theorem LocallyClosed.instantiate_eq {t : Term} (h : t.LocallyClosed) (s : Term) :
    t.instantiate s = t :=
  ClosedAt.replaceAt_eq h s (Nat.le_refl 0)

theorem ClosedAt.replaceAt {s t : Term} {k : Nat} (ht : t.ClosedAt (k + 1))
    (hs : s.LocallyClosed) : (Term.replaceAt s k t).ClosedAt k := by
  induction t generalizing k with
  | bound i =>
    unfold Term.replaceAt
    split
    · exact ClosedAt.mono hs (Nat.zero_le k)
    · have : i < k + 1 := ht
      show i < k
      omega
  | free | bool | boolType | type => trivial
  | lam body ih => exact ih ht
  | pi _ _ _ ihd ihc => exact ⟨ihd ht.1, ihc ht.2⟩
  | app _ _ ihf iha => exact ⟨ihf ht.1, iha ht.2⟩
  | letIn _ _ _ _ iht ihv ihb => exact ⟨iht ht.1, ihv ht.2.1, ihb ht.2.2⟩

theorem ClosedAt.of_replaceAt_free {t : Term} {b : Binding} {k : Nat}
    (h : (Term.replaceAt (free b) k t).ClosedAt k) : t.ClosedAt (k + 1) := by
  induction t generalizing k with
  | bound i =>
    show i < k + 1
    by_cases hi : i = k
    · omega
    · rw [Term.replaceAt, if_neg hi] at h
      have : i < k := h
      omega
  | free | bool | boolType | type => trivial
  | lam body ih => exact ih h
  | pi _ _ _ ihd ihc => exact ⟨ihd h.1, ihc h.2⟩
  | app _ _ ihf iha => exact ⟨ihf h.1, iha h.2⟩
  | letIn _ _ _ _ iht ihv ihb => exact ⟨iht h.1, ihv h.2.1, ihb h.2.2⟩

theorem ClosedAt.closeAt {t : Term} {k : Nat} (h : t.ClosedAt k) (b : Binding) :
    (Term.closeAt b k t).ClosedAt (k + 1) := by
  induction t generalizing k with
  | bound i => exact Nat.lt_succ_of_lt h
  | free c =>
    unfold Term.closeAt
    split
    · exact Nat.lt_succ_self k
    · trivial
  | bool | boolType | type => trivial
  | lam body ih => exact ih h
  | pi _ _ _ ihd ihc => exact ⟨ihd h.1, ihc h.2⟩
  | app _ _ ihf iha => exact ⟨ihf h.1, iha h.2⟩
  | letIn _ _ _ _ iht ihv ihb => exact ⟨iht h.1, ihv h.2.1, ihb h.2.2⟩

theorem ClosedAt.substAll {t : Term} {k : Nat} (ht : t.ClosedAt k) {σ : Binding → Term}
    (hσ : ∀ b, (σ b).LocallyClosed) : (t.substAll σ).ClosedAt k := by
  induction t generalizing k with
  | bound i => exact ht
  | free b => exact ClosedAt.mono (hσ b) (Nat.zero_le k)
  | bool | boolType | type => trivial
  | lam body ih => exact ih ht
  | pi _ _ _ ihd ihc => exact ⟨ihd ht.1, ihc ht.2⟩
  | app _ _ ihf iha => exact ⟨ihf ht.1, iha ht.2⟩
  | letIn _ _ _ _ iht ihv ihb => exact ⟨iht ht.1, ihv ht.2.1, ihb ht.2.2⟩

theorem locallyClosed_free (b : Binding) : (free b).LocallyClosed := trivial

theorem only_locallyClosed {b : Binding} {s : Term} (hs : s.LocallyClosed) (c : Binding) :
    (only b s c).LocallyClosed := by
  unfold only
  split
  · exact hs
  · trivial

/-! ## How the operations commute -/

theorem substAll_congr {P : Binding → Prop} {σ τ : Binding → Term} {t : Term} (ht : t.Over P)
    (h : ∀ b, P b → σ b = τ b) : t.substAll σ = t.substAll τ := by
  induction t with
  | bound | bool | boolType | type => rfl
  | free b => exact h b ht
  | lam body ih => rw [substAll, substAll, ih ht]
  | pi _ _ _ ihd ihc => rw [substAll, substAll, ihd ht.1, ihc ht.2]
  | app _ _ ihf iha => rw [substAll, substAll, ihf ht.1, iha ht.2]
  | letIn _ _ _ _ iht ihv ihb => rw [substAll, substAll, iht ht.1, ihv ht.2.1, ihb ht.2.2]

@[simp] theorem substAll_free (t : Term) : t.substAll free = t := by
  induction t with
  | bound | free | bool | boolType | type => rfl
  | _ => simp_all

theorem substAll_substAll (σ τ : Binding → Term) (t : Term) :
    (t.substAll τ).substAll σ = t.substAll fun b => (τ b).substAll σ := by
  induction t with
  | bound | free | bool | boolType | type => rfl
  | _ => simp_all

theorem substAll_only_of_fresh {b : Binding} {t : Term} (h : t.Over (· ≠ b)) (s : Term) :
    t.substAll (only b s) = t := by
  have := substAll_congr h fun c hc => only_of_ne s hc
  rwa [substAll_free] at this

theorem substAll_replaceAt {σ : Binding → Term} (hσ : ∀ b, (σ b).LocallyClosed) (s t : Term)
    (k : Nat) : (replaceAt s k t).substAll σ = replaceAt (s.substAll σ) k (t.substAll σ) := by
  induction t generalizing k with
  | bound i =>
    rw [substAll, replaceAt, replaceAt]
    split <;> rfl
  | free b => exact (ClosedAt.replaceAt_eq (hσ b) _ (Nat.zero_le k)).symm
  | bool | boolType | type => rfl
  | lam body ih => simp [ih]
  | pi _ _ _ ihd ihc => simp [ihd, ihc]
  | app _ _ ihf iha => simp [ihf, iha]
  | letIn _ _ _ _ iht ihv ihb => simp [iht, ihv, ihb]

theorem substAll_instantiate {σ : Binding → Term} (hσ : ∀ b, (σ b).LocallyClosed)
    (t s : Term) : (t.instantiate s).substAll σ = (t.substAll σ).instantiate (s.substAll σ) :=
  substAll_replaceAt hσ s t 0

theorem substAll_openWith {σ : Binding → Term} (hσ : ∀ b, (σ b).LocallyClosed) (t : Term)
    {b : Binding} (hb : σ b = free b) : (t.openWith b).substAll σ = (t.substAll σ).openWith b := by
  unfold openWith
  rw [substAll_instantiate hσ, substAll, hb]

theorem closeAt_of_fresh {b : Binding} {t : Term} (h : t.Over (· ≠ b)) (k : Nat) :
    closeAt b k t = t := by
  induction t generalizing k with
  | bound | bool | boolType | type => rfl
  | free c => exact if_neg h
  | lam body ih => rw [closeAt, ih h]
  | pi _ _ _ ihd ihc => rw [closeAt, ihd h.1, ihc h.2]
  | app _ _ ihf iha => rw [closeAt, ihf h.1, iha h.2]
  | letIn _ _ _ _ iht ihv ihb => rw [closeAt, iht h.1, ihv h.2.1, ihb h.2.2]

theorem closeAt_replaceAt {b : Binding} {t : Term} (h : t.Over (· ≠ b)) (k : Nat) :
    closeAt b k (replaceAt (free b) k t) = t := by
  induction t generalizing k with
  | bound i =>
    rw [replaceAt]
    split
    · rename_i hi
      rw [hi, closeAt, if_pos rfl]
    · rfl
  | free c => exact if_neg h
  | bool | boolType | type => rfl
  | lam body ih => rw [replaceAt, closeAt, ih h]
  | pi _ _ _ ihd ihc => rw [replaceAt, closeAt, ihd h.1, ihc h.2]
  | app _ _ ihf iha => rw [replaceAt, closeAt, ihf h.1, iha h.2]
  | letIn _ _ _ _ iht ihv ihb => rw [replaceAt, closeAt, iht h.1, ihv h.2.1, ihb h.2.2]

theorem replaceAt_closeAt {t : Term} {k : Nat} (h : t.ClosedAt k) (b : Binding) (s : Term) :
    replaceAt s k (closeAt b k t) = t.substAll (only b s) := by
  induction t generalizing k with
  | bound i =>
    have : i ≠ k := by have : i < k := h; omega
    simp [this]
  | free c =>
    rw [closeAt, substAll, only]
    split
    · rw [replaceAt, if_pos rfl]
    · rfl
  | bool | boolType | type => rfl
  | lam body ih => rw [closeAt, replaceAt, substAll, ih h]
  | pi _ _ _ ihd ihc => rw [closeAt, replaceAt, substAll, ihd h.1, ihc h.2]
  | app _ _ ihf iha => rw [closeAt, replaceAt, substAll, ihf h.1, iha h.2]
  | letIn _ _ _ _ iht ihv ihb =>
    rw [closeAt, replaceAt, substAll, iht h.1, ihv h.2.1, ihb h.2.2]

theorem replaceAt_replaceAt_free {b : Binding} {t : Term} (h : t.Over (· ≠ b)) {s : Term}
    (hs : s.LocallyClosed) (k : Nat) :
    (replaceAt (free b) k t).substAll (only b s) = replaceAt s k t := by
  rw [substAll_replaceAt (only_locallyClosed hs), substAll_only_of_fresh h, substAll, only_self]

/-! ## At the outermost binder -/

theorem close_openWith {t : Term} {b : Binding} (h : t.Over (· ≠ b)) :
    (t.openWith b).close b = t :=
  closeAt_replaceAt h 0

theorem instantiate_close {t : Term} (h : t.LocallyClosed) (b : Binding) (s : Term) :
    (t.close b).instantiate s = t.substAll (only b s) :=
  replaceAt_closeAt h b s

theorem openWith_close {t : Term} (h : t.LocallyClosed) (b : Binding) :
    (t.close b).openWith b = t := by
  have hid : only b (free b) = free := by
    funext c
    unfold only
    split
    · rename_i e; rw [e]
    · rfl
  rw [openWith, instantiate_close h, hid, substAll_free]

/-- Instantiating a binder is opening it with a new variable and substituting for that. -/
theorem instantiate_eq_substAll {t : Term} {b : Binding} (h : t.Over (· ≠ b)) {s : Term}
    (hs : s.LocallyClosed) : t.instantiate s = (t.openWith b).substAll (only b s) :=
  (replaceAt_replaceAt_free h hs 0).symm

theorem ClosedAt.instantiate {t s : Term} (ht : t.ClosedAt 1) (hs : s.LocallyClosed) :
    (t.instantiate s).LocallyClosed :=
  ClosedAt.replaceAt ht hs

theorem ClosedAt.openWith {t : Term} (ht : t.ClosedAt 1) (b : Binding) :
    (t.openWith b).LocallyClosed :=
  ht.instantiate (locallyClosed_free b)

theorem ClosedAt.of_openWith {t : Term} {b : Binding} (h : (t.openWith b).LocallyClosed) :
    t.ClosedAt 1 :=
  ClosedAt.of_replaceAt_free h

theorem LocallyClosed.close {t : Term} (h : t.LocallyClosed) (b : Binding) :
    (t.close b).ClosedAt 1 :=
  ClosedAt.closeAt h b

theorem LocallyClosed.substAll {t : Term} (h : t.LocallyClosed) {σ : Binding → Term}
    (hσ : ∀ b, (σ b).LocallyClosed) : (t.substAll σ).LocallyClosed :=
  ClosedAt.substAll h hσ

theorem Over.instantiate {P : Binding → Prop} {t s : Term} (ht : t.Over P) (hs : s.Over P) :
    (t.instantiate s).Over P :=
  Over.replaceAt hs ht 0

theorem Over.openWith {P : Binding → Prop} {t : Term} {b : Binding} (ht : t.Over P) (hb : P b) :
    (t.openWith b).Over P :=
  ht.instantiate hb

theorem Over.of_openWith {P : Binding → Prop} {t : Term} {b : Binding}
    (h : (t.openWith b).Over P) : t.Over P :=
  Over.of_replaceAt h

theorem Over.close {P : Binding → Prop} {t : Term} {b : Binding}
    (h : t.Over fun c => c = b ∨ P c) : (t.close b).Over P :=
  Over.closeAt h 0

theorem Below.close {t : Term} {n : Nat} (h : t.Below n) (b : Binding) : (t.close b).Below n :=
  Over.close (Over.mono h fun _ => .inr)

theorem close_over_ne (t : Term) (b : Binding) : (t.close b).Over (· ≠ b) := by
  obtain ⟨n, hn⟩ := t.exists_below
  exact Over.close (Over.mono hn fun c _ => Classical.em (c = b))

theorem openWith_injective {t u : Term} {b : Binding} (ht : t.Over (· ≠ b)) (hu : u.Over (· ≠ b))
    (h : t.openWith b = u.openWith b) : t = u := by
  rw [← close_openWith ht, ← close_openWith hu, h]

/-! ## The laws together -/

theorem subst_eq_substAll (b : Binding) (s t : Term) : subst b s t = t.substAll (only b s) := by
  induction t with
  | bound | free | bool | boolType | type => rfl
  | _ => simp_all [subst]

/-- **The laws of opening and closing.** Opening a binder with a variable that does not occur is
undone by closing, and instantiating the binder is substituting for that variable; here indices may
dangle. Closing a term that has no dangling index is undone by opening, whether or not the variable
occurs, and instantiating is substituting for it. A closed variable does not occur. -/
theorem open_close_laws {u : Term} (hu : u.LocallyClosed) (t : Term) (b : Binding) :
    (t.usage b = 0 →
      (t.openWith b).close b = t ∧ t.instantiate u = subst b u (t.openWith b)) ∧
    (t.LocallyClosed →
      (t.close b).openWith b = t ∧ (t.close b).instantiate u = subst b u t) ∧
    (t.close b).usage b = 0 := by
  simp only [subst_eq_substAll]
  refine ⟨fun hb => ?_, fun ht => ?_, usage_eq_zero_iff.2 (close_over_ne t b)⟩
  · have hfresh : t.Over (· ≠ b) := usage_eq_zero_iff.1 hb
    exact ⟨close_openWith hfresh, instantiate_eq_substAll hfresh hu⟩
  · exact ⟨openWith_close ht b, instantiate_close ht b u⟩

/-- The variable is used by the type, the value and the body of a `let` under a binder, at three
depths, and the term that is put in for it mentions it too. -/
theorem open_close_laws_at_depths :
    let x : Binding := ⟨0, "x"⟩
    let y : Binding := ⟨1, "y"⟩
    let u : Term := .lam (.app (.bound 0) (.free x))
    let body : Term := .pi "a" (.bound 0)
      (.letIn "c" (.bound 1) (.lam (.bound 2)) (.app (.bound 2) (.free y)))
    let t : Term := .pi "a" (.free x)
      (.letIn "c" (.free x) (.lam (.free x)) (.app (.free x) (.free y)))
    u.LocallyClosed ∧ body.usage x = 0 ∧ ¬ body.LocallyClosed ∧ t.LocallyClosed ∧ t.usage x = 4 ∧
      (t.close x = body ∧ body.openWith x = t) ∧
      ((body.openWith x).close x = body ∧ body.instantiate u = subst x u (body.openWith x)) ∧
      ((t.close x).openWith x = t ∧ (t.close x).instantiate u = subst x u t) ∧
      (t.close x).usage x = 0 := by
  intro x y u body t
  have hu : u.LocallyClosed := by decide
  have hbody : body.usage x = 0 := by decide
  have ht : t.LocallyClosed := by decide
  obtain ⟨hopened, -, -⟩ := open_close_laws hu body x
  obtain ⟨-, hclosed, husage⟩ := open_close_laws hu t x
  exact ⟨hu, hbody, by decide, ht, by decide, by decide, hopened hbody, hclosed ht, husage⟩

/-! ## Dropped lets -/

/-- A let around a term is the let that the variable needs, or nothing if it needs none. -/
theorem makeLet_of_fresh {b : Binding} {ty value body : Term} (h : body.Over (· ≠ b)) :
    makeLet b ty value body = body :=
  if_pos (usage_eq_zero_iff.2 h)

theorem makeLet_cases (b : Binding) (ty value body : Term) :
    (body.Over (· ≠ b) ∧ makeLet b ty value body = body) ∨
      makeLet b ty value body = letIn b.name ty value (body.close b) := by
  by_cases h : body.usage b = 0
  · exact .inl ⟨usage_eq_zero_iff.1 h, if_pos h⟩
  · exact .inr (if_neg h)

theorem Over.makeLet {P : Binding → Prop} {b : Binding} {ty value body : Term} (hty : ty.Over P)
    (hvalue : value.Over P) (hbody : body.Over fun c => c = b ∨ P c) :
    (makeLet b ty value body).Over P := by
  rcases makeLet_cases b ty value body with ⟨hfresh, heq⟩ | heq
  · rw [heq]
    exact (hbody.and hfresh).mono fun _ hc => hc.1.resolve_left hc.2
  · rw [heq]
    exact ⟨hty, hvalue, hbody.close⟩

end DepLang.Term
