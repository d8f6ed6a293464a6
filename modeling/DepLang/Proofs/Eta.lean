import DepLang.Proofs.Interference
import DepLang.Proofs.Unfolding

/-!
# Eta at every arity

A variable `f` of a type `(x₁ : A₁) → … → (xₙ : Aₙ) → B` equals `λ x₁ … xₖ. f x₁ … xₖ`, for every
`k` up to `n`, and `equate` finds that out in either order, where the types are first-order and
nothing is defined.

* A function is compared with anything else at a new variable, so each of the `k` binders takes one
  step (`Spine.bodies`), and what is left to compare is `f` applied to `k` variables, with itself.
* Both sides are then spines of variables. A comparison of spines finds the type that they have in
  common, which is what is left of the telescope (`Spine.heads`). On the way each argument is
  compared with itself, at the type that the context gives it (`Comparable.equate_variable`).
* The type that was found is compared with the expected one, which is the same first-order term.

Only the variables that `f` leads to matter. Other entries of the context may say anything, since
they do not interfere.
-/
namespace DepLang

open Check

namespace Term

/-! ## Telescopes and expansions -/

/-- The type of the functions that take the parameters in turn. A type may mention the parameters
before it. -/
def pis (params : List (String × Term)) (result : Term) : Term :=
  params.foldr (fun p codomain => pi p.1 p.2 codomain) result

/-- Functions nested `k` deep. -/
def lams : Nat → Term → Term
  | 0, body => body
  | k + 1, body => lam (lams k body)

/-- The term applied to the indices from `k - 1` down to `0`. -/
def applyIndices : Nat → Term → Term
  | 0, t => t
  | k + 1, t => applyIndices k (app t (bound k))

/-- `λ x₁ … xₖ. t x₁ … xₖ`, for a term without dangling indices. -/
def etaExpand (k : Nat) (t : Term) : Term := lams k (applyIndices k t)

/-- The body of the outermost of `k + 1` functions. -/
def etaBody (k : Nat) (t : Term) : Term := lams k (applyIndices k (app t (bound k)))

theorem replaceAt_lams (s : Term) (k i : Nat) (t : Term) :
    replaceAt s i (lams k t) = lams k (replaceAt s (i + k) t) := by
  induction k generalizing i with
  | zero => rfl
  | succ k ih =>
    rw [lams, replaceAt, ih, Nat.add_right_comm]
    rfl

theorem replaceAt_applyIndices (s : Term) {k i : Nat} (h : k ≤ i) (t : Term) :
    replaceAt s i (applyIndices k t) = applyIndices k (replaceAt s i t) := by
  induction k generalizing t with
  | zero => rfl
  | succ k ih =>
    rw [applyIndices, ih (Nat.le_of_succ_le h), replaceAt, replaceAt, if_neg (Nat.ne_of_lt h)]
    rfl

theorem openWith_etaBody {t : Term} (h : t.LocallyClosed) (k : Nat) (b : Binding) :
    (etaBody k t).openWith b = etaExpand k (app t (free b)) := by
  have hopen : replaceAt (free b) k (app t (bound k)) = app t (free b) := by
    rw [replaceAt, replaceAt, if_pos rfl, ClosedAt.replaceAt_eq h _ (Nat.zero_le k)]
  calc (etaBody k t).openWith b
    _ = lams k (replaceAt (free b) (0 + k) (applyIndices k (app t (bound k)))) :=
      replaceAt_lams (free b) k 0 _
    _ = lams k (replaceAt (free b) k (applyIndices k (app t (bound k)))) := by rw [Nat.zero_add]
    _ = etaExpand k (app t (free b)) := by
      rw [replaceAt_applyIndices (free b) (Nat.le_refl k), hopen, etaExpand]

theorem Over.etaExpand {P : Binding → Prop} {t : Term} (h : t.Over P) (k : Nat) :
    (etaExpand k t).Over P := by
  have happly : ∀ {k : Nat} {t : Term}, t.Over P → (applyIndices k t).Over P := by
    intro k
    induction k with
    | zero => exact id
    | succ k ih => exact fun ht => ih ⟨ht, trivial⟩
  have hlams : ∀ {k : Nat} {t : Term}, t.Over P → (lams k t).Over P := by
    intro k
    induction k with
    | zero => exact id
    | succ k ih => exact fun ht => ih ht
  exact hlams (happly h)

/-- At least `k` function types are nested in each other. -/
def Takes : Nat → Term → Prop
  | 0, _ => True
  | k + 1, pi _ _ codomain => codomain.Takes k
  | _ + 1, _ => False

theorem takes_pis {k : Nat} {params : List (String × Term)} (h : k ≤ params.length) (B : Term) :
    (pis params B).Takes k := by
  induction params generalizing k with
  | nil =>
    obtain rfl := Nat.le_zero.1 h
    trivial
  | cons p params ih =>
    cases k with
    | zero => trivial
    | succ k => exact ih (Nat.le_of_succ_le_succ h)

theorem Takes.exists_pi {k : Nat} {t : Term} (h : t.Takes (k + 1)) :
    ∃ name A B, t = pi name A B ∧ B.Takes k := by
  cases t with
  | pi name A B => exact ⟨name, A, B, rfl, h⟩
  | _ => exact h.elim

theorem Takes.replaceAt {k : Nat} {t : Term} (h : t.Takes k) (s : Term) (i : Nat) :
    (Term.replaceAt s i t).Takes k := by
  induction k generalizing t i with
  | zero => trivial
  | succ k ih =>
    obtain ⟨name, A, B, rfl, hB⟩ := h.exists_pi
    exact ih hB (i + 1)

end Term

/-! ## A variable is equal to itself -/

namespace Comparable

variable {S : Binding → Prop} {E : Values} {ω : Binding → Nat} {Γ : Context} {s : Store}
  (h : Comparable S E ω Γ s) {b : Binding} {A : Term} (hA : Γ.lookup b = some A) (hb : E b = none)
include h hA

theorem elementary : A.Elementary S := ⟨(h.finds.records.context b A hA).2, h.types b A hA⟩

include hb

theorem lookup_variable : s.definitions.lookup b = none :=
  h.tracks.undefined b (h.finds.records.context b A hA).1 hb

/-- The type that a variable shares with itself is the normal form of its own. -/
theorem heads_variable :
    Succeeds (fun fuel => compareHeads fuel (equate fuel) Γ (.free b) (.free b)) s fun found s' =>
      ∃ V, found = some V ∧ StillComparable S E ω Γ s s' ∧ V.Elementary S ∧ Convertible E A V := by
  obtain ⟨V, s', hV, hs', hVS, hconv, -⟩ := h.normalizes (h.elementary hA)
  simp only [compareHeads, if_true]
  refine .after (.typeOf (h.lookup_variable hA hb) hA) (.after (.whnf hV) (.pure ?_))
  exact ⟨V, rfl, hs', hVS, hconv⟩

theorem at_variable {U : Term} (hU : U.Elementary S) (hlet : U.isLet = false)
    (hconv : Convertible E A U) :
    Succeeds (fun fuel => compareAt fuel (equate fuel) Γ (.free b) (.free b) U) s fun same s' =>
      same = true ∧ StillComparable S E ω Γ s s' := by
  have hheads := h.heads_variable hA hb
  -- At the universe and at function types it is enough that there is a type.
  have hfound : Succeeds (fun fuel => do
      return (← compareHeads fuel (equate fuel) Γ (.free b) (.free b)).isSome) s fun same s' =>
      same = true ∧ StillComparable S E ω Γ s s' := by
    refine .bind hheads ?_
    rintro _ s' ⟨V, rfl, hs', -⟩
    exact .pure ⟨rfl, hs'⟩
  -- Elsewhere it is compared with the given one, and both are normal forms of `A`.
  have hequal : ∀ {V : Term} {s₁ : Store}, StillComparable S E ω Γ s s₁ → V.Elementary S →
      Convertible E A V → Succeeds (fun fuel => equate fuel Γ U V none) s₁ fun same s' =>
        same = true ∧ StillComparable S E ω Γ s s' := by
    intro V s₁ h₁ hV hAV
    refine (comparesBelow _ h₁.comparable hU hV (.inl rfl) (Nat.lt_succ_self _)).mono ?_
    rintro same s' ⟨hs', hsame⟩
    exact ⟨hsame (hconv.symm.trans hAV), h₁.trans hs'⟩
  cases U with
  | bound i => exact absurd hU.closed (Nat.not_lt_zero i)
  | lam | app => exact hU.firstOrder.elim
  | letIn => cases hlet
  | pi | type => exact hfound
  | free | bool | boolType =>
    refine .bind hheads ?_
    rintro _ s₁ ⟨V, rfl, h₁, hV, hAV⟩
    exact hequal h₁ hV hAV

/-- **A variable is equal to itself** at the type that the context gives it. -/
theorem equate_variable : Succeeds (fun fuel => equate fuel Γ (.free b) (.free b) (some A)) s
    fun same s' => same = true ∧ StillComparable S E ω Γ s s' := by
  have hself : Normalizes (.free b) s (.free b) s := .layer (.undefined (h.lookup_variable hA hb))
  obtain ⟨U, s₁, hU, h₁, hUS, hconv, -⟩ := h.normalizes (h.elementary hA)
  have hspines : ∀ fuel, compareSpines fuel (equate fuel) Γ (.free b) (.free b) = pure none :=
    fun _ => rfl
  refine .succ ?_
  simp only [equate, hspines, pure_bind]
  unfold compareReduced
  refine .after (.whnf hself) (.after (.whnf hself) (.after (.mapM_some (.whnf hU)) ?_))
  have hisLet : (Term.free b).isLet = false := rfl
  cases hlet : U.isLet with
  | false =>
    simp only [hisLet, hlet, Bool.or_false, Option.any_some, Bool.false_eq_true, if_false]
    refine (h₁.comparable.at_variable hA hb hUS hlet hconv).mono ?_
    rintro same s' ⟨hsame, hs'⟩
    exact ⟨hsame, h₁.trans hs'⟩
  | true =>
    -- The `let`s around the type define new variables only.
    obtain ⟨peeled, V, s₂, T, ω', hp, hext, h₂, -, hVT, hUV, -⟩ := h₁.comparable.derive.peels hUS
    have hself₁ : Peels (.free b) s₁.derive [] (.free b) s₁.derive :=
      .head (.layer (.undefined (h₁.comparable.derive.lookup_variable hA hb))) rfl
    have hb₂ : E.enter peeled b = none := by
      refine h₂.tracks.value_eq_none ?_
      have hminted := h₁.comparable.derive.tracks.minted b (h.finds.records.context b A hA).1
      exact (Option.isSome_eq_isSome.1 (hp.isSome_lookup_minted hminted)).2
        (h₁.comparable.derive.lookup_variable hA hb)
    simp only [hisLet, hlet, Bool.or_true, Option.any_some, if_true]
    refine .locally (.after (.headUnderLets hself₁) (.after (.headUnderLets hself₁)
      (.after (.mapM_some (.headUnderLets hp)) ?_)))
    refine (h₂.at_variable hA hb₂ hVT hp.normal.1 ((hext.mono hconv).trans hUV)).mono ?_
    rintro same s' ⟨hsame, hs'⟩
    exact ⟨hsame, h₁.trans (h₁.comparable.restore (Nat.le_trans hp.supply_le hs'.supply))⟩

end Comparable

/-! ## Spines of variables -/

/-- A variable applied to variables. The context gives each of them the type that the function
before it takes. -/
inductive Spine (Γ : Context) : Term → Term → Prop where
  | head {f : Binding} {name : String} {A B : Term} : Γ.lookup f = some (.pi name A B) →
      Spine Γ (.free f) (.pi name A B)
  | app {u A B : Term} {name : String} {b : Binding} : Spine Γ u (.pi name A B) →
      Γ.lookup b = some A → Spine Γ (.app u (.free b)) (B.openWith b)

namespace Spine

variable {Γ : Context} {u T : Term}

theorem shape (h : Spine Γ u T) : (∃ f, u = .free f) ∨ ∃ v a, u = .app v a := by
  cases h with
  | head => exact .inl ⟨_, rfl⟩
  | app => exact .inr ⟨_, _, rfl⟩

theorem isFree_spineHead (h : Spine Γ u T) : u.spineHead.isFree = true := by
  induction h with
  | head => rfl
  | app _ _ ih => exact ih

theorem locallyClosed (h : Spine Γ u T) : u.LocallyClosed := by
  induction h with
  | head => trivial
  | app _ _ ih => exact ⟨ih, trivial⟩

theorem bind (h : Spine Γ u T) {b : Binding} (hb : Γ.lookup b = none) (A : Term) :
    Spine (Γ.bind b A) u T := by
  have hkeep : ∀ {c : Binding} {C : Term}, Γ.lookup c = some C →
      (Γ.bind b A).lookup c = some C := by
    intro c C hC
    rw [Scope.lookup_bind_of_ne Γ A]
    · exact hC
    · rintro rfl
      rw [hb] at hC
      cases hC
  induction h with
  | head hf => exact .head (hkeep hf)
  | app _ hc ih => exact .app ih (hkeep hc)

variable {S : Binding → Prop} {ω : Binding → Nat} {s : Store}

theorem elementary (h : Spine Γ u T) (hΓ : Comparable S (fun _ => none) ω Γ s) :
    T.Elementary S := by
  induction h with
  | head hf => exact hΓ.elementary hf
  | @app u A B name b _ hb ih =>
    have hbS : S b := (hΓ.finds.records.context b A hb).1
    exact ⟨⟨ih.closed.2.openWith b, ih.vars.2.openWith hbS⟩, ih.firstOrder.2.openWith b⟩

theorem normalizes (h : Spine Γ u T) (hΓ : Comparable S (fun _ => none) ω Γ s) :
    Normalizes u s u s := by
  induction h with
  | head hf => exact .layer (.undefined (hΓ.lookup_variable hf rfl))
  | @app u A B name b hu hb ih =>
    refine .layer (.stuck ih (.layer (.undefined (hΓ.lookup_variable hb rfl))) fun body hbody => ?_)
    subst hbody
    rcases hu.shape with ⟨_, hfree⟩ | ⟨_, _, happ⟩
    · cases hfree
    · cases happ

/-- **The type that a spine shares with itself is its own.** -/
theorem heads (h : Spine Γ u T) (hΓ : Comparable S (fun _ => none) ω Γ s) :
    Succeeds (fun fuel => compareHeads fuel (equate fuel) Γ u u) s fun found s' =>
      found = some T ∧ StillComparable S (fun _ => none) ω Γ s s' := by
  induction h with
  | @head f name A B hf =>
    simp only [compareHeads, if_true]
    have hpi : Normalizes (.pi name A B) s (.pi name A B) s :=
      .layer (.stable (by simp) (by simp) rfl)
    exact .after (.typeOf (hΓ.lookup_variable hf rfl) hf)
      (.after (.whnf hpi) (.pure ⟨rfl, hΓ.refl⟩))
  | @app u A B name b hu hb ih =>
    simp only [compareHeads]
    refine .bind ih ?_
    rintro _ s₁ ⟨rfl, h₁⟩
    have hpeels : Peels (.pi name A B) s₁.derive [] (.pi name A B) s₁.derive :=
      .head (.layer (.stable (by simp) (by simp) rfl)) rfl
    have hargument := h₁.comparable.derive.equate_variable hb rfl
    refine .locally (.after (.lift hpeels.runs) (.bind hargument ?_))
    rintro _ s₂ ⟨rfl, h₂⟩
    exact .pure ⟨rfl, h₁.trans (h₁.comparable.restore h₂.supply)⟩

theorem equate_self {v a : Term} (h : Spine Γ (.app v a) T)
    (hΓ : Comparable S (fun _ => none) ω Γ s) :
    Succeeds (fun fuel => equate fuel Γ (.app v a) (.app v a) (some T)) s fun same _ =>
      same = true := by
  have hspines : ∀ fuel, compareSpines fuel (equate fuel) Γ (.app v a) (.app v a) =
      compareHeads fuel (equate fuel) Γ (.app v a) (.app v a) := by
    intro fuel
    have hfree : v.spineHead.isFree = true := h.isFree_spineHead
    simp only [compareSpines, hfree, Bool.and_self, if_true]
  have hT := h.elementary hΓ
  refine .succ ?_
  simp only [equate, hspines]
  refine .bind (h.heads hΓ) ?_
  rintro _ s₁ ⟨rfl, h₁⟩
  refine (comparesBelow _ h₁.comparable hT hT (.inl rfl) (Nat.lt_succ_self _)).mono ?_
  rintro same _ ⟨-, hsame⟩
  exact hsame (.refl hT.closed)

/-- A function is compared with a spine at a new variable, on whichever side it stands. -/
theorem equate_lam {name : String} {A B body lhs rhs : Term} {Q : Bool → Store → Prop}
    (h : Spine Γ u (.pi name A B)) (hΓ : Comparable S (fun _ => none) ω Γ s)
    (hsides : lhs = .lam body ∧ rhs = u ∨ lhs = u ∧ rhs = .lam body)
    (hbodies : Succeeds (fun fuel => compareBodies (equate fuel) Γ name A B body.openWith
      fun b => .app u (.free b)) s Q) :
    Succeeds (fun fuel => equate fuel Γ lhs rhs (some (.pi name A B))) s Q := by
  have hlam : Normalizes (.lam body) s (.lam body) s := .layer (.stable (by simp) (by simp) rfl)
  have hpi : Normalizes (.pi name A B) s (.pi name A B) s :=
      .layer (.stable (by simp) (by simp) rfl)
  have hu := h.normalizes hΓ
  have hnormal : Normalizes lhs s lhs s ∧ Normalizes rhs s rhs s := by
    rcases hsides with ⟨rfl, rfl⟩ | ⟨rfl, rfl⟩
    · exact ⟨hlam, hu⟩
    · exact ⟨hu, hlam⟩
  have hspines : ∀ fuel, compareSpines fuel (equate fuel) Γ lhs rhs = pure none := by
    intro fuel
    rcases hsides with ⟨rfl, rfl⟩ | ⟨rfl, rfl⟩
    · rfl
    · rcases h.shape with ⟨f, rfl⟩ | ⟨v, a, rfl⟩ <;> rfl
  refine .succ ?_
  simp only [equate, hspines, pure_bind]
  unfold compareReduced
  refine .after (.whnf hnormal.1) (.after (.whnf hnormal.2) (.after (.mapM_some (.whnf hpi)) ?_))
  rcases hsides with ⟨rfl, rfl⟩ | ⟨rfl, rfl⟩ <;> rcases h.shape with ⟨f, rfl⟩ | ⟨v, a, rfl⟩ <;>
    exact hbodies

theorem mint {name : String} {A B : Term} (h : Spine Γ u (.pi name A B))
    (hΓ : Comparable S (fun _ => none) ω Γ s) :
    Spine (Γ.bind (s.supply.mint name).1 A) (.app u (.free (s.supply.mint name).1))
        (B.openWith (s.supply.mint name).1) ∧
      Comparable (fun c => c = (s.supply.mint name).1 ∨ S c) (fun _ => none)
        (Function.update ω (s.supply.mint name).1 0) (Γ.bind (s.supply.mint name).1 A)
        (Store.derive { s with supply := (s.supply.mint name).2 }) := by
  have hpi := h.elementary hΓ
  have hnew : ¬ S (s.supply.mint name).1 := fun hS => Nat.lt_irrefl _ (hΓ.tracks.minted _ hS)
  have hnone := (hΓ.finds.lookup_eq_none hnew).1
  exact ⟨.app (h.bind hnone A) (Scope.lookup_bind_self A hnone),
    (hΓ.mint name ⟨⟨hpi.closed.1, hpi.vars.1⟩, hpi.firstOrder.1⟩).derive⟩

/-- Opening the body of an expansion with the new variable leaves an expansion with one binder less,
of the longer spine. -/
theorem bodies_of_equate {k : Nat} {name : String} {A B : Term} (h : Spine Γ u (.pi name A B))
    (hequal : Succeeds (fun fuel => equate fuel (Γ.bind (s.supply.mint name).1 A)
      (Term.etaExpand k (.app u (.free (s.supply.mint name).1)))
      (.app u (.free (s.supply.mint name).1)) (some (B.openWith (s.supply.mint name).1)))
      (Store.derive { s with supply := (s.supply.mint name).2 }) fun same _ => same = true) :
    Succeeds (fun fuel => compareBodies (equate fuel) Γ name A B (Term.etaBody k u).openWith
      fun b => .app u (.free b)) s fun same _ => same = true := by
  unfold compareBodies
  refine .after (.mint s name) (.locally ?_)
  rw [Term.openWith_etaBody h.locallyClosed]
  exact hequal

/-- **One binder after the other.** The body of an expansion and the spine are equal at a new
variable. The induction is on the number of binders that are left, and each of them makes the spine
longer by its variable. -/
theorem bodies {k : Nat} {name : String} {A B : Term} (h : Spine Γ u (.pi name A B))
    (hΓ : Comparable S (fun _ => none) ω Γ s) (hB : B.Takes k) :
    Succeeds (fun fuel => compareBodies (equate fuel) Γ name A B (Term.etaBody k u).openWith
      fun b => .app u (.free b)) s fun same _ => same = true := by
  induction k generalizing Γ u name A B S ω s with
  | zero =>
    obtain ⟨hspine, hΓ'⟩ := h.mint hΓ
    exact h.bodies_of_equate (hspine.equate_self hΓ')
  | succ k ih =>
    obtain ⟨hspine, hΓ'⟩ := h.mint hΓ
    obtain ⟨name', A', B', rfl, hB'⟩ := hB.exists_pi
    exact h.bodies_of_equate
      (hspine.equate_lam hΓ' (.inl ⟨rfl, rfl⟩) (ih hspine hΓ' (hB'.replaceAt _ 1)))

end Spine

/-! ## The variables involved -/

namespace Scope

variable {α : Type} (S : Binding → Prop) [DecidablePred S]

/-- The entries of the variables in `S` only. -/
def restrict (s : Scope α) : Scope α where
  inner := s.inner.filter fun entry => decide (S entry.1)
  outer := s.outer.map (List.filter fun entry => decide (S entry.1))

theorem lookup_filter (frame : Frame α) (b : Binding) :
    (frame.filter fun entry => decide (S entry.1)).lookup b =
      if S b then frame.lookup b else none := by
  induction frame with
  | nil => simp
  | cons entry frame ih =>
    obtain ⟨c, a⟩ := entry
    rw [List.filter_cons, List.lookup_cons]
    by_cases hbc : b = c
    · subst hbc
      by_cases hb : S b
      · simp [hb]
      · simpa [hb] using ih
    · have hne : (b == c) = false := by simpa using hbc
      by_cases hc : S c
      · simpa [hc, hne, List.lookup_cons] using ih
      · simpa [hc, hne] using ih

theorem lookup_restrict (s : Scope α) (b : Binding) :
    (s.restrict S).lookup b = if S b then s.lookup b else none := by
  have hframes : (s.restrict S).frames =
      s.frames.map (List.filter fun entry => decide (S entry.1)) := rfl
  unfold lookup
  rw [hframes]
  induction s.frames with
  | nil => simp
  | cons frame frames ih =>
    rw [List.map_cons, List.findSome?_cons, List.findSome?_cons, lookup_filter, ih]
    by_cases hb : S b <;> simp [hb]

end Scope

/-- The context binds the variables in `S`, at first-order types over `S`. Its other entries may be
anything. -/
structure Context.FirstOrderOn (S : Binding → Prop) (n : Nat) (Γ : Context) : Prop where
  binds : ∀ b, S b → ∃ A, Γ.lookup b = some A ∧ A.Elementary S
  minted : ∀ b A, Γ.lookup b = some A → b.id < n

namespace Context.FirstOrderOn

variable {S : Binding → Prop} {Γ : Context} {n : Nat} (h : Γ.FirstOrderOn S n)
include h

theorem minted_of_mem {b : Binding} (hb : S b) : b.id < n := by
  obtain ⟨A, hA, -⟩ := h.binds b hb
  exact h.minted b A hA

variable [DecidablePred S]

theorem lookup_restrict {b : Binding} {A : Term} (hA : (Γ.restrict S).lookup b = some A) :
    S b ∧ A.Elementary S := by
  rw [Scope.lookup_restrict, Option.ite_none_right_eq_some] at hA
  obtain ⟨hb, hA⟩ := hA
  obtain ⟨B, hB, hBS⟩ := h.binds b hb
  rw [hA] at hB
  cases hB
  exact ⟨hb, hBS⟩

theorem comparable :
    Comparable S (fun _ => none) (fun _ => 0) (Γ.restrict S) { supply := ⟨n⟩ } := by
  have hnone : ∀ b d, ({ supply := ⟨n⟩ } : Store).definitions.lookup b ≠ some d :=
    fun b d hd => by cases hd
  have htracks : Tracks S (fun _ => none) { supply := ⟨n⟩ } :=
    ⟨fun b hb => h.minted_of_mem hb, fun b d hd => absurd hd (hnone b d),
      fun b v hv => (by cases hv), fun _ _ _ => rfl, fun b v hv => (by cases hv)⟩
  have hrecords : Records S (fun _ => none) (Γ.restrict S) { supply := ⟨n⟩ } :=
    ⟨htracks, fun b A hA => ⟨(h.lookup_restrict hA).1, (h.lookup_restrict hA).2.toWithin⟩,
      fun b d hd => absurd hd (hnone b d)⟩
  refine ⟨⟨hrecords, fun b hb => .inl ?_⟩, ⟨htracks.wellScoped fun b d hd => absurd hd (hnone b d),
    fun b d hd => absurd hd (hnone b d), fun b d hd => absurd hd (hnone b d)⟩,
    fun b A hA => (h.lookup_restrict hA).2.firstOrder⟩
  obtain ⟨A, hA, -⟩ := h.binds b hb
  simp [Scope.contains, Scope.lookup_restrict, hb, hA]

theorem agree : Agree S (Γ.restrict S) Γ { supply := ⟨n⟩ } { supply := ⟨n⟩ } where
  minted b hb := ⟨h.minted_of_mem hb, h.minted_of_mem hb⟩
  context b hb := by rw [Scope.lookup_restrict, if_pos hb]
  types b A _ hA := (h.lookup_restrict hA).2.vars
  definitions _ _ := rfl
  values b d _ hd := by cases hd
  keys := ⟨fun b A hA => h.minted_of_mem (h.lookup_restrict hA).1, fun b d hd => by cases hd⟩
  keys' := ⟨h.minted, fun b d hd => by cases hd⟩

theorem equate_of_restrict {lhs rhs T : Term} (hl : lhs.Over S) (hr : rhs.Over S) (hT : T.Over S)
    (hequal : Succeeds (fun fuel => equate fuel (Γ.restrict S) lhs rhs (some T))
      { supply := ⟨n⟩ } fun same _ => same = true) :
    ∃ s, Ends (fun fuel => equate fuel Γ lhs rhs (some T)) { supply := ⟨n⟩ } (.ok true) s := by
  obtain ⟨_, t, ⟨N, hN⟩, rfl⟩ := hequal
  have hsome : ∀ U, some T = some U → U.Over S := by
    rintro _ ⟨⟩
    exact hT
  obtain ⟨_, -, hends⟩ := h.agree.equate_like hl hr hsome N _ t (hN N (Nat.le_refl N))
  exact hends

end Context.FirstOrderOn

/-- **Eta at every arity.** A context gives `f` the type `(x₁ : A₁) → … → (xₙ : Aₙ) → B`. The
variables `S` that this leads to are bound there, at types without functions and applications; a
type may mention the parameters before it, and other entries may be anything. Nothing is defined.
Then `λ x₁ … xₖ. f x₁ … xₖ` is found equal to `f` at that type, in either order, for each `k` from
`1` to `n`. -/
theorem eta_at_every_arity {Γ : Context} {supply : Supply} {S : Binding → Prop} {f : Binding}
    {params : List (String × Term)} {B : Term} {k : Nat} (hΓ : Γ.FirstOrderOn S supply.next)
    (hS : S f) (hf : Γ.lookup f = some (.pis params B)) (hk : 1 ≤ k) (hkn : k ≤ params.length) :
    (∃ s, Ends (fun fuel => equate fuel Γ (.etaExpand k (.free f)) (.free f)
      (some (.pis params B))) { supply } (.ok true) s) ∧
    ∃ s, Ends (fun fuel => equate fuel Γ (.free f) (.etaExpand k (.free f))
      (some (.pis params B))) { supply } (.ok true) s := by
  classical
  obtain ⟨k, rfl⟩ := Nat.exists_eq_add_of_le' hk
  obtain ⟨T, hT, hTS⟩ := hΓ.binds f hS
  rw [hf] at hT
  cases hT
  obtain ⟨name, A, C, hpi, hC⟩ := (Term.takes_pis hkn B).exists_pi
  rw [hpi] at hf hTS ⊢
  have hspine : Spine (Γ.restrict S) (.free f) (.pi name A C) :=
    .head ((hΓ.agree.context f hS).symm.trans hf)
  have hbodies := hspine.bodies hΓ.comparable hC
  have hfree : (Term.free f).Over S := hS
  have hexpanded : (Term.etaExpand (k + 1) (.free f)).Over S := hfree.etaExpand (k + 1)
  exact ⟨hΓ.equate_of_restrict hexpanded hfree hTS.vars
      (hspine.equate_lam hΓ.comparable (.inl ⟨rfl, rfl⟩) hbodies),
    hΓ.equate_of_restrict hfree hexpanded hTS.vars
      (hspine.equate_lam hΓ.comparable (.inr ⟨rfl, rfl⟩) hbodies)⟩

/-- The parameters of `f` are a type, an element of it, and one of the same type again, which a
`let` gives another name. The entry of `g` is no type, and nobody asks for it. -/
theorem eta_at_every_arity_dependent :
    let c : Binding := ⟨0, "c"⟩
    let f : Binding := ⟨2, "f"⟩
    let params : List (String × Term) :=
      [("a", .type), ("x", .bound 0), ("y", .letIn "t" .type (.bound 1) (.bound 0))]
    let T : Term := .pi "a" .type (.pi "x" (.bound 0)
      (.pi "y" (.letIn "t" .type (.bound 1) (.bound 0)) (.free c)))
    let Γ : Context := { inner := [(c, .type), (⟨1, "g"⟩, .lam (.free ⟨7, "z"⟩)), (f, T)] }
    let S : Binding → Prop := fun b => b = c ∨ b = f
    let expanded : Term :=
      .lam (.lam (.lam (.app (.app (.app (.free f) (.bound 2)) (.bound 1)) (.bound 0))))
    Γ.FirstOrderOn S 3 ∧ S f ∧ Γ.lookup f = some (.pis params (.free c)) ∧ 3 ≤ params.length ∧
    (∃ s, Ends (fun fuel => equate fuel Γ expanded (.free f) (some T)) { supply := ⟨3⟩ } (.ok true)
      s) ∧
    ∃ s, Ends (fun fuel => equate fuel Γ (.free f) expanded (some T)) { supply := ⟨3⟩ } (.ok true)
      s := by
  intro c f params T Γ S expanded
  have hc : S c := .inl rfl
  have hS : S f := .inr rfl
  have hf : Γ.lookup f = some (.pis params (.free c)) := by decide
  have hkeys : ∀ b ∈ Γ.keys, b.id < 3 := by decide
  have hΓ : Γ.FirstOrderOn S 3 := by
    refine ⟨?_, fun b A hA => hkeys b (Scope.mem_keys.2 (Option.isSome_of_eq_some hA))⟩
    rintro b (rfl | rfl)
    · exact ⟨.type, by decide, ⟨trivial, trivial⟩, trivial⟩
    · refine ⟨T, by decide, ⟨by decide, ?_⟩, ?_⟩
      · exact ⟨trivial, trivial, ⟨trivial, trivial, trivial⟩, hc⟩
      · exact ⟨trivial, trivial, ⟨trivial, trivial, trivial⟩, trivial⟩
  have hlen : 3 ≤ params.length := by decide
  exact ⟨hΓ, hS, hf, hlen, eta_at_every_arity hΓ hS hf (by decide) hlen⟩

end DepLang
