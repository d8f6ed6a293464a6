import DepLang.Proofs.BinderReuse
import DepLang.Proofs.Footprint
import DepLang.Proofs.ScopeSafety

/-!
# A program by name never leaves its scope

Variables are looked up while an expression is elaborated, and again and again while types are
compared: under binders, behind the `let`s that were moved out of a type, and in types that were
found on the way. A program whose references are all names never gets a scope error from that. Its
names resolve to enclosing binders, and every variable that is met later is in the context or in the
definitions of the scope where it is met.

* `Check.Scoped x s Q`: a run of `x` from `s` ends in no scope error, and `Q` holds of what it
  answers. There is one rule for each way to build a computation.
* `Finds S E Γ s`: the variables in `S` are found in the context or in the store, and what is
  recorded of them does not lead out of `S`. It holds on under binders and peeled `let`s.
* `equate_scoped`: a comparison of terms over `S` meets variables in `S` only. The types that it
  finds for equal terms are over `S` as well, so they can be compared in turn.
* `elaborate_scoped`: the same for elaboration, where a binder must not bind what is in scope.
-/
namespace DepLang

/-- The error is about a variable that a scope lacks or that it has already. -/
def ElaborationError.isScope : ElaborationError → Bool
  | scope _ => true
  | unresolved _ | notAFunction _ _ | mismatch _ _ | unequal _ _ _ | incomparable _ _ | noRule _
  | notAType _ => false

open Check

/-! ## Computations without scope errors -/

/-- Whenever a run from the store ends, it ends in an answer and in a store that satisfy `Q`, or in
an error that is no scope error. -/
structure Check.Scoped {α : Type} (x : Check α) (s : Store) (Q : α → Store → Prop) : Prop where
  answer : ∀ a u, x.run s = some (.ok a, u) → Q a u
  error : ∀ e u, x.run s = some (.error e, u) → e.isScope = false

namespace Check.Scoped

variable {α β : Type} {x : Check α} {f : α → Check β} {s : Store} {P Q : α → Store → Prop}
  {R : β → Store → Prop}

theorem mono (h : x.Scoped s P) (hPQ : ∀ a u, P a u → Q a u) : x.Scoped s Q :=
  ⟨fun a u hrun => hPQ a u (h.answer a u hrun), h.error⟩

/-- Whatever is known of the answers of a run may be added. -/
theorem know (h : x.Scoped s P) (hQ : ∀ a u, x.run s = some (.ok a, u) → Q a u) : x.Scoped s Q :=
  ⟨hQ, h.error⟩

theorem pure {a : α} (h : P a s) : (pure a : Check α).Scoped s P := by
  refine ⟨fun b u hrun => ?_, fun e u hrun => absurd hrun pure_ne_error⟩
  obtain ⟨rfl, rfl⟩ := pure_eq_ok.1 hrun
  exact h

theorem fail {e : ElaborationError} (h : e.isScope = false) : (fail e : Check α).Scoped s P := by
  refine ⟨fun b u hrun => absurd hrun fail_ne_ok, fun e' u hrun => ?_⟩
  cases hrun
  exact h

theorem bind (hx : x.Scoped s P) (hf : ∀ a t, P a t → (f a).Scoped t R) :
    (x >>= f).Scoped s R := by
  refine ⟨fun b u hrun => ?_, fun e u hrun => ?_⟩
  · obtain ⟨a, t, ha, hb⟩ := bind_eq_ok.1 hrun
    exact (hf a t (hx.answer a t ha)).answer b u hb
  · rcases bind_eq_error.1 hrun with hrun | ⟨a, t, ha, hb⟩
    · exact hx.error e u hrun
    · exact (hf a t (hx.answer a t ha)).error e u hb

theorem lift {y : Reduction α} (h : ∀ a u, y s = some (a, u) → P a u) :
    (liftM y : Check α).Scoped s P :=
  ⟨fun a u hrun => h a u (lift_eq_ok.1 hrun), fun _ _ hrun => absurd hrun lift_ne_error⟩

theorem mint {name : String} {f : Binding → Check β}
    (h : (f (s.supply.mint name).1).Scoped { s with supply := (s.supply.mint name).2 } R) :
    (liftM (Reduction.mint name) >>= f : Check β).Scoped s R := by
  refine bind (lift fun b u hb => Reduction.mint_eq_some.1 hb) ?_
  rintro b u ⟨rfl, rfl⟩
  exact h

theorem locally (h : x.Scoped s.derive fun a u => P a { u with definitions := s.definitions }) :
    (locally x).Scoped s P := by
  refine ⟨fun a u hrun => ?_, fun e u hrun => ?_⟩
  · obtain ⟨t, ht, rfl⟩ := locally_eq_ok.1 hrun
    exact h.answer a t ht
  · obtain ⟨t, ht, -⟩ := Reduction.locally_eq_some.1 hrun
    exact h.error e t ht

theorem mapM {g : Term → Reduction Term} {ty : Option Term} {P : Option Term → Store → Prop}
    (hnone : P none s)
    (hsome : ∀ T, ty = some T → (liftM (g T) : Check Term).Scoped s fun U => P (some U)) :
    (liftM (ty.mapM g : Reduction (Option Term)) : Check (Option Term)).Scoped s P := by
  refine lift fun ty' u hrun => ?_
  cases ty with
  | none =>
    obtain ⟨rfl, rfl⟩ := Reduction.pure_eq_some.1 hrun
    exact hnone
  | some T =>
    obtain ⟨U, hU, rfl⟩ := Reduction.map_eq_some.1 hrun
    exact (hsome T rfl).answer U u (lift_eq_ok.2 hU)

theorem resolution {r : Except Unresolved α} (h : ∀ a, r = .ok a → (f a).Scoped s R) :
    (ofResolution r >>= f).Scoped s R := by
  refine bind (P := fun a t => r = .ok a ∧ t = s) ?_ fun a t ⟨ha, ht⟩ => ht ▸ h a ha
  cases r with
  | ok a => exact pure ⟨rfl, rfl⟩
  | error e => exact fail rfl

theorem insert {Γ : Context} {b : Binding} {A : Term} {f : Context → Check β}
    (hb : Γ.lookup b = none) (h : (f (Γ.bind b A)).Scoped s R) :
    (ofScope (Γ.insert b A) >>= f).Scoped s R := by
  refine bind (P := fun Δ t => Δ = Γ.bind b A ∧ t = s) ?_ fun Δ t ⟨hΔ, ht⟩ => hΔ ▸ ht ▸ h
  rw [Scope.insert_eq_ok.2 ⟨hb, rfl⟩]
  exact pure ⟨rfl, rfl⟩

theorem define {b : Binding} {d : Definition} {f : Unit → Check β}
    (hb : s.definitions.lookup b = none)
    (h : (f ()).Scoped { s with definitions := s.definitions.bind b d } R) :
    (define b d >>= f).Scoped s R := by
  refine bind (P := fun _ t => t = { s with definitions := s.definitions.bind b d }) ?_ ?_
  · refine ⟨fun a u hrun => ?_, fun e u hrun => ?_⟩
    · rw [define_of_none hb] at hrun
      cases hrun
      rfl
    · rw [define_of_none hb] at hrun
      cases hrun
  · rintro ⟨⟩ t rfl
    exact h

end Check.Scoped

/-! ## Variables that are found -/

/-- The variables in `S` are found in the context or in the store. What is recorded of them does not
lead out of `S`. -/
structure Finds (S : Binding → Prop) (E : Values) (Γ : Context) (s : Store) : Prop where
  records : Records S E Γ s
  found : ∀ b, S b → Recorded Γ s b

namespace Finds

variable {S : Binding → Prop} {E : Values} {Γ : Context} {s s' : Store}

theorem of_lookup (h : Finds S E Γ s) (hs : s.supply.next ≤ s'.supply.next)
    (hl : ∀ b, s'.definitions.lookup b = s.definitions.lookup b) : Finds S E Γ s' := by
  exact ⟨h.records.of_lookup hs hl, fun b hb => (h.found b hb).of_isSome (by rw [hl b])⟩

theorem derive (h : Finds S E Γ s) : Finds S E Γ s.derive :=
  h.of_lookup (Nat.le_refl _) s.lookup_derive

theorem restore (h : Finds S E Γ s) (hs : s.supply.next ≤ s'.supply.next) :
    Finds S E Γ { s' with definitions := s.definitions } :=
  h.of_lookup hs fun _ => rfl

theorem of_normalizes (h : Finds S E Γ s) {t u : Term} (hn : Normalizes t s u s') :
    Finds S E Γ s' := by
  exact ⟨h.records.of_normalizes hn,
    fun b hb => (h.found b hb).of_isSome (hn.ages.isSome_lookup b)⟩

theorem lookup_eq_none (h : Finds S E Γ s) {b : Binding} (hb : ¬ S b) :
    Γ.lookup b = none ∧ s.definitions.lookup b = none := by
  constructor
  · cases hA : Γ.lookup b with
    | none => rfl
    | some A => exact absurd (h.records.context b A hA).1 hb
  · cases hd : s.definitions.lookup b with
    | none => rfl
    | some d => exact absurd (h.records.definitions b d hd).1 hb

theorem exists_assumed (h : Finds S E Γ s) {b : Binding} (hb : S b)
    (hd : s.definitions.lookup b = none) : ∃ A, Γ.lookup b = some A := by
  rcases h.found b hb with hb | hb
  · exact Option.isSome_iff_exists.1 hb
  · simp [Scope.contains, hd] at hb

theorem assume (h : Finds S E Γ s) {b : Binding} {A : Term} (hbs : b.id < s.supply.next)
    (hb : ¬ S b) (hA : A.Within S) : Finds (fun c => c = b ∨ S c) E (Γ.bind b A) s := by
  refine ⟨h.records.assume hbs (h.lookup_eq_none hb).1 hA, fun c hc => ?_⟩
  by_cases hcb : c = b
  · exact .inl (Scope.isSome_lookup_bind (.inl hcb))
  · exact (h.found c (hc.resolve_left hcb)).imp_left fun hc => Scope.isSome_lookup_bind (.inr hc)

theorem mint (h : Finds S E Γ s) (name : String) {A : Term} (hA : A.Within S) :
    Finds (fun c => c = (s.supply.mint name).1 ∨ S c) E (Γ.bind (s.supply.mint name).1 A)
      { s with supply := (s.supply.mint name).2 } := by
  have hmint : Finds S E Γ { s with supply := (s.supply.mint name).2 } :=
    h.of_lookup (Nat.le_succ _) fun _ => rfl
  refine hmint.assume (Nat.lt_succ_self _) (fun hb => ?_) hA
  exact Nat.lt_irrefl _ (h.records.tracks.minted _ hb)

theorem define (h : Finds S E Γ s) {b : Binding} {d : Definition} (hbs : b.id < s.supply.next)
    (hb : ¬ S b) (hty : d.ty.Within S) (hvalue : d.value.Within S) :
    Finds (fun c => c = b ∨ S c) (E.define b d.value) Γ
      { s with definitions := s.definitions.derive.bind b d } := by
  have hnone := (h.lookup_eq_none hb).2
  have hderive : s.definitions.derive.lookup b = none := by rw [Scope.lookup_derive, hnone]
  refine ⟨h.records.define hnone (Nat.le_refl _) hbs (Scope.lookup_bind_self d hderive)
    (fun c hc => ?_) hty hvalue, fun c hc => ?_⟩
  · exact (Scope.lookup_bind_of_ne _ d hc).trans (Scope.lookup_derive _ c)
  · by_cases hcb : c = b
    · exact .inr (Scope.isSome_lookup_bind (.inl hcb))
    · refine (h.found c (hc.resolve_left hcb)).imp_right fun hc => ?_
      refine Scope.isSome_lookup_bind (.inr ?_)
      rwa [Scope.lookup_derive]

end Finds

theorem Telescope.Leads.subset {S T : Binding → Prop} {peeled : Telescope} (h : peeled.Leads S T) :
    ∀ b, S b → T b := by
  induction h with
  | nil => exact fun _ hb => hb
  | cons _ _ _ ih => exact fun b hb => ih b (.inr hb)

theorem Telescope.Leads.cases {S T : Binding → Prop} {peeled : Telescope} (h : peeled.Leads S T)
    {b : Binding} (hb : T b) : S b ∨ b ∈ peeled.map Prod.fst := by
  induction h with
  | nil => exact .inl hb
  | cons _ _ _ ih =>
    rcases ih hb with (rfl | hb) | hb
    · exact .inr (by simp)
    · exact .inl hb
    · exact .inr (List.mem_cons_of_mem _ hb)

theorem Peels.isSome_lookup_peeled {t u : Term} {peeled : Telescope} {s s' : Store}
    (h : Peels t s peeled u s') {b : Binding} (hb : b ∈ peeled.map Prod.fst) :
    (s'.definitions.lookup b).isSome = true := by
  induction h with
  | head => cases hb
  | peel _ hc hpeel ih =>
    rcases List.mem_cons.1 hb with rfl | hb
    · subst hc
      exact hpeel.isSome_lookup (Scope.isSome_lookup_bind (.inl rfl))
    · exact ih hb

theorem Peels.finds {t u : Term} {peeled : Telescope} {s s' : Store} (h : Peels t s peeled u s')
    {S : Binding → Prop} {E : Values} {Γ : Context} (hF : Finds S E Γ s) (ht : t.Within S) :
    ∃ T, peeled.Leads S T ∧ Finds T (E.enter peeled) Γ s' ∧ u.Within T := by
  obtain ⟨T, hleads, hR, hu⟩ := h.records hF.records ht
  refine ⟨T, hleads, ⟨hR, fun b hb => ?_⟩, hu⟩
  rcases hleads.cases hb with hb | hb
  · exact (hF.found b hb).imp_right h.isSome_lookup
  · exact .inr (h.isSome_lookup_peeled hb)

/-- The later store finds the same variables. -/
structure StillFinds (S : Binding → Prop) (E : Values) (Γ : Context) (s s' : Store) : Prop where
  finds : Finds S E Γ s'
  supply : s.supply.next ≤ s'.supply.next

theorem StillFinds.trans {S : Binding → Prop} {E : Values} {Γ : Context} {s s₁ s₂ : Store}
    (h₁ : StillFinds S E Γ s s₁) (h₂ : StillFinds S E Γ s₁ s₂) : StillFinds S E Γ s s₂ :=
  ⟨h₂.finds, Nat.le_trans h₁.supply h₂.supply⟩

/-! ## Comparisons -/

/-- A comparison of terms over variables that are found ends in no scope error. -/
def Comparison.Scoped (equal : Comparison) : Prop :=
  ∀ {S : Binding → Prop} {E : Values} {Γ : Context} {lhs rhs : Term} {ty : Option Term} {s : Store},
    Finds S E Γ s → lhs.Within S → rhs.Within S → (∀ T, ty = some T → T.Within S) →
    (equal Γ lhs rhs ty).Scoped s fun _ s' => StillFinds S E Γ s s'

section Rules

variable {S : Binding → Prop} {E : Values} {Γ : Context} {s : Store} (h : Finds S E Γ s)
include h

theorem Finds.refl : StillFinds S E Γ s s := ⟨h, Nat.le_refl _⟩

theorem typeOf_scoped {b : Binding} (hb : S b) :
    (typeOf Γ b).Scoped s fun A s' => A.Within S ∧ s' = s := by
  unfold typeOf
  refine .bind (.lift fun d t hd => Reduction.definition?_eq_some.1 hd) ?_
  rintro d t ⟨rfl, rfl⟩
  cases hd : t.definitions.lookup b with
  | some d => exact .pure ⟨(h.records.definitions b d hd).2, rfl⟩
  | none =>
    obtain ⟨A, hA⟩ := h.exists_assumed hb hd
    show (ofScope (Γ.get b)).Scoped t _
    rw [Scope.get, hA]
    exact .pure ⟨(h.records.context b A hA).2, rfl⟩

theorem whnf_scoped (fuel : Nat) {t : Term} (ht : t.Within S) :
    (liftM (whnf fuel t) : Check Term).Scoped s fun u s' => StillFinds S E Γ s s' ∧ u.Within S := by
  refine .lift fun u s' hrun => ?_
  have hn := normalizes_of_whnf hrun
  have hr := hn.reduces h.records.tracks ht.closed ht.vars
  exact ⟨⟨h.of_normalizes hn, hn.ages.supply⟩, hr.within h.records.tracks ht⟩

theorem peelLets_scoped (fuel : Nat) {t : Term} (ht : t.Within S) :
    (liftM (peelLets fuel t) : Check (Telescope × Term)).Scoped s fun r s' =>
      ∃ T F, r.1.Leads S T ∧ Finds T F Γ s' ∧ r.2.Within T ∧ s.supply.next ≤ s'.supply.next ∧
        ∀ entry ∈ r.1, s.supply.next ≤ entry.1.id := by
  refine .lift fun r s' hrun => ?_
  have hpeel := peels_of_peelLets hrun
  obtain ⟨T, hleads, hT, hu⟩ := hpeel.finds h ht
  exact ⟨T, _, hleads, hT, hu, hpeel.supply_le, hpeel.le_id⟩

theorem headUnderLets_scoped (fuel : Nat) {t : Term} (ht : t.Within S) :
    (liftM (headUnderLets fuel t) : Check Term).Scoped s fun u s' =>
      ∃ T F, (∀ b, S b → T b) ∧ Finds T F Γ s' ∧ u.Within T ∧
        s.supply.next ≤ s'.supply.next := by
  refine .lift fun u s' hrun => ?_
  obtain ⟨peeled, hpeel⟩ := peels_of_headUnderLets hrun
  obtain ⟨T, hleads, hT, hu⟩ := hpeel.finds h ht
  exact ⟨T, _, hleads.subset, hT, hu, hpeel.supply_le⟩

end Rules

namespace Comparison.Scoped

variable {fuel : Nat} {equal : Comparison} (hequal : equal.Scoped) {S : Binding → Prop} {E : Values}
  {Γ : Context} {lhs rhs : Term} {s : Store} (h : Finds S E Γ s)
include hequal h

theorem underBinder (name : String) {A B : Term} (hA : A.Within S)
    (hl : lhs.Within fun c => c = (s.supply.mint name).1 ∨ S c)
    (hr : rhs.Within fun c => c = (s.supply.mint name).1 ∨ S c)
    (hB : B.Within fun c => c = (s.supply.mint name).1 ∨ S c) :
    (locally (equal (Γ.bind (s.supply.mint name).1 A) lhs rhs (some B))).Scoped
      { s with supply := (s.supply.mint name).2 } fun _ s' => StillFinds S E Γ s s' := by
  refine .locally ((hequal (h.mint name hA).derive hl hr fun T hT => by cases hT; exact hB).mono ?_)
  intro same u hu
  have hle : s.supply.next ≤ u.supply.next := Nat.le_of_succ_le hu.supply
  exact ⟨h.restore hle, hle⟩

theorem formations (hl : lhs.Within S) (hr : rhs.Within S) :
    (compareFormations equal Γ lhs rhs).Scoped s fun found s' =>
      StillFinds S E Γ s s' ∧ ∀ U, found = some U → U.Within S := by
  have htype : ∀ {S : Binding → Prop} (U : Term), some Term.type = some U → U.Within S :=
    fun U hU => by cases hU; exact ⟨trivial, trivial⟩
  unfold compareFormations
  split
  · rename_i name A B name' A' B'
    obtain ⟨hA, hB⟩ := Term.within_pi.1 hl
    obtain ⟨hA', hB'⟩ := Term.within_pi.1 hr
    refine .bind (hequal h hA hA' htype) ?_
    intro same s₁ h₁
    split
    · refine .mint (.bind (underBinder hequal h₁.finds name hA (hB.openWith _) (hB'.openWith _)
        ⟨trivial, trivial⟩) ?_)
      intro same' s₂ h₂
      refine .pure ⟨h₁.trans h₂, fun U hU => ?_⟩
      cases same' with
      | true => exact htype U hU
      | false => cases hU
    · exact .pure ⟨h₁, nofun⟩
  · exact .pure ⟨h.refl, htype⟩
  · exact .pure ⟨h.refl, htype⟩
  · exact .pure ⟨h.refl, nofun⟩

/-- The `let`s of the type are put back around the type that is found. -/
theorem arguments {ty a a' : Term} (hty : ty.Within S) (ha : a.Within S) (ha' : a'.Within S) :
    (compareArguments fuel equal Γ ty a a').Scoped s fun found s' =>
      StillFinds S E Γ s s' ∧ ∀ U, found = some U → U.Within S := by
  unfold compareArguments
  refine .locally (.bind (peelLets_scoped h.derive fuel hty) ?_)
  rintro ⟨peeled, head⟩ s₁ ⟨T, F, hleads, hT, hhead, hs₁, -⟩
  have hrest : (pure none : Check (Option Term)).Scoped s₁ fun found u =>
      StillFinds S E Γ s { u with definitions := s.definitions } ∧
        ∀ U, found = some U → U.Within S :=
    .pure ⟨⟨h.restore hs₁, hs₁⟩, nofun⟩
  cases head with
  | pi name A B =>
    obtain ⟨hA, hB⟩ := Term.within_pi.1 hhead
    refine .bind (hequal hT (ha.mono hleads.subset) (ha'.mono hleads.subset)
      fun U hU => by cases hU; exact hA) ?_
    intro same s₂ h₂
    have hs₂ := Nat.le_trans hs₁ h₂.supply
    refine .pure ⟨⟨h.restore hs₂, hs₂⟩, fun U hU => ?_⟩
    cases same with
    | true =>
      cases hU
      exact hleads.wrap (hB.instantiate (ha.mono hleads.subset))
    | false => cases hU
  | _ => exact hrest

theorem heads (hl : lhs.Within S) (hr : rhs.Within S) :
    (compareHeads fuel equal Γ lhs rhs).Scoped s fun found s' =>
      StillFinds S E Γ s s' ∧ ∀ U, found = some U → U.Within S := by
  induction lhs generalizing rhs s with
  | pi | boolType | type => exact hequal.formations h hl hr
  | bound | lam | letIn => exact .fail rfl
  | bool value =>
    rw [compareHeads]
    refine .pure ⟨h.refl, fun U hU => ?_⟩
    split at hU
    · cases hU
      exact ⟨trivial, trivial⟩
    · cases hU
  | free b =>
    rw [compareHeads]
    split
    · refine .bind (typeOf_scoped h hl.vars) ?_
      rintro A t ⟨hA, rfl⟩
      refine .bind (whnf_scoped h fuel hA) ?_
      rintro B u ⟨hu, hB⟩
      exact .pure ⟨hu, fun U hU => by cases hU; exact hB⟩
    · exact .pure ⟨h.refl, fun U hU => by cases hU⟩
  | app f a ihf _ =>
    unfold compareHeads
    split
    · rename_i f' a'
      rw [Term.within_app] at hl hr
      refine .bind (ihf h hl.1 hr.1) ?_
      rintro found s₁ ⟨h₁, hfound⟩
      cases found with
      | none => exact .pure ⟨h₁, fun U hU => by cases hU⟩
      | some U =>
        refine (arguments hequal h₁.finds (hfound U rfl) hl.2 hr.2).mono ?_
        rintro found s₂ ⟨h₂, hfound⟩
        exact ⟨h₁.trans h₂, hfound⟩
    · exact .pure ⟨h.refl, fun U hU => by cases hU⟩

theorem headsOnly (hl : lhs.Within S) (hr : rhs.Within S) :
    (do return (← compareHeads fuel equal Γ lhs rhs).isSome : Check Bool).Scoped s
      fun _ s' => StillFinds S E Γ s s' :=
  .bind (hequal.heads h hl hr) fun _ _ hfound => .pure hfound.1

theorem spines (hl : lhs.Within S) (hr : rhs.Within S) :
    (compareSpines fuel equal Γ lhs rhs).Scoped s fun found s' =>
      StillFinds S E Γ s s' ∧ ∀ U, found = some U → U.Within S := by
  unfold compareSpines
  split
  · split
    · exact hequal.heads h hl hr
    · exact .pure ⟨h.refl, nofun⟩
  · exact .pure ⟨h.refl, nofun⟩

theorem bodies {name : String} {A B : Term} {left right : Binding → Term} (hA : A.Within S)
    (hB : (Term.lam B).Within S) (hl : ∀ b, (left b).Within fun c => c = b ∨ S c)
    (hr : ∀ b, (right b).Within fun c => c = b ∨ S c) :
    (compareBodies equal Γ name A B left right).Scoped s fun _ s' => StillFinds S E Γ s s' :=
  .mint (underBinder hequal h name hA (hl _) (hr _) (hB.openWith _))

theorem functions {name : String} {A B : Term} (hl : lhs.Within S) (hr : rhs.Within S)
    (hpi : (Term.pi name A B).Within S) :
    (compareAt fuel equal Γ lhs rhs (.pi name A B)).Scoped s fun _ s' => StillFinds S E Γ s s' := by
  obtain ⟨hA, hB⟩ := Term.within_pi.1 hpi
  have happ : ∀ {t : Term}, t.Within S → ∀ b, (Term.app t (.free b)).Within fun c => c = b ∨ S c :=
    fun ht _ => Term.within_app.2 ⟨ht.mono fun _ => .inr, trivial, .inl rfl⟩
  unfold compareAt
  dsimp only
  split
  · exact bodies hequal h hA hB hl.openWith hr.openWith
  · exact bodies hequal h hA hB hl.openWith (happ hr)
  · exact bodies hequal h hA hB hr.openWith (happ hl)
  · exact headsOnly hequal h hl hr

theorem atType {ty : Term} (hl : lhs.Within S) (hr : rhs.Within S) (hty : ty.Within S) :
    (compareAt fuel equal Γ lhs rhs ty).Scoped s fun _ s' => StillFinds S E Γ s s' := by
  by_cases hpi : ∃ name A B, ty = .pi name A B
  · obtain ⟨name, A, B, rfl⟩ := hpi
    exact functions hequal h hl hr hty
  unfold compareAt
  split
  · exact absurd ⟨_, _, _, rfl⟩ hpi
  · exact .fail rfl
  · exact headsOnly hequal h hl hr
  · refine .bind (hequal.heads h hl hr) ?_
    rintro found s₁ ⟨h₁, hfound⟩
    cases found with
    | some U =>
      exact (hequal h₁.finds hty (hfound U rfl) fun T hT => by cases hT).mono
        fun _ _ h₂ => h₁.trans h₂
    | none => exact .pure h₁

theorem normal {ty : Option Term} (hl : lhs.Within S) (hr : rhs.Within S)
    (hty : ∀ T, ty = some T → T.Within S) :
    (compareNormal fuel equal Γ lhs rhs ty).Scoped s fun _ s' => StillFinds S E Γ s s' := by
  cases ty with
  | none => exact headsOnly hequal h hl hr
  | some T => exact atType hequal h hl hr (hty T rfl)

/-- The `let`s around both terms and the type are moved into the store, one after the other. -/
theorem peeled {ty : Option Term} (hl : lhs.Within S) (hr : rhs.Within S)
    (hty : ∀ T, ty = some T → T.Within S) :
    (do
      let lhs ← headUnderLets fuel lhs
      let rhs ← headUnderLets fuel rhs
      let ty ← (ty.mapM (headUnderLets fuel) : Reduction (Option Term))
      compareNormal fuel equal Γ lhs rhs ty : Check Bool).Scoped s fun _ s' =>
        s.supply.next ≤ s'.supply.next := by
  refine .bind (headUnderLets_scoped h fuel hl) ?_
  rintro lhs₁ s₁ ⟨T, F, hST, hT, hl₁, hs₁⟩
  refine .bind (headUnderLets_scoped hT fuel (hr.mono hST)) ?_
  rintro rhs₁ s₂ ⟨U, G, hTU, hU, hr₁, hs₂⟩
  refine .bind (.mapM (P := fun ty' s' => ∃ V H, (∀ b, U b → V b) ∧ Finds V H Γ s' ∧
    (∀ A, ty' = some A → A.Within V) ∧ s₂.supply.next ≤ s'.supply.next) ?_ fun A hA => ?_) ?_
  · exact ⟨U, G, fun _ => id, hU, nofun, Nat.le_refl _⟩
  · refine (headUnderLets_scoped hU fuel (((hty A hA).mono hST).mono hTU)).mono ?_
    rintro B s' ⟨V, H, hUV, hV, hB, hs'⟩
    exact ⟨V, H, hUV, hV, fun C hC => by cases hC; exact hB, hs'⟩
  · rintro ty₁ s₃ ⟨V, H, hUV, hV, hty₁, hs₃⟩
    refine (normal hequal hV ((hl₁.mono hTU).mono hUV) (hr₁.mono hUV) hty₁).mono ?_
    intro same s₄ h₄
    have := h₄.supply
    omega

/-- Both terms and the type are reduced, and what is left is compared. -/
theorem reduced {ty : Option Term} (hl : lhs.Within S) (hr : rhs.Within S)
    (hty : ∀ T, ty = some T → T.Within S) :
    (compareReduced fuel equal Γ lhs rhs ty).Scoped s fun _ s' => StillFinds S E Γ s s' := by
  unfold compareReduced
  refine .bind (whnf_scoped h fuel hl) ?_
  rintro lhs₁ s₁ ⟨h₁, hl₁⟩
  refine .bind (whnf_scoped h₁.finds fuel hr) ?_
  rintro rhs₁ s₂ ⟨h₂, hr₁⟩
  refine .bind (.mapM (P := fun ty' s' => StillFinds S E Γ s₂ s' ∧ ∀ T, ty' = some T → T.Within S)
    ⟨h₂.finds.refl, nofun⟩ fun A hA => ?_) ?_
  · refine (whnf_scoped h₂.finds fuel (hty A hA)).mono ?_
    rintro B s' ⟨hs', hB⟩
    exact ⟨hs', fun C hC => by cases hC; exact hB⟩
  · rintro ty₁ s₃ ⟨h₃, hty₁⟩
    have hstill := (h₁.trans h₂).trans h₃
    split
    · refine .locally ((peeled hequal h₃.finds.derive hl₁ hr₁ hty₁).mono ?_)
      intro same s₄ hs₄
      exact hstill.trans ⟨h₃.finds.restore hs₄, hs₄⟩
    · exact (normal hequal h₃.finds hl₁ hr₁ hty₁).mono fun _ _ h₄ => hstill.trans h₄

end Comparison.Scoped

/-- **Comparisons meet variables in scope only**, with any fuel. -/
theorem equate_scoped (fuel : Nat) : (equate fuel).Scoped := by
  induction fuel with
  | zero =>
    intro S E Γ lhs rhs ty s _ _ _ _
    refine ⟨fun _ _ hrun => ?_, fun _ _ hrun => ?_⟩
    · cases hrun
    · cases hrun
  | succ fuel ih =>
    intro S E Γ lhs rhs ty s h hl hr hty
    rw [equate]
    refine .bind (ih.spines h hl hr) ?_
    rintro found s₁ ⟨h₁, hfound⟩
    cases found with
    | none => exact (ih.reduced h₁.finds hl hr hty).mono fun _ _ h₂ => h₁.trans h₂
    | some U =>
      cases ty with
      | none => exact .pure h₁
      | some T =>
        exact (ih h₁.finds (hfound U rfl) (hty T rfl) fun _ hA => by cases hA).mono
          fun _ _ h₂ => h₁.trans h₂

/-! ## Elaborations -/

namespace Expr

/-- Every reference is by name. Forms without an elaboration rule are not looked into. -/
def ByName : Expr → Prop
  | ref _ => False
  | pi _ domain codomain => ByName domain ∧ ByName codomain
  | lam _ body => ByName body
  | app function argument => ByName function ∧ ByName argument
  | letIn _ ty value body => ByName ty ∧ ByName value ∧ ByName body
  | type | boolType | bool _ | name _ | sigma _ _ | tuple _ => True

/-- Every reference is to a variable of `scope` or to an enclosing binder. Forms without an
elaboration rule are not looked into. -/
def RefersTo (scope : Binding → Prop) : Expr → Prop
  | ref b => scope b
  | pi b domain codomain => RefersTo scope domain ∧ RefersTo (fun c => c = b ∨ scope c) codomain
  | lam b body => RefersTo (fun c => c = b ∨ scope c) body
  | app function argument => RefersTo scope function ∧ RefersTo scope argument
  | letIn b ty value body =>
    RefersTo scope ty ∧ RefersTo scope value ∧ RefersTo (fun c => c = b ∨ scope c) body
  | type | boolType | bool _ | name _ | sigma _ _ | tuple _ => True

/-- Names resolve to visible variables and to enclosing binders. -/
theorem ResolvedTo.refersTo {e e' : Expr} {visible : Visible} (h : ResolvedTo visible e e')
    (he : e.ByName) {scope : Binding → Prop} (hv : ∀ b ∈ visible, scope b) : e'.RefersTo scope := by
  have hcons : ∀ {visible : Visible} {scope : Binding → Prop}, (∀ b ∈ visible, scope b) →
      ∀ b, ∀ c ∈ [b] ++ visible, c = b ∨ scope c :=
    fun hv b c hc => (List.mem_cons.1 hc).imp_right (hv c)
  induction h using ResolvedTo.induction generalizing scope with
  | name hb => exact hv _ hb.mem
  | @node visible e e' _ _ hlabel _ ih =>
    cases e with
    | type | boolType | bool | name =>
      cases e' <;> cases hlabel
      trivial
    | ref => exact he.elim
    | pi b domain codomain =>
      cases e' <;> cases hlabel
      exact ⟨ih 0 [] _ _ rfl rfl he.1 hv, ih 1 [b] _ _ rfl rfl he.2 (hcons hv b)⟩
    | lam b body =>
      cases e' <;> cases hlabel
      exact ih 0 [b] _ _ rfl rfl he (hcons hv b)
    | app function argument =>
      cases e' <;> cases hlabel
      exact ⟨ih 0 [] _ _ rfl rfl he.1 hv, ih 1 [] _ _ rfl rfl he.2 hv⟩
    | letIn b ty value body =>
      cases e' <;> cases hlabel
      exact ⟨ih 0 [] _ _ rfl rfl he.1 hv, ih 1 [] _ _ rfl rfl he.2.1 hv,
        ih 2 [b] _ _ rfl rfl he.2.2 (hcons hv b)⟩
    | sigma | tuple =>
      cases e' with
      | sigma | tuple => trivial
      | _ => cases hlabel

end Expr

/-- The binders that have been `seen` are in scope, and everything else in scope has an identity from
`n` on. -/
structure Surrounds (S seen : Binding → Prop) (n : Nat) : Prop where
  found : ∀ b, seen b → S b
  known : ∀ b, S b → seen b ∨ n ≤ b.id

namespace Surrounds

variable {S T seen : Binding → Prop} {n : Nat}

theorem not_mem (h : Surrounds S seen n) {b : Binding} (hb : ¬ seen b) (hlt : b.id < n) : ¬ S b :=
  fun hS => (h.known b hS).elim hb (by omega)

theorem bind (h : Surrounds S seen n) (b : Binding) :
    Surrounds (fun c => c = b ∨ S c) (fun c => c = b ∨ seen c) n where
  found c hc := hc.imp_right (h.found c)
  known c hc := by
    rcases hc with hc | hc
    · exact .inl (.inl hc)
    · exact (h.known c hc).imp_left .inr

theorem leads (h : Surrounds S seen n) {peeled : Telescope} (hleads : peeled.Leads S T)
    (hnew : ∀ entry ∈ peeled, n ≤ entry.1.id) : Surrounds T seen n where
  found b hb := hleads.subset b (h.found b hb)
  known b hb := by
    rcases hleads.cases hb with hb | hb
    · exact h.known b hb
    · obtain ⟨entry, hentry, rfl⟩ := List.mem_map.1 hb
      exact .inr (hnew entry hentry)

end Surrounds

section Elaboration

variable (fuel : Nat) {S : Binding → Prop} {E : Values} {Γ : Context} {s s' : Store}

theorem Finds.of_restores (h : Finds S E Γ s) (hs : s.Restores s') : Finds S E Γ s' :=
  h.of_lookup hs.supply fun b => by rw [hs.definitions]

theorem conclude_scoped (h : Finds S E Γ s) {mode : Mode} {inferred : Annotated}
    (hty : inferred.ty.Within S) (hmode : ∀ T, mode.expected? = some T → T.Within S) :
    (conclude fuel Γ mode inferred).Scoped s fun _ _ => True := by
  unfold conclude
  cases hT : mode.expected? with
  | none => exact .pure trivial
  | some T =>
    refine .bind (P := fun _ _ => True) ?_ fun _ _ _ => .pure trivial
    refine .bind (P := fun _ _ => True) (.locally ((equate_scoped fuel h.derive hty (hmode T hT)
      fun U hU => by cases hU; exact ⟨trivial, trivial⟩).mono fun _ _ _ => trivial))
      fun same s' _ => ?_
    cases same with
    | true => exact .pure trivial
    | false => exact .fail rfl

theorem concludeFormation_scoped (h : Finds S E Γ s) {mode : Mode} (former : Term)
    (hmode : ∀ T, mode.expected? = some T → T.Within S) :
    (concludeFormation fuel Γ mode former).Scoped s fun _ _ => True := by
  unfold concludeFormation
  split
  · exact .pure trivial
  · exact conclude_scoped fuel h ⟨trivial, trivial⟩ hmode

end Elaboration

/-- The expression fits the variables in scope. References are to binders that have been `seen` and
to enclosing ones, no binder of the expression is in scope already, and what is expected is over the
variables in scope. -/
structure Expr.Fits (S : Binding → Prop) (E : Values) (Γ : Context) (mode : Mode) (s : Store)
    (n : Nat) (seen : Binding → Prop) (e : Expr) : Prop where
  finds : Finds S E Γ s
  supply : n ≤ s.supply.next
  below : e.Below n
  distinct : e.Distinct seen
  refersTo : e.RefersTo seen
  surrounds : Surrounds S seen n
  expected : ∀ T, mode.expected? = some T → T.Within S

/-- Elaborating the expression meets variables in scope only. What is elaborated is over these, as it
is in every success. -/
def ElaboratesScoped (fuel n : Nat) (e : Expr) : Prop :=
  ∀ ⦃S : Binding → Prop⦄ ⦃E : Values⦄ ⦃Γ : Context⦄ ⦃mode : Mode⦄ ⦃s : Store⦄
    ⦃seen : Binding → Prop⦄, e.Fits S E Γ mode s n seen →
    (elaborate fuel Γ mode e).Scoped s fun r s' => r.Within S ∧ s.Restores s'

namespace ElaboratesScoped

variable {fuel n : Nat} {e : Expr} {b : Binding}

theorem of_scoped (h : ∀ ⦃S : Binding → Prop⦄ ⦃E : Values⦄ ⦃Γ : Context⦄ ⦃mode : Mode⦄ ⦃s : Store⦄
    ⦃seen : Binding → Prop⦄, e.Fits S E Γ mode s n seen →
    (elaborate fuel Γ mode e).Scoped s fun _ _ => True) : ElaboratesScoped fuel n e :=
  fun _ _ _ _ _ _ hfits => (h hfits).know fun _ _ hrun =>
    ⟨(elaborates_of_run e hrun).within hfits.finds.records hfits.supply hfits.below hfits.expected,
      (elaborate_restores ..).run hrun⟩

theorem pi {domain codomain : Expr} (ihA : ElaboratesScoped fuel n domain)
    (ihB : ElaboratesScoped fuel n codomain) : ElaboratesScoped fuel n (.pi b domain codomain) := by
  refine .of_scoped ?_
  rintro S E Γ mode s seen ⟨h, hn, hb, hd, hr, hS, hmode⟩
  rw [elaborate]
  refine .bind (ihA ⟨h, hn, hb.2.1, hd.1, hr.1, hS, Mode.type_within⟩) ?_
  rintro A s₁ ⟨hA, hs₁⟩
  have h₁ := h.of_restores hs₁
  have hn₁ := Nat.le_trans hn hs₁.supply
  have hfresh := hS.not_mem hd.2.1 hb.1
  have hinner := h₁.assume (Nat.lt_of_lt_of_le hb.1 hn₁) hfresh hA.term
  refine .insert (h₁.lookup_eq_none hfresh).1
    (.bind (ihB ⟨hinner, hn₁, hb.2.2, hd.2.2, hr.2, hS.bind b, Mode.type_within⟩) ?_)
  rintro B s₂ ⟨-, hs₂⟩
  exact concludeFormation_scoped fuel (h₁.of_restores hs₂) _ hmode

theorem lam {body : Expr} (ih : ElaboratesScoped fuel n body) :
    ElaboratesScoped fuel n (.lam b body) := by
  refine .of_scoped ?_
  rintro S E Γ mode s seen ⟨h, hn, hb, hd, hr, hS, hmode⟩
  rw [elaborate]
  cases hT : mode.expected? with
  | none => exact .fail rfl
  | some T =>
    refine .locally (.bind (peelLets_scoped h.derive fuel (hmode T hT)) ?_)
    rintro ⟨peeled, head⟩ s₁ ⟨U, F, hleads, hU, hhead, hs₁, hnew⟩
    have hn₁ := Nat.le_trans hn hs₁
    have hSU := hS.leads hleads fun entry hentry => Nat.le_trans hn (hnew entry hentry)
    have hfresh := hSU.not_mem hd.1 hb.1
    cases head with
    | pi name A B =>
      obtain ⟨hA, hB⟩ := Term.within_pi.1 hhead
      have hinner := hU.assume (Nat.lt_of_lt_of_le hb.1 hn₁) hfresh hA
      have hbody := ih ⟨hinner, hn₁, hb.2, hd.2, hr, hSU.bind b,
        Mode.check_within (hB.openWith b)⟩
      exact .insert (hU.lookup_eq_none hfresh).1 (.bind hbody fun _ _ _ => .pure trivial)
    | _ => exact .fail rfl

theorem app {function argument : Expr} (ihf : ElaboratesScoped fuel n function)
    (iha : ElaboratesScoped fuel n argument) :
    ElaboratesScoped fuel n (.app function argument) := by
  refine .of_scoped ?_
  rintro S E Γ mode s seen ⟨h, hn, hb, hd, hr, hS, hmode⟩
  rw [elaborate]
  refine .bind (ihf ⟨h, hn, hb.1, hd.1, hr.1, hS, fun _ hC => by cases hC⟩) ?_
  rintro f s₁ ⟨hf, hs₁⟩
  have h₁ := h.of_restores hs₁
  have hn₁ := Nat.le_trans hn hs₁.supply
  refine .bind (P := fun r s' => r.ty.Within S ∧ s₁.Restores s') (.locally (.bind
    (peelLets_scoped h₁.derive fuel hf.ty) ?_)) fun r s₂ hrs =>
      conclude_scoped fuel (h₁.of_restores hrs.2) hrs.1 hmode
  rintro ⟨peeled, head⟩ s₂ ⟨U, F, hleads, hU, hhead, hs₂, hnew⟩
  have hSU := hS.leads hleads fun entry hentry => Nat.le_trans hn₁ (hnew entry hentry)
  cases head with
  | pi name A B =>
    obtain ⟨hA, hB⟩ := Term.within_pi.1 hhead
    refine .bind (iha ⟨hU, Nat.le_trans hn₁ hs₂, hb.2, hd.2, hr.2, hSU,
      Mode.check_within hA⟩) ?_
    rintro a s₃ ⟨ha, hs₃⟩
    exact .pure ⟨hleads.wrap (hB.instantiate ha.term), rfl,
      Nat.le_trans hs₂ hs₃.supply⟩
  | _ => exact .fail rfl

theorem letIn {ty value body : Expr} (ihA : ElaboratesScoped fuel n ty)
    (ihv : ElaboratesScoped fuel n value) (ihe : ElaboratesScoped fuel n body) :
    ElaboratesScoped fuel n (.letIn b ty value body) := by
  refine .of_scoped ?_
  rintro S E Γ mode s seen ⟨h, hn, hb, hd, hr, hS, hmode⟩
  rw [elaborate]
  refine .bind (ihA ⟨h, hn, hb.2.1, hd.1, hr.1, hS, Mode.type_within⟩) ?_
  rintro A s₁ ⟨hA, hs₁⟩
  have h₁ := h.of_restores hs₁
  have hn₁ := Nat.le_trans hn hs₁.supply
  refine .bind (ihv ⟨h₁, hn₁, hb.2.2.1, hd.2.1, hr.2.1, hS, Mode.check_within hA.term⟩) ?_
  rintro v s₂ ⟨hv, hs₂⟩
  have h₂ := h₁.of_restores hs₂
  have hn₂ := Nat.le_trans hn₁ hs₂.supply
  have hfresh := hS.not_mem hd.2.2.1 hb.1
  have hinner := h₂.define (d := ⟨v.term, A.term⟩) (Nat.lt_of_lt_of_le hb.1 hn₂) hfresh hA.term
    hv.term
  refine .bind (P := fun _ _ => True)
    (.locally (.define (h₂.derive.lookup_eq_none hfresh).2 ?_)) fun _ _ _ => .pure trivial
  exact (ihe ⟨hinner, hn₂, hb.2.2.2, hd.2.2.2, hr.2.2, hS.bind b,
    fun T hT => (hmode T hT).mono fun _ => .inr⟩).mono fun _ _ _ => trivial

end ElaboratesScoped

/-- **Elaborations meet variables in scope only.** -/
theorem elaborate_scoped (fuel : Nat) {n : Nat} (e : Expr) : ElaboratesScoped fuel n e := by
  cases e with
  | type | boolType =>
    exact .of_scoped fun _ _ _ _ _ _ h => concludeFormation_scoped fuel h.finds _ h.expected
  | bool =>
    exact .of_scoped fun _ _ _ _ _ _ h =>
      conclude_scoped fuel h.finds ⟨trivial, trivial⟩ h.expected
  | ref b =>
    refine .of_scoped fun S E Γ mode s seen h => ?_
    rw [elaborate]
    refine .bind (typeOf_scoped h.finds (h.surrounds.found b h.refersTo)) ?_
    rintro A s₁ ⟨hA, rfl⟩
    exact conclude_scoped fuel h.finds hA h.expected
  | pi b domain codomain =>
    exact (elaborate_scoped fuel domain).pi (elaborate_scoped fuel codomain)
  | lam b body => exact (elaborate_scoped fuel body).lam
  | app function argument =>
    exact (elaborate_scoped fuel function).app (elaborate_scoped fuel argument)
  | letIn b ty value body =>
    exact (elaborate_scoped fuel ty).letIn (elaborate_scoped fuel value) (elaborate_scoped fuel body)
  | name | sigma | tuple =>
    refine .of_scoped fun S E Γ mode s seen _ => ?_
    rw [elaborate]
    exact .fail rfl

/-! ## Closed expressions -/

/-- **A program by name gets no scope error.** If every reference of an expression and of its type is
by name, and no binder stands in the scope of the same binder, then elaborating the one against the
other never fails for a variable that is not in scope or is bound already, whatever it ends in. The
binders have been minted before. -/
theorem by_name_stays_in_scope {fuel n : Nat} {e ty : Expr} {s : Store}
    {result : Except ElaborationError Annotated} (he : e.ByName) (hty : ty.ByName)
    (heb : e.Below n) (htb : ty.Below n) (hed : e.Distinct fun _ => False)
    (htd : ty.Distinct fun _ => False)
    (h : (elaborateClosed fuel e ty).run { supply := ⟨n⟩ } = some (result, s)) :
    ∀ error, result ≠ .error (.scope error) := by
  have hvisible : ∀ {P : Binding → Prop}, ∀ b ∈ ([] : Visible), P b := by simp
  have hF : Finds (Recorded {} { supply := ⟨n⟩ }) _ {} { supply := ⟨n⟩ } :=
    ⟨(ScopeClosed.empty n).records, fun _ hb => hb⟩
  have hS : Surrounds (Recorded {} { supply := ⟨n⟩ }) (fun _ => False) n :=
    ⟨fun _ hb => hb.elim, fun b hb => absurd hb (not_recorded_empty ⟨n⟩ b)⟩
  have hscoped : (elaborateClosed fuel e ty).Scoped { supply := ⟨n⟩ } fun _ _ => True := by
    refine .resolution fun e' he' => .resolution fun ty' hty' => ?_
    obtain ⟨heb', hed'⟩ := e.resolve_keeps he' hvisible heb hed
    obtain ⟨htb', htd'⟩ := ty.resolve_keeps hty' hvisible htb htd
    have htype : (elaborate fuel {} .type ty').Scoped { supply := ⟨n⟩ } fun A s' =>
        A.Within (Recorded {} { supply := ⟨n⟩ }) ∧ Store.Restores { supply := ⟨n⟩ } s' :=
      elaborate_scoped fuel ty' ⟨hF, Nat.le_refl _, htb', htd',
        ((ty.resolve_eq_ok_iff _ _).1 hty').refersTo hty hvisible, hS, Mode.type_within⟩
    refine .bind (.bind htype fun T s₁ hT =>
      .pure (P := fun A s' => Term.Within _ A ∧ Store.Restores _ s') ⟨hT.1.term, hT.2⟩) ?_
    rintro T s₁ ⟨hT, hs₁⟩
    have hterm : (elaborate fuel {} (.check T) e').Scoped s₁ fun r s' =>
        r.Within (Recorded {} { supply := ⟨n⟩ }) ∧ s₁.Restores s' :=
      elaborate_scoped fuel e' ⟨hF.of_restores hs₁, hs₁.supply, heb', hed',
        ((e.resolve_eq_ok_iff _ _).1 he').refersTo he hvisible, hS, Mode.check_within hT⟩
    exact .bind (.bind hterm fun _ _ _ => .pure (P := fun _ _ => True) trivial)
      fun _ _ _ => .pure trivial
  rintro error rfl
  exact absurd (hscoped.error _ _ h) (by simp [ElaborationError.isScope])

/-- The types `P true` and `P false` are compared where `P` has a function type under a `let`. `P` is
looked up on the way, and the comparison fails for another reason. -/
theorem by_name_stays_in_scope_unequal :
    let e : Expr := .lam ⟨0, "P"⟩ (.lam ⟨1, "p"⟩ (.name "p"))
    let ty : Expr := .pi ⟨2, "P"⟩
      (.letIn ⟨3, "B"⟩ .type .boolType (.pi ⟨4, "x"⟩ (.name "B") .type))
      (.pi ⟨5, "p"⟩ (.app (.name "P") (.bool true)) (.app (.name "P") (.bool false)))
    ∃ error s, (elaborateClosed 12 e ty).run { supply := ⟨6⟩ } = some (.error error, s) ∧
      ∀ scope, error ≠ .scope scope := by
  intro e ty
  have hrun : ((elaborateClosed 12 e ty).run { supply := ⟨6⟩ }).map (·.1.isOk) = some false := by
    decide +kernel
  obtain ⟨⟨result, s⟩, h, hresult⟩ := Option.map_eq_some_iff.1 hrun
  cases result with
  | ok r => cases hresult
  | error error =>
    have hscope := by_name_stays_in_scope (by simp [e, Expr.ByName]) (by simp [ty, Expr.ByName])
      (by simp [e, Expr.Below, Expr.All]) (by simp [ty, Expr.Below, Expr.All])
      (by simp [e, Expr.Distinct]) (by simp [ty, Expr.Distinct]) h
    exact ⟨error, s, h, fun scope heq => hscope scope (by rw [heq])⟩

end DepLang
