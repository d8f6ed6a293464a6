import DepLang.Elaboration
import DepLang.Proofs.Conversion

/-!
# What elaboration does

`Elaborates Γ mode s e r s'` is `elaborate` as a relation: in the context `Γ` and the mode `mode`,
the expression `e` elaborates to the term and type `r`, and the store goes from `s` to `s'`. It has
one rule for each form of expression and no fuel. Every run of `elaborate` that ends in an answer is
a derivation (`elaborates_of_run`), so a property of elaboration is proved by induction on
derivations, one case for each rule, and never opens a run again.

Of a comparison the relation keeps what `Compared` says: the store keeps what it knows, and what
was found equal is convertible.
-/
namespace DepLang

open Check

/-- How the elaboration of an expression ends whose type was inferred: nothing was expected, or what
was expected is there already, or the two types were found to be equal. -/
inductive Concludes (mode : Mode) (inferred : Annotated) (s : Store) :
    Annotated → Store → Prop where
  | inferred : mode.expected? = none → Concludes mode inferred s inferred s
  | expected : mode.expected? = some inferred.ty → Concludes mode inferred s inferred s
  | unified {T : Term} {s' : Store} : mode.expected? = some T →
      Compared inferred.ty T s s' True → s'.definitions = s.definitions →
      Concludes mode inferred s ⟨inferred.term, T⟩ s'

/-- `elaborate` as a relation. -/
inductive Elaborates : Context → Mode → Store → Expr → Annotated → Store → Prop where
  | type {Γ : Context} {mode : Mode} {r : Annotated} {s s' : Store} :
      Concludes mode ⟨.type, .type⟩ s r s' → Elaborates Γ mode s .type r s'
  | boolType {Γ : Context} {mode : Mode} {r : Annotated} {s s' : Store} :
      Concludes mode ⟨.boolType, .type⟩ s r s' → Elaborates Γ mode s .boolType r s'
  | bool {Γ : Context} {mode : Mode} {value : Bool} {r : Annotated} {s s' : Store} :
      Concludes mode ⟨.bool value, .boolType⟩ s r s' → Elaborates Γ mode s (.bool value) r s'
  | pi {Γ : Context} {mode : Mode} {b : Binding} {domain codomain : Expr} {A B r : Annotated}
      {s s₁ s₂ s₃ : Store} : Elaborates Γ .type s domain A s₁ → Γ.lookup b = none →
      Elaborates (Γ.bind b A.term) .type s₁ codomain B s₂ →
      Concludes mode ⟨.pi b.name A.term (B.term.close b), .type⟩ s₂ r s₃ →
      Elaborates Γ mode s (.pi b domain codomain) r s₃
  | lam {Γ : Context} {mode : Mode} {b : Binding} {body : Expr} {T A B : Term} {name : String}
      {peeled : Telescope} {r : Annotated} {s s₁ s₂ : Store} : mode.expected? = some T →
      Peels T s.derive peeled (.pi name A B) s₁ → Γ.lookup b = none →
      Elaborates (Γ.bind b A) (.check (B.openWith b)) s₁ body r s₂ →
      Elaborates Γ mode s (.lam b body) ⟨peeled.wrap (.lam (r.term.close b)), T⟩
        { s₂ with definitions := s.definitions }
  | app {Γ : Context} {mode : Mode} {function argument : Expr} {A B : Term} {name : String}
      {peeled : Telescope} {f a r : Annotated} {s s₁ s₂ s₃ s₄ : Store} :
      Elaborates Γ .infer s function f s₁ → Peels f.ty s₁.derive peeled (.pi name A B) s₂ →
      Elaborates Γ (.check A) s₂ argument a s₃ →
      Concludes mode
        ⟨.app f.term (peeled.wrap a.term), peeled.wrap (B.instantiate a.term)⟩
        { s₃ with definitions := s₁.definitions } r s₄ →
      Elaborates Γ mode s (.app function argument) r s₄
  | ref {Γ : Context} {mode : Mode} {b : Binding} {T : Term} {r : Annotated} {s s' : Store} :
      ((s.definitions.lookup b).map Definition.ty).or (Γ.lookup b) = some T →
      Concludes mode ⟨.free b, T⟩ s r s' → Elaborates Γ mode s (.ref b) r s'
  | letIn {Γ : Context} {mode : Mode} {b : Binding} {ty value body : Expr} {A v r : Annotated}
      {s s₁ s₂ s₃ : Store} : Elaborates Γ .type s ty A s₁ →
      Elaborates Γ (.check A.term) s₁ value v s₂ → s₂.definitions.lookup b = none →
      Elaborates Γ mode
        { s₂ with definitions := s₂.definitions.derive.bind b ⟨v.term, A.term⟩ } body r s₃ →
      Elaborates Γ mode s (.letIn b ty value body)
        ⟨.makeLet b A.term v.term r.term, .makeLet b A.term v.term r.ty⟩
        { s₃ with definitions := s₂.definitions }

/-! ## Runs are derivations -/

variable {fuel : Nat} {Γ : Context} {mode : Mode} {s s' : Store}

theorem typeOf_eq_some {b : Binding} {T : Term} (h : (typeOf Γ b).run s = some (.ok T, s')) :
    ((s.definitions.lookup b).map Definition.ty).or (Γ.lookup b) = some T ∧ s' = s := by
  refine ⟨?_, typeOf_eq_ok h⟩
  unfold typeOf at h
  obtain ⟨d, s₁, hd, h⟩ := bind_eq_ok.1 h
  obtain ⟨rfl, rfl⟩ := Reduction.definition?_eq_some.1 (lift_eq_ok.1 hd)
  split at h
  · rename_i d hd
    rw [hd, (pure_eq_ok.1 h).1.symm]
    rfl
  · rename_i hd
    have hget := (ofScope_eq_ok.1 h).1
    rw [hd]
    unfold Scope.get at hget
    split at hget
    · rename_i hA
      cases hget
      exact hA
    · cases hget

theorem unify_compared {lhs rhs : Term} {ty : Option Term} {u : Unit}
    (h : (unify fuel Γ lhs rhs ty).run s = some (.ok u, s')) :
    Compared lhs rhs s s' True ∧ s'.definitions = s.definitions := by
  unfold unify at h
  obtain ⟨same, s₁, hsame, h⟩ := bind_eq_ok.1 h
  obtain ⟨t, hinner, rfl⟩ := locally_eq_ok.1 hsame
  have hc := (equate_sound fuel hinner).restore
  split at h
  · rename_i htrue
    obtain ⟨-, rfl⟩ := pure_eq_ok.1 h
    exact ⟨hc.weaken fun _ => htrue, rfl⟩
  · exact absurd h fail_ne_ok

theorem concludes_of_conclude {inferred r : Annotated}
    (h : (conclude fuel Γ mode inferred).run s = some (.ok r, s')) :
    Concludes mode inferred s r s' := by
  unfold conclude at h
  split at h
  · rename_i hnone
    obtain ⟨rfl, rfl⟩ := pure_eq_ok.1 h
    exact .inferred hnone
  · rename_i T hT
    obtain ⟨u, s₁, hu, h⟩ := bind_eq_ok.1 h
    obtain ⟨rfl, rfl⟩ := pure_eq_ok.1 h
    obtain ⟨hc, hd⟩ := unify_compared hu
    exact .unified hT hc hd

theorem concludes_of_concludeFormation {former : Term} {r : Annotated}
    (h : (concludeFormation fuel Γ mode former).run s = some (.ok r, s')) :
    Concludes mode ⟨former, .type⟩ s r s' := by
  unfold concludeFormation at h
  split at h
  · obtain ⟨rfl, rfl⟩ := pure_eq_ok.1 h
    exact .expected rfl
  · exact concludes_of_conclude h

/-- Every run of `elaborate` that ends in an answer is a derivation. -/
theorem elaborates_of_run (e : Expr) {Γ : Context} {mode : Mode} {s s' : Store} {r : Annotated}
    (h : (elaborate fuel Γ mode e).run s = some (.ok r, s')) : Elaborates Γ mode s e r s' := by
  cases e with
  | type => exact .type (concludes_of_concludeFormation h)
  | boolType => exact .boolType (concludes_of_concludeFormation h)
  | bool value => exact .bool (concludes_of_conclude h)
  | pi b domain codomain =>
    rw [elaborate] at h
    obtain ⟨A, s₁, hA, h⟩ := bind_eq_ok.1 h
    obtain ⟨inner, s₂, hinsert, h⟩ := bind_eq_ok.1 h
    obtain ⟨B, s₃, hB, h⟩ := bind_eq_ok.1 h
    have hconcl := concludes_of_concludeFormation h
    obtain ⟨hfresh, rfl, rfl⟩ := insert_eq_ok.1 hinsert
    exact .pi (elaborates_of_run domain hA) hfresh (elaborates_of_run codomain hB) hconcl
  | lam b body =>
    rw [elaborate] at h
    split at h
    · exact absurd h fail_ne_ok
    · rename_i T hT
      obtain ⟨t, hinner, rfl⟩ := locally_eq_ok.1 h
      obtain ⟨⟨peeled, head⟩, s₁, hpeel, h⟩ := bind_eq_ok.1 hinner
      have hpeel := peels_of_peelLets (lift_eq_ok.1 hpeel)
      split at h
      · rename_i heq
        obtain ⟨inner, s₂, hinsert, h⟩ := bind_eq_ok.1 h
        obtain ⟨r, s₃, hr, h⟩ := bind_eq_ok.1 h
        obtain ⟨rfl, rfl⟩ := pure_eq_ok.1 h
        obtain ⟨hfresh, rfl, rfl⟩ := insert_eq_ok.1 hinsert
        cases heq
        exact .lam hT hpeel hfresh (elaborates_of_run body hr)
      · exact absurd h fail_ne_ok
  | app function argument =>
    rw [elaborate] at h
    obtain ⟨f, s₁, hf, h⟩ := bind_eq_ok.1 h
    obtain ⟨result, s₂, hresult, h⟩ := bind_eq_ok.1 h
    obtain ⟨t, hinner, rfl⟩ := locally_eq_ok.1 hresult
    obtain ⟨⟨peeled, head⟩, s₃, hpeel, hinner⟩ := bind_eq_ok.1 hinner
    have hpeel := peels_of_peelLets (lift_eq_ok.1 hpeel)
    split at hinner
    · rename_i heq
      obtain ⟨a, s₄, ha, hinner⟩ := bind_eq_ok.1 hinner
      obtain ⟨rfl, rfl⟩ := pure_eq_ok.1 hinner
      cases heq
      exact .app (elaborates_of_run function hf) hpeel (elaborates_of_run argument ha)
        (concludes_of_conclude h)
    · exact absurd hinner fail_ne_ok
  | ref b =>
    rw [elaborate] at h
    obtain ⟨T, s₁, hT, h⟩ := bind_eq_ok.1 h
    have hconcl := concludes_of_conclude h
    obtain ⟨hT, rfl⟩ := typeOf_eq_some hT
    exact .ref hT hconcl
  | letIn b ty value body =>
    rw [elaborate] at h
    obtain ⟨A, s₁, hA, h⟩ := bind_eq_ok.1 h
    obtain ⟨v, s₂, hv, h⟩ := bind_eq_ok.1 h
    obtain ⟨r, s₃, hr, h⟩ := bind_eq_ok.1 h
    obtain ⟨rfl, rfl⟩ := pure_eq_ok.1 h
    obtain ⟨t, hinner, rfl⟩ := locally_eq_ok.1 hr
    obtain ⟨u, s₄, hdefine, hinner⟩ := bind_eq_ok.1 hinner
    obtain ⟨definitions, hinsert, rfl⟩ := define_eq_ok.1 hdefine
    obtain ⟨hfresh, rfl⟩ := Scope.insert_eq_ok.1 hinsert
    rw [Scope.lookup_derive] at hfresh
    exact .letIn (elaborates_of_run ty hA) (elaborates_of_run value hv) hfresh
      (elaborates_of_run body hinner)
  | name | sigma | tuple =>
    rw [elaborate] at h
    exact absurd h fail_ne_ok

theorem elaborates_of_term {e : Expr} {t : Term}
    (h : (do return (← elaborate fuel Γ mode e).term : Check Term).run s = some (.ok t, s')) :
    ∃ r, Elaborates Γ mode s e r s' ∧ r.term = t := by
  obtain ⟨r, s₁, hr, h⟩ := bind_eq_ok.1 h
  obtain ⟨rfl, rfl⟩ := pure_eq_ok.1 h
  exact ⟨r, elaborates_of_run e hr, rfl⟩

/-- Elaborating a closed expression against a closed type is two derivations, the type first. -/
theorem elaborates_of_elaborateClosed {e ty : Expr} {r : Annotated}
    (h : (elaborateClosed fuel e ty).run s = some (.ok r, s')) :
    ∃ e' ty' T t s₁, e.resolve [] = .ok e' ∧ ty.resolve [] = .ok ty' ∧
      Elaborates {} .type s ty' T s₁ ∧ Elaborates {} (.check T.term) s₁ e' t s' ∧
      r = ⟨t.term, T.term⟩ := by
  obtain ⟨e', s₁, he, h⟩ := bind_eq_ok.1 h
  obtain ⟨ty', s₂, hty, h⟩ := bind_eq_ok.1 h
  obtain ⟨_, s₃, hT, h⟩ := bind_eq_ok.1 h
  obtain ⟨_, s₄, ht, h⟩ := bind_eq_ok.1 h
  obtain ⟨rfl, rfl⟩ := pure_eq_ok.1 h
  obtain ⟨t, ht', rfl⟩ := elaborates_of_term ht
  obtain ⟨T, hT', rfl⟩ := elaborates_of_term hT
  obtain ⟨hty', rfl⟩ := ofResolution_eq_ok.1 hty
  obtain ⟨he', rfl⟩ := ofResolution_eq_ok.1 he
  exact ⟨e', ty', T, t, s₃, he', hty', hT', ht', rfl⟩

/-! ## What an elaboration leaves alone -/

namespace Concludes

variable {inferred r : Annotated}

theorem term_eq (h : Concludes mode inferred s r s') : r.term = inferred.term := by
  cases h <;> rfl

theorem definitions_eq (h : Concludes mode inferred s r s') : s'.definitions = s.definitions := by
  cases h with
  | inferred | expected => rfl
  | unified _ _ hd => exact hd

theorem supply_le (h : Concludes mode inferred s r s') : s.supply.next ≤ s'.supply.next := by
  cases h with
  | inferred | expected => exact Nat.le_refl _
  | unified _ hc _ => exact hc.keeps.supply

theorem ty_eq (h : Concludes mode inferred s r s') {T : Term} (hT : mode.expected? = some T) :
    r.ty = T := by
  cases h with
  | inferred hn => rw [hn] at hT; cases hT
  | expected he => rw [he] at hT; cases hT; rfl
  | unified he _ _ => rw [he] at hT; cases hT; rfl

end Concludes

namespace Elaborates

variable {e : Expr} {r : Annotated}

theorem definitions_eq (h : Elaborates Γ mode s e r s') : s'.definitions = s.definitions := by
  induction h with
  | type h | boolType h | bool h | ref _ h => exact h.definitions_eq
  | pi _ _ _ h ihA ihB => exact (h.definitions_eq.trans ihB).trans ihA
  | lam => rfl
  | app _ _ _ h ihf _ => exact h.definitions_eq.trans ihf
  | letIn _ _ _ _ ihA ihv _ => exact ihv.trans ihA

theorem supply_le (h : Elaborates Γ mode s e r s') : s.supply.next ≤ s'.supply.next := by
  induction h with
  | type h | boolType h | bool h | ref _ h => exact h.supply_le
  | pi _ _ _ h ihA ihB => exact Nat.le_trans (Nat.le_trans ihA ihB) h.supply_le
  | lam _ hpeel _ _ ih => exact Nat.le_trans hpeel.supply_le ih
  | app _ hpeel _ h ihf iha =>
    exact Nat.le_trans (Nat.le_trans ihf (Nat.le_trans hpeel.supply_le iha)) h.supply_le
  | letIn _ _ _ _ ihA ihv ihb => exact Nat.le_trans (Nat.le_trans ihA ihv) ihb

end Elaborates

end DepLang
