import DepLang.Proofs.Lockstep

/-!
# Comparing and elaborating in lockstep

Comparisons and elaborations of what is alike are in lockstep, whatever two twin stores remember:
they come to the same verdicts, the same terms and types, and the same errors.

* `equate_lockstep`: one lemma for each rule of the comparison, and an induction on the fuel that is
  left on the left.
* `elaborate_lockstep`: one case for each kind of expression. A `let` must not define a variable
  that the values of shared variables may already depend on as one without a value.
-/
namespace DepLang

/-! ## Comparisons -/

/-- The comparison is in lockstep with `equate`. -/
def Comparison.Lockstep (S : Binding → Prop) (n : Nat) (E : Values) (equal : Comparison) : Prop :=
  ∀ {W : World} {Γ Γ' : Context} {lhs lhs' rhs rhs' : Term} {ty ty' : Option Term},
    Context.Alike W Γ Γ' → lhs.Alike W.pairs lhs' → rhs.Alike W.pairs rhs' →
    Option.Rel (Term.Alike W.pairs) ty ty' →
    Check.Lockstep S n E W (equal Γ lhs rhs ty) (fun fuel => equate fuel Γ' lhs' rhs' ty')
      fun _ => Eq

namespace Comparison.Lockstep

variable {S : Binding → Prop} {n : Nat} {E : Values} {equal : Comparison}
  (hequal : equal.Lockstep S n E) {fuel : Nat} {W : World} {Γ Γ' : Context}
  {lhs lhs' rhs rhs' : Term} (hΓ : Context.Alike W Γ Γ')
include hequal hΓ

theorem formations (hl : lhs.Alike W.pairs lhs') (hr : rhs.Alike W.pairs rhs') :
    Check.Lockstep S n E W (compareFormations equal Γ lhs rhs)
      (fun fuel => compareFormations (equate fuel) Γ' lhs' rhs')
      fun R => Option.Rel (Term.Alike R) := by
  cases hl with
  | boolType => cases hr with
    | boolType => exact .pure (.some .type)
    | _ => exact .pure .none
  | type => cases hr with
    | type => exact .pure (.some .type)
    | _ => exact .pure .none
  | pi name hA hB => cases hr with
    | pi _ hA' hB' =>
      unfold compareFormations
      refine .bind (hequal hΓ hA hA' (.some .type)) fun W' same same' hW' hsame => ?_
      cases hsame
      cases same with
      | false => exact .pure .none
      | true =>
        simp only [↓reduceIte]
        refine .of_matches fun hM => .mint_bind (.bind (.locally (hequal
          ((hΓ.mono hW').bind_mint hM name (hA.mono hW'.pairs))
          ((hB.mono hW'.pairs).openWith_add _ _) ((hB'.mono hW'.pairs).openWith_add _ _)
          (.some .type))) fun W'' same same' hW'' hsame => ?_)
        cases hsame.2
        cases same with
        | true => exact .pure (.some .type)
        | false => exact .pure .none
    | _ => exact .pure .none
  | _ => exact .pure .none

theorem arguments {ty ty' a a' b b' : Term} (hty : ty.Alike W.pairs ty') (ha : a.Alike W.pairs a')
    (hb : b.Alike W.pairs b') :
    Check.Lockstep S n E W (compareArguments fuel equal Γ ty a b)
      (fun fuel => compareArguments fuel (equate fuel) Γ' ty' a' b')
      fun R => Option.Rel (Term.Alike R) := by
  -- The `let`s of the type are put back around the result, so the pairs from outside are enough.
  refine (Check.Lockstep.locally (P := Option.Rel (Term.Alike W.pairs)) ?_).mono
    fun W' _ _ hW' h => rel_mono h.2 fun _ _ h => h.mono hW'.pairs
  refine .peelLets_bind fuel hty fun W' peeled peeled' u u' hW' htel hu => ?_
  cases hu with
  | pi name hA hB =>
    have ha := ha.mono hW'.pairs
    refine .bind (hequal (hΓ.mono hW') ha (hb.mono hW'.pairs) (.some hA))
      fun W'' same same' hW'' hsame => ?_
    cases hsame
    cases same with
    | true => exact .pure (.some (htel.wrap (hB.instantiate ha)))
    | false => exact .pure .none
  | _ => exact .pure .none

theorem heads (hl : lhs.Alike W.pairs lhs') (hr : rhs.Alike W.pairs rhs') :
    Check.Lockstep S n E W (compareHeads fuel equal Γ lhs rhs)
      (fun fuel => compareHeads fuel (equate fuel) Γ' lhs' rhs')
      fun R => Option.Rel (Term.Alike R) := by
  induction hl generalizing rhs rhs' with
  | pi name hA hB => exact hequal.formations hΓ (.pi name hA hB) hr
  | boolType => exact hequal.formations hΓ .boolType hr
  | type => exact hequal.formations hΓ .type hr
  | bound i => exact .fail (.incomparable (.bound i) hr)
  | lam ht => exact .fail (.incomparable (.lam ht) hr)
  | letIn name hA hv ht => exact .fail (.incomparable (.letIn name hA hv ht) hr)
  | bool value =>
    have hiff : rhs' = .bool value ↔ rhs = .bool value := by cases hr <;> simp
    unfold compareHeads
    simp only [hiff]
    by_cases hrhs : rhs = .bool value
    · simp only [if_pos hrhs]
      exact .pure (.some .boolType)
    · simp only [if_neg hrhs]
      exact .pure .none
  | @free b c hbc =>
    refine .of_matches fun hM => ?_
    have hiff : rhs' = .free c ↔ rhs = .free b := by
      cases hr with
      | free hxy => simpa using (hM.unique hxy hbc).symm
      | _ => simp
    unfold compareHeads
    simp only [hiff]
    by_cases hrhs : rhs = .free b
    · simp only [if_pos hrhs]
      exact .bind_still (.typeOf hΓ hbc) fun l r A A' _ hA =>
        .bind_still (.whnf fuel hA) fun l r T T' _ hT => .pure (.some hT)
    · simp only [if_neg hrhs]
      exact .pure .none
  | app hf ha ihf _ =>
    unfold compareHeads
    cases hr with
    | app hf' ha' =>
      refine .bind (ihf hf') fun W' T T' hW' hT => ?_
      cases hT with
      | none => exact .pure .none
      | some hT =>
        exact hequal.arguments (hΓ.mono hW') hT (ha.mono hW'.pairs) (ha'.mono hW'.pairs)
    | _ => exact .pure .none

theorem spines (hl : lhs.Alike W.pairs lhs') (hr : rhs.Alike W.pairs rhs') :
    Check.Lockstep S n E W (compareSpines fuel equal Γ lhs rhs)
      (fun fuel => compareSpines fuel (equate fuel) Γ' lhs' rhs')
      fun R => Option.Rel (Term.Alike R) := by
  cases hl with
  | app hf ha => cases hr with
    | app hf' ha' =>
      unfold compareSpines
      simp only [hf.isFree_spineHead_eq, hf'.isFree_spineHead_eq]
      split
      · exact hequal.heads hΓ (.app hf ha) (.app hf' ha')
      · exact .pure .none
    | _ => exact .pure .none
  | _ => exact .pure .none

theorem bodies {name : String} {A A' B B' : Term} {left left' right right' : Binding → Term}
    (hA : A.Alike W.pairs A') (hB : B.Alike W.pairs B')
    (hl : ∀ {Q : Pairs} {b c : Binding}, (∀ x y, W.pairs x y → Q x y) → Q b c →
      (left b).Alike Q (left' c))
    (hr : ∀ {Q : Pairs} {b c : Binding}, (∀ x y, W.pairs x y → Q x y) → Q b c →
      (right b).Alike Q (right' c)) :
    Check.Lockstep S n E W (compareBodies equal Γ name A B left right)
      (fun fuel => compareBodies (equate fuel) Γ' name A' B' left' right') fun _ => Eq := by
  refine .of_matches fun hM => .mint_bind ((Check.Lockstep.locally (hequal
    (hΓ.bind_mint hM name hA) (hl (fun _ _ => .inr) (.inl ⟨rfl, rfl⟩))
    (hr (fun _ _ => .inr) (.inl ⟨rfl, rfl⟩)) (.some (hB.openWith_add _ _)))).mono
    fun _ _ _ _ h => h.2)

theorem isSome_heads (hl : lhs.Alike W.pairs lhs') (hr : rhs.Alike W.pairs rhs') :
    Check.Lockstep S n E W (do return (← compareHeads fuel equal Γ lhs rhs).isSome)
      (fun fuel => do return (← compareHeads fuel (equate fuel) Γ' lhs' rhs').isSome)
      fun _ => Eq := by
  refine .bind (hequal.heads hΓ hl hr) fun W' T T' hW' hT => .pure ?_
  cases hT <;> rfl

theorem functions {name : String} {A A' B B' : Term} (hl : lhs.Alike W.pairs lhs')
    (hr : rhs.Alike W.pairs rhs') (hA : A.Alike W.pairs A') (hB : B.Alike W.pairs B') :
    Check.Lockstep S n E W (compareAt fuel equal Γ lhs rhs (.pi name A B))
      (fun fuel => compareAt fuel (equate fuel) Γ' lhs' rhs' (.pi name A' B')) fun _ => Eq := by
  have hopen : ∀ {t t' : Term}, t.Alike W.pairs t' → ∀ {Q : Pairs} {b c : Binding},
      (∀ x y, W.pairs x y → Q x y) → Q b c → (t.openWith b).Alike Q (t'.openWith c) :=
    fun ht _ _ _ hsub hbc => (ht.mono hsub).openWith hbc
  have happ : ∀ {t t' : Term}, t.Alike W.pairs t' → ∀ {Q : Pairs} {b c : Binding},
      (∀ x y, W.pairs x y → Q x y) → Q b c →
      (Term.app t (.free b)).Alike Q (.app t' (.free c)) :=
    fun ht _ _ _ hsub hbc => .app (ht.mono hsub) (.free hbc)
  unfold compareAt
  have hl' := hl
  have hr' := hr
  cases hl with
  | lam hbody => cases hr with
    | lam hbody' => exact hequal.bodies hΓ hA hB (hopen hbody) (hopen hbody')
    | _ => exact hequal.bodies hΓ hA hB (hopen hbody) (happ hr')
  | _ => cases hr with
    | lam hbody' => exact hequal.bodies hΓ hA hB (hopen hbody') (happ hl')
    | _ => exact hequal.isSome_heads hΓ hl' hr'

theorem normal {ty ty' : Option Term} (hl : lhs.Alike W.pairs lhs') (hr : rhs.Alike W.pairs rhs')
    (hty : Option.Rel (Term.Alike W.pairs) ty ty') :
    Check.Lockstep S n E W (compareNormal fuel equal Γ lhs rhs ty)
      (fun fuel => compareNormal fuel (equate fuel) Γ' lhs' rhs' ty') fun _ => Eq := by
  cases hty with
  | none => exact hequal.isSome_heads hΓ hl hr
  | some hT =>
    have hT' := hT
    cases hT with
    | pi name hA hB => exact hequal.functions hΓ hl hr hA hB
    | lam hbody => exact .fail (.notAType (.lam hbody))
    | type => exact hequal.isSome_heads hΓ hl hr
    | _ =>
      -- The type that the heads share is compared with the one that is given.
      unfold compareNormal
      refine .bind (hequal.heads hΓ hl hr) fun W' U U' hW' hU => ?_
      cases hU with
      | none => exact .pure rfl
      | some hU => exact hequal (hΓ.mono hW') (hT'.mono hW'.pairs) hU .none

theorem reduced {ty ty' : Option Term} (hl : lhs.Alike W.pairs lhs') (hr : rhs.Alike W.pairs rhs')
    (hty : Option.Rel (Term.Alike W.pairs) ty ty') :
    Check.Lockstep S n E W (compareReduced fuel equal Γ lhs rhs ty)
      (fun fuel => compareReduced fuel (equate fuel) Γ' lhs' rhs' ty') fun _ => Eq := by
  have hmono : ∀ {R Q : Pairs} {ty ty' : Option Term}, Option.Rel (Term.Alike R) ty ty' →
      (∀ x y, R x y → Q x y) → Option.Rel (Term.Alike Q) ty ty' :=
    fun h hsub => rel_mono h fun _ _ h => h.mono hsub
  have hwhnf : ∀ W t t', t.Alike W.pairs t' → Check.Lockstep S n E W (liftM (whnf fuel t))
      (fun fuel => liftM (whnf fuel t')) Term.Alike :=
    fun _ _ _ ht => (Check.Lockstep.whnf fuel ht).mono fun _ _ _ hW' h => h.2.mono hW'.pairs
  refine .bind (hwhnf W _ _ hl) fun W₁ lhs lhs' hW₁ hl => .bind (hwhnf W₁ _ _ (hr.mono hW₁.pairs))
    fun W₂ rhs rhs' hW₂ hr => .bind (.mapM hwhnf (hmono hty (hW₁.trans hW₂).pairs))
      fun W₃ ty ty' hW₃ hty => ?_
  replace hl := hl.mono (hW₂.trans hW₃).pairs
  replace hr := hr.mono hW₃.pairs
  have hΓ := hΓ.mono ((hW₁.trans hW₂).trans hW₃)
  have hlets : (lhs'.isLet || rhs'.isLet || ty'.any Term.isLet) =
      (lhs.isLet || rhs.isLet || ty.any Term.isLet) := by
    rw [hl.isLet_eq, hr.isLet_eq]
    cases hty with
    | none => rfl
    | some hty => rw [Option.any_some, Option.any_some, hty.isLet_eq]
  simp only [hlets]
  split
  · refine (Check.Lockstep.locally (P := Eq) ?_).mono fun _ _ _ _ h => h.2
    refine .bind (.headUnderLets fuel hl) fun W₄ lhs lhs' hW₄ hl =>
      .bind (.headUnderLets fuel (hr.mono hW₄.pairs)) fun W₅ rhs rhs' hW₅ hr =>
        .bind (.mapM (fun _ _ _ ht => .headUnderLets fuel ht)
          (hmono hty (hW₄.trans hW₅).pairs)) fun W₆ ty ty' hW₆ hty => ?_
    exact hequal.normal (hΓ.mono ((hW₄.trans hW₅).trans hW₆)) (hl.mono (hW₅.trans hW₆).pairs)
      (hr.mono hW₆.pairs) hty
  · exact hequal.normal hΓ hl hr hty

end Comparison.Lockstep

/-- **Comparisons are in lockstep.** Terms that are alike are compared alike, whatever the stores
remember. -/
theorem equate_lockstep (S : Binding → Prop) (n : Nat) (E : Values) (fuel : Nat) :
    (equate fuel).Lockstep S n E := by
  induction fuel with
  | zero => exact fun _ _ _ _ => ⟨fun _ hrun => by cases hrun⟩
  | succ fuel ih =>
    intro W Γ Γ' lhs lhs' rhs rhs' ty ty' hΓ hl hr hty
    refine .succ ?_
    unfold equate
    refine .bind (ih.spines hΓ hl hr) fun W' T T' hW' hT => ?_
    replace hty : Option.Rel (Term.Alike W'.pairs) ty ty' :=
      rel_mono hty fun _ _ h => h.mono hW'.pairs
    cases hT with
    | none => exact ih.reduced (hΓ.mono hW') (hl.mono hW'.pairs) (hr.mono hW'.pairs) hty
    | some hT =>
      cases hty with
      | none => exact .pure rfl
      | some hty => exact ih (hΓ.mono hW') hT hty .none

/-! ## Elaborations -/

/-- The two modes are the same, and what is expected is alike. -/
inductive Mode.Alike (R : Pairs) : Mode → Mode → Prop where
  | type : Alike R .type .type
  | infer : Alike R .infer .infer
  | check {T T' : Term} : T.Alike R T' → Alike R (.check T) (.check T')

theorem Mode.Alike.expected {R : Pairs} {mode mode' : Mode} (h : Mode.Alike R mode mode') :
    Option.Rel (Term.Alike R) mode.expected? mode'.expected? := by
  cases h with
  | type => exact .some .type
  | infer => exact .none
  | check hT => exact .some hT

/-- The terms are alike, and so are their types. -/
structure Annotated.Alike (R : Pairs) (r r' : Annotated) : Prop where
  term : r.term.Alike R r'.term
  ty : r.ty.Alike R r'.ty

theorem Annotated.Alike.eq_of_same {P : Binding → Prop} {r r' : Annotated}
    (h : Annotated.Alike (.same P) r r') : r = r' :=
  (Annotated.mk.injEq ..).mpr ⟨h.term.eq_of_same, h.ty.eq_of_same⟩

/-- A `let` of the expression binds the variable. Forms without an elaboration rule are not looked
into. -/
def Expr.Defines : Expr → Binding → Prop
  | letIn b ty value body, x => x = b ∨ ty.Defines x ∨ value.Defines x ∨ body.Defines x
  | pi _ domain codomain, x => domain.Defines x ∨ codomain.Defines x
  | lam _ body, x => body.Defines x
  | app function argument, x => function.Defines x ∨ argument.Defines x
  | type, _ | boolType, _ | bool _, _ | name _, _ | ref _, _ | sigma _ _, _ | tuple _, _ => False

section Elaboration

variable {S : Binding → Prop} {n : Nat} {E : Values} (fuel : Nat) {W : World} {Γ Γ' : Context}
  (hΓ : Context.Alike W Γ Γ')
include hΓ

theorem unify_lockstep {lhs lhs' rhs rhs' : Term} {ty ty' : Option Term}
    (hl : lhs.Alike W.pairs lhs') (hr : rhs.Alike W.pairs rhs')
    (hty : Option.Rel (Term.Alike W.pairs) ty ty') :
    Check.Lockstep S n E W (unify fuel Γ lhs rhs ty) (fun fuel => unify fuel Γ' lhs' rhs' ty')
      (W.still fun _ _ => True) := by
  refine .bind_still (.locally (equate_lockstep S n E fuel hΓ hl hr hty))
    fun l r same same' _ hsame => ?_
  cases hsame
  cases same with
  | true => exact .pure ⟨rfl, trivial⟩
  | false => exact .fail (.unequal hl hr hty)

theorem conclude_lockstep {mode mode' : Mode} {inferred inferred' : Annotated}
    (hmode : Mode.Alike W.pairs mode mode') (h : Annotated.Alike W.pairs inferred inferred') :
    Check.Lockstep S n E W (conclude fuel Γ mode inferred)
      (fun fuel => conclude fuel Γ' mode' inferred') (W.still (Annotated.Alike W.pairs)) := by
  have hexpected := hmode.expected
  unfold conclude
  generalize mode.expected? = expected, mode'.expected? = expected' at hexpected
  cases hexpected with
  | none => exact .pure ⟨rfl, h⟩
  | some hT =>
    exact .bind_still (unify_lockstep fuel hΓ h.ty hT (.some .type)) fun l r _ _ _ _ =>
      .pure ⟨rfl, h.term, hT⟩

theorem concludeFormation_lockstep {mode mode' : Mode} {former former' : Term}
    (hmode : Mode.Alike W.pairs mode mode') (h : former.Alike W.pairs former') :
    Check.Lockstep S n E W (concludeFormation fuel Γ mode former)
      (fun fuel => concludeFormation fuel Γ' mode' former')
      (W.still (Annotated.Alike W.pairs)) := by
  have hformer : Annotated.Alike W.pairs ⟨former, .type⟩ ⟨former', .type⟩ := ⟨h, .type⟩
  cases hmode with
  | type => exact .pure ⟨rfl, hformer⟩
  | infer => exact conclude_lockstep fuel hΓ .infer hformer
  | check hT => exact conclude_lockstep fuel hΓ (.check hT) hformer

end Elaboration

/-- The expressions, whose bindings `R` pairs, elaborate alike in contexts and modes that are alike,
whatever the stores remember. -/
def ElaboratesAlike (S : Binding → Prop) (n : Nat) (E : Values) (fuel : Nat) (R : Pairs)
    (e e' : Expr) : Prop :=
  ∀ ⦃W : World⦄ ⦃Γ Γ' : Context⦄ ⦃mode mode' : Mode⦄, (∀ x y, R x y → W.pairs x y) →
    Context.Alike W Γ Γ' → Mode.Alike W.pairs mode mode' →
    (∀ b, e.Defines b → S b → E b ≠ none) →
    Check.Lockstep S n E W (elaborate fuel Γ mode e) (fun fuel => elaborate fuel Γ' mode' e')
      (W.still (Annotated.Alike W.pairs))

namespace ElaboratesAlike

variable {S : Binding → Prop} {n : Nat} {E : Values} {fuel : Nat} {R : Pairs} {b c : Binding}

theorem noRule {e e' : Expr} (he : e.Alike R e')
    (hrule : ∀ fuel Γ mode, elaborate fuel Γ mode e = Check.fail (.noRule e))
    (hrule' : ∀ fuel Γ mode, elaborate fuel Γ mode e' = Check.fail (.noRule e')) :
    ElaboratesAlike S n E fuel R e e' := by
  intro W Γ Γ' mode mode' hR _ _ _
  simp only [hrule, hrule']
  exact .fail (.noRule (he.mono hR))

theorem pi {domain domain' codomain codomain' : Expr} (hbc : R b c)
    (ihA : ElaboratesAlike S n E fuel R domain domain')
    (ihB : ElaboratesAlike S n E fuel R codomain codomain') :
    ElaboratesAlike S n E fuel R (.pi b domain codomain) (.pi c domain' codomain') := by
  intro W Γ Γ' mode mode' hR hΓ hmode hlets
  simp only [elaborate]
  refine .bind_still (ihA hR hΓ .type fun x hx => hlets x (.inl hx)) fun l r T T' hW₁ hT =>
    .insert_bind (hΓ.mono hW₁) (hR b c hbc) hT.term fun Δ Δ' hΔ =>
      .bind_still (ihB hR hΔ .type fun x hx => hlets x (.inr hx)) fun l' r' U U' hW₂ hU =>
        .of_matches fun hM => ?_
  have hclose : (U.term.close b).Alike W.pairs (U'.term.close c) :=
    hU.term.close (hM.separates (hR b c hbc)) fun _ _ hxy _ => hxy
  rw [hM.name (hR b c hbc)]
  exact concludeFormation_lockstep fuel ((hΓ.mono hW₁).mono hW₂) hmode (.pi c.name hT.term hclose)

theorem lam {body body' : Expr} (hbc : R b c) (hbody : body.Alike R body')
    (ih : ElaboratesAlike S n E fuel R body body') :
    ElaboratesAlike S n E fuel R (.lam b body) (.lam c body') := by
  intro W Γ Γ' mode mode' hR hΓ hmode hlets
  have hlam : (Expr.lam b body).Alike R (.lam c body') := .lam hbc hbody
  have hexpected := hmode.expected
  simp only [elaborate]
  generalize mode.expected? = expected, mode'.expected? = expected' at hexpected
  cases hexpected with
  | none => exact .fail (.noRule (hlam.mono hR))
  | some hT =>
    refine .locally (.peelLets_bind fuel hT fun W' peeled peeled' u u' hW' htel hu => ?_)
    have hR' : ∀ x y, R x y → W'.pairs x y := fun x y hxy => hW'.pairs x y (hR x y hxy)
    cases hu with
    | pi name hA hB =>
      refine .insert_bind (hΓ.mono hW') (hR' b c hbc) hA fun Δ Δ' hΔ =>
        .bind_still (ih hR' hΔ (.check (hB.openWith (hR' b c hbc))) hlets)
          fun l r t t' hW'' ht => .of_matches fun hM => .pure ⟨htel.wrap (.lam ?_), hT⟩
      exact ht.term.close (hM.separates (hR' b c hbc)) fun _ _ hxy _ => hxy
    | _ => exact .fail (.mismatch (hlam.mono hR') (hT.mono hW'.pairs))

theorem app {f f' a a' : Expr} (hf : f.Alike R f') (ihf : ElaboratesAlike S n E fuel R f f')
    (iha : ElaboratesAlike S n E fuel R a a') :
    ElaboratesAlike S n E fuel R (.app f a) (.app f' a') := by
  intro W Γ Γ' mode mode' hR hΓ hmode hlets
  simp only [elaborate]
  refine .bind_still (ihf hR hΓ .infer fun x hx => hlets x (.inl hx)) fun l r F F' hW₁ hF =>
    .bind_still (P := Annotated.Alike W.pairs) (.locally ?_) fun l r T T' hW₂ hT =>
      conclude_lockstep fuel ((hΓ.mono hW₁).mono hW₂) hmode hT
  refine .peelLets_bind (W := W.advance l r) fuel hF.ty
    fun W' peeled peeled' u u' hW' htel hu => ?_
  have hR' : ∀ x y, R x y → W'.pairs x y := fun x y hxy => hW'.pairs x y (hR x y hxy)
  have hother : ElaborationError.Alike W'.pairs (.notAFunction f (peeled.wrap u))
      (.notAFunction f' (peeled'.wrap u')) :=
    .notAFunction (hf.mono hR') ((htel.wrap hu).mono hW'.pairs)
  cases hu with
  | pi name hA hB =>
    exact .bind_still (iha hR' ((hΓ.mono hW₁).mono hW') (.check hA) fun x hx => hlets x (.inr hx))
      fun l r arg arg' hW'' harg =>
        .pure ⟨.app hF.term (htel.wrap harg.term), htel.wrap (hB.instantiate harg.term)⟩
  | _ => exact .fail hother

theorem letIn {ty ty' value value' body body' : Expr} (hbc : R b c)
    (ihA : ElaboratesAlike S n E fuel R ty ty') (ihv : ElaboratesAlike S n E fuel R value value')
    (ihe : ElaboratesAlike S n E fuel R body body') :
    ElaboratesAlike S n E fuel R (.letIn b ty value body) (.letIn c ty' value' body') := by
  intro W Γ Γ' mode mode' hR hΓ hmode hlets
  have hb : S b → E b ≠ none := hlets b (.inl rfl)
  have hA := fun x hx => hlets x (.inr (.inl hx))
  have hv := fun x hx => hlets x (.inr (.inr (.inl hx)))
  have he := fun x hx => hlets x (.inr (.inr (.inr hx)))
  simp only [elaborate]
  refine .bind_still (ihA hR hΓ .type hA) fun l₁ r₁ T T' hW₁ hT =>
    .bind_still (ihv hR (hΓ.mono hW₁) (.check hT.term) hv) fun l₂ r₂ V V' hW₂ hV =>
      .bind_still (P := Annotated.Alike W.pairs) (.locally ?_) fun l r t t' hW₃ ht =>
        .of_matches fun hM => ?_
  · have hdefine := Check.Lockstep.define (S := S) (n := n) (E := E)
      (W := (W.advance l₁ r₁).advance l₂ r₂) (d := ⟨V.term, T.term⟩) (e := ⟨V'.term, T'.term⟩)
      (hR b c hbc) hb hT.term hV.term
    exact .bind_still hdefine fun l r _ _ hW₃ _ =>
      .mono (ihe hR (((hΓ.mono hW₁).mono hW₂).mono hW₃) hmode he) fun _ _ _ _ h => h.2
  · have hlet : ∀ {t t' : Term}, t.Alike W.pairs t' →
        (Term.makeLet b T.term V.term t).Alike W.pairs (.makeLet c T'.term V'.term t') :=
      fun ht => .makeLet (hM.separates (hR b c hbc)) (fun _ _ hxy _ => hxy)
        (hM.name (hR b c hbc)) hT.term hV.term ht
    exact .pure ⟨rfl, hlet ht.term, hlet ht.ty⟩

end ElaboratesAlike

/-- **Elaborations are in lockstep.** Expressions that are alike elaborate alike, whatever the
stores remember. -/
theorem elaborate_lockstep {R : Pairs} {e e' : Expr} (he : e.Alike R e') {S : Binding → Prop}
    {n : Nat} {E : Values} {fuel : Nat} : ElaboratesAlike S n E fuel R e e' := by
  induction he with
  | type =>
    intro W Γ Γ' mode mode' _ hΓ hmode _
    simpa only [elaborate] using concludeFormation_lockstep fuel hΓ hmode .type
  | boolType =>
    intro W Γ Γ' mode mode' _ hΓ hmode _
    simpa only [elaborate] using concludeFormation_lockstep fuel hΓ hmode .boolType
  | bool value =>
    intro W Γ Γ' mode mode' _ hΓ hmode _
    simpa only [elaborate] using conclude_lockstep fuel hΓ hmode ⟨.bool value, .boolType⟩
  | ref hbc =>
    intro W Γ Γ' mode mode' hR hΓ hmode _
    simp only [elaborate]
    exact .bind_still (.typeOf hΓ (hR _ _ hbc)) fun l r A A' hW₁ hA =>
      conclude_lockstep fuel (hΓ.mono hW₁) hmode ⟨.free (hR _ _ hbc), hA⟩
  | pi hbc _ _ ihA ihB => exact .pi hbc ihA ihB
  | lam hbc he ih => exact .lam hbc he ih
  | app hf _ ihf iha => exact .app hf ihf iha
  | letIn hbc _ _ _ ihA ihv ihe => exact .letIn hbc ihA ihv ihe
  | name x => exact .noRule (.name x) (fun _ _ _ => rfl) (fun _ _ _ => rfl)
  | sigma hlen hb hp hl =>
    exact .noRule (.sigma hlen hb hp hl) (fun _ _ _ => rfl) (fun _ _ _ => rfl)
  | tuple hlen he => exact .noRule (.tuple hlen he) (fun _ _ _ => rfl) (fun _ _ _ => rfl)

theorem Check.Lockstep.term {S : Binding → Prop} {n : Nat} {E : Values} {W : World}
    {x : Check Annotated} {X : Nat → Check Annotated}
    (h : Check.Lockstep S n E W x X (W.still (Annotated.Alike W.pairs))) :
    Check.Lockstep S n E W (do return (← x).term) (fun fuel => do return (← X fuel).term)
      (W.still (Term.Alike W.pairs)) :=
  .bind_still h fun _ _ _ _ _ hab => .pure ⟨rfl, hab.term⟩

theorem elaborateAt_lockstep {e e' ty ty' : Expr} {S : Binding → Prop} {n : Nat} {E : Values}
    {fuel : Nat} {W : World} {Γ Γ' : Context} (he : e.Alike W.pairs e') (hty : ty.Alike W.pairs ty')
    (hΓ : Context.Alike W Γ Γ') (hlets : ∀ b, e.Defines b ∨ ty.Defines b → S b → E b ≠ none) :
    Check.Lockstep S n E W (elaborateAt fuel Γ e ty) (fun fuel => elaborateAt fuel Γ' e' ty')
      (W.still (Annotated.Alike W.pairs)) := by
  have hid : ∀ x y, W.pairs x y → W.pairs x y := fun _ _ => id
  refine .bind_still (.term (elaborate_lockstep hty hid hΓ .type fun b hb => hlets b (.inr hb)))
    fun l r T T' hW₁ hT => ?_
  refine .bind_still (.term (elaborate_lockstep he hid (hΓ.mono hW₁) (.check hT) fun b hb =>
    hlets b (.inl hb))) fun l' r' t t' hW₂ ht => ?_
  exact .pure ⟨rfl, ht, hT⟩

end DepLang
