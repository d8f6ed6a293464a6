import DepLang.Definitions
import DepLang.Error
import DepLang.Proofs.LocallyNameless
import DepLang.Proofs.Mentions

/-!
# Alike but for the identities of variables

Two runs that do the same from different supplies mint different bindings on the way. What they
compute is the same up to these. `Pairs` says which variable of the one run stands for which of the
other, and `Term.Alike R t u` that two terms are the same but for their free variables, which `R`
pairs. Indices and display names agree.

* `Pairs.Matches m n`: the pairing is one to one, keeps names, and pairs variables that have been
  minted, below `m` in one run and below `n` in the other. So a variable that is minted next on both
  sides can be paired as well (`Pairs.Matches.mint`).
* `Term.Alike` is kept by opening, closing and instantiating binders and by building `let`s. What
  looks at a term without looking at identities finds the same in terms that are alike.
* `Telescope.Alike R peeled peeled' R'`: peeled `let`s are alike, and `R'` pairs their variables too.
* Expressions and errors are alike if the terms and bindings in them are.
-/
namespace DepLang

/-- Which variable stands for which. -/
abbrev Pairs := Binding → Binding → Prop

namespace Pairs

/-- Pairs two more variables. -/
def add (R : Pairs) (b c : Binding) : Pairs := fun x y => (x = b ∧ y = c) ∨ R x y

/-- Each variable in the set stands for itself. -/
def same (P : Binding → Prop) : Pairs := fun x y => x = y ∧ P x

/-- Each variable below `n` stands for itself. -/
abbrev minted (n : Nat) : Pairs := same fun b => b.id < n

/-- The pairing is one to one, keeps names, and pairs variables that have been minted. -/
structure Matches (R : Pairs) (m n : Nat) : Prop where
  unique : ∀ {b b' c c' : Binding}, R b c → R b' c' → (b = b' ↔ c = c')
  name : ∀ {b c : Binding}, R b c → b.name = c.name
  left : ∀ {b c : Binding}, R b c → b.id < m
  right : ∀ {b c : Binding}, R b c → c.id < n

namespace Matches

variable {R : Pairs} {m n : Nat}

theorem mono (h : R.Matches m n) {m' n' : Nat} (hm : m ≤ m') (hn : n ≤ n') : R.Matches m' n' :=
  ⟨h.unique, h.name, fun hbc => Nat.lt_of_lt_of_le (h.left hbc) hm,
    fun hbc => Nat.lt_of_lt_of_le (h.right hbc) hn⟩

theorem ne_left (h : R.Matches m n) {b x y : Binding} (hxy : R x y) (hb : m ≤ b.id) : x ≠ b := by
  intro e
  have := h.left hxy
  rw [e] at this
  omega

theorem ne_right (h : R.Matches m n) {c x y : Binding} (hxy : R x y) (hc : n ≤ c.id) : y ≠ c := by
  intro e
  have := h.right hxy
  rw [e] at this
  omega

theorem mint (h : R.Matches m n) (name : String) :
    (R.add ⟨m, name⟩ ⟨n, name⟩).Matches (m + 1) (n + 1) where
  unique := by
    rintro b b' c c' (⟨rfl, rfl⟩ | hbc) (⟨rfl, rfl⟩ | hbc')
    · simp
    · exact ⟨fun e => absurd e.symm (h.ne_left hbc' (Nat.le_refl _)),
        fun e => absurd e.symm (h.ne_right hbc' (Nat.le_refl _))⟩
    · exact ⟨fun e => absurd e (h.ne_left hbc (Nat.le_refl _)),
        fun e => absurd e (h.ne_right hbc (Nat.le_refl _))⟩
    · exact h.unique hbc hbc'
  name := by
    rintro b c (⟨rfl, rfl⟩ | hbc)
    · rfl
    · exact h.name hbc
  left := by
    rintro b c (⟨rfl, rfl⟩ | hbc)
    · exact Nat.lt_succ_self _
    · exact Nat.lt_succ_of_lt (h.left hbc)
  right := by
    rintro b c (⟨rfl, rfl⟩ | hbc)
    · exact Nat.lt_succ_self _
    · exact Nat.lt_succ_of_lt (h.right hbc)

theorem same {P : Binding → Prop} (hm : ∀ b, P b → b.id < m) (hn : ∀ b, P b → b.id < n) :
    (Pairs.same P).Matches m n where
  unique := by
    rintro b b' c c' ⟨rfl, -⟩ ⟨rfl, -⟩
    exact Iff.rfl
  name := by
    rintro b c ⟨rfl, -⟩
    rfl
  left := by
    rintro b c ⟨rfl, hb⟩
    exact hm b hb
  right := by
    rintro b c ⟨rfl, hb⟩
    exact hn b hb

end Matches

end Pairs

/-- The two terms are the same but for their free variables, which `R` pairs. -/
inductive Term.Alike (R : Pairs) : Term → Term → Prop where
  | bound (i : Nat) : Alike R (.bound i) (.bound i)
  | free {b c : Binding} : R b c → Alike R (.free b) (.free c)
  | lam {t u : Term} : Alike R t u → Alike R (.lam t) (.lam u)
  | pi (name : String) {A A' B B' : Term} : Alike R A A' → Alike R B B' →
      Alike R (.pi name A B) (.pi name A' B')
  | app {f f' a a' : Term} : Alike R f f' → Alike R a a' → Alike R (.app f a) (.app f' a')
  | bool (value : Bool) : Alike R (.bool value) (.bool value)
  | boolType : Alike R .boolType .boolType
  | type : Alike R .type .type
  | letIn (name : String) {A A' v v' t t' : Term} : Alike R A A' → Alike R v v' → Alike R t t' →
      Alike R (.letIn name A v t) (.letIn name A' v' t')

namespace Term.Alike

variable {R Q : Pairs} {t u : Term}

/-! ## Which variables are paired -/

/-- Only the pairs that the term needs matter. -/
theorem restrict (h : Alike R t u) {P : Binding → Prop} (ht : t.Over P)
    (hQ : ∀ x y, R x y → P x → Q x y) : Alike Q t u := by
  induction h with
  | bound i => exact .bound i
  | free hbc => exact .free (hQ _ _ hbc ht)
  | lam _ ih => exact .lam (ih ht)
  | pi name _ _ ihA ihB => exact .pi name (ihA ht.1) (ihB ht.2)
  | app _ _ ihf iha => exact .app (ihf ht.1) (iha ht.2)
  | bool value => exact .bool value
  | boolType => exact .boolType
  | type => exact .type
  | letIn name _ _ _ ihA ihv iht => exact .letIn name (ihA ht.1) (ihv ht.2.1) (iht ht.2.2)

theorem over_left (h : Alike R t u) : t.Over fun b => ∃ c, R b c := by
  induction h with
  | bound | bool | boolType | type => trivial
  | free hbc => exact ⟨_, hbc⟩
  | lam _ ih => exact ih
  | pi _ _ _ ihA ihB => exact ⟨ihA, ihB⟩
  | app _ _ ihf iha => exact ⟨ihf, iha⟩
  | letIn _ _ _ _ ihA ihv iht => exact ⟨ihA, ihv, iht⟩

theorem mono (h : Alike R t u) (hRQ : ∀ x y, R x y → Q x y) : Alike Q t u :=
  h.restrict h.over_left fun x y hxy _ => hRQ x y hxy

theorem symm (h : Alike R t u) : Alike (fun x y => R y x) u t := by
  induction h with
  | bound i => exact .bound i
  | free hbc => exact .free hbc
  | lam _ ih => exact .lam ih
  | pi name _ _ ihA ihB => exact .pi name ihA ihB
  | app _ _ ihf iha => exact .app ihf iha
  | bool value => exact .bool value
  | boolType => exact .boolType
  | type => exact .type
  | letIn name _ _ _ ihA ihv iht => exact .letIn name ihA ihv iht

theorem over_right (h : Alike R t u) : u.Over fun c => ∃ b, R b c := h.symm.over_left

theorem restrict_right (h : Alike R t u) {P : Binding → Prop} (hu : u.Over P)
    (hQ : ∀ x y, R x y → P y → Q x y) : Alike Q t u :=
  (h.symm.restrict hu fun y x hxy hy => hQ x y hxy hy).symm

theorem refl {P : Binding → Prop} (ht : t.Over P) (hR : ∀ b, P b → R b b) : Alike R t t := by
  induction t with
  | bound i => exact .bound i
  | free b => exact .free (hR b ht)
  | lam _ ih => exact .lam (ih ht)
  | pi name _ _ ihA ihB => exact .pi name (ihA ht.1) (ihB ht.2)
  | app _ _ ihf iha => exact .app (ihf ht.1) (iha ht.2)
  | bool value => exact .bool value
  | boolType => exact .boolType
  | type => exact .type
  | letIn name _ _ _ ihA ihv iht => exact .letIn name (ihA ht.1) (ihv ht.2.1) (iht ht.2.2)

theorem refl_same {P : Binding → Prop} (ht : t.Over P) : Alike (.same P) t t :=
  .refl ht fun _ hb => ⟨rfl, hb⟩

theorem rel_same {P : Binding → Prop} {ty : Option Term} (hty : ∀ T, ty = some T → T.Over P) :
    Option.Rel (Alike (.same P)) ty ty := by
  cases ty with
  | none => exact .none
  | some T => exact .some (refl_same (hty T rfl))

theorem eq (h : Alike R t u) (hR : ∀ b c, R b c → b = c) : t = u := by
  induction h with
  | bound | bool | boolType | type => rfl
  | free hbc => rw [hR _ _ hbc]
  | lam _ ih => rw [ih]
  | pi _ _ _ ihA ihB => rw [ihA, ihB]
  | app _ _ ihf iha => rw [ihf, iha]
  | letIn _ _ _ _ ihA ihv iht => rw [ihA, ihv, iht]

theorem eq_of_same {P : Binding → Prop} (h : Alike (Pairs.same P) t u) : t = u :=
  h.eq fun _ _ hbc => hbc.1

/-! ## What does not look at identities -/

theorem isLet_eq (h : Alike R t u) : u.isLet = t.isLet := by
  cases h <;> rfl

theorem isFree_spineHead_eq (h : Alike R t u) : u.spineHead.isFree = t.spineHead.isFree := by
  induction h with
  | app _ _ ihf _ => exact ihf
  | _ => rfl

theorem ne_lam (h : Alike R t u) (ht : ∀ body, t ≠ .lam body) : ∀ body, u ≠ .lam body := by
  rintro body rfl
  cases h with
  | lam _ => exact ht _ rfl

/-! ## Opening and closing binders -/

theorem replaceAt {a a' : Term} (ha : Alike R a a') (h : Alike R t u) (k : Nat) :
    Alike R (Term.replaceAt a k t) (Term.replaceAt a' k u) := by
  induction h generalizing k with
  | bound i =>
    unfold Term.replaceAt
    split
    · exact ha
    · exact .bound i
  | free hbc => exact .free hbc
  | lam _ ih => exact .lam (ih _)
  | pi name _ _ ihA ihB => exact .pi name (ihA _) (ihB _)
  | app _ _ ihf iha => exact .app (ihf _) (iha _)
  | bool value => exact .bool value
  | boolType => exact .boolType
  | type => exact .type
  | letIn name _ _ _ ihA ihv iht => exact .letIn name (ihA _) (ihv _) (iht _)

theorem instantiate {a a' : Term} (h : Alike R t u) (ha : Alike R a a') :
    Alike R (t.instantiate a) (u.instantiate a') :=
  replaceAt ha h 0

theorem openWith {b c : Binding} (h : Alike R t u) (hbc : R b c) :
    Alike R (t.openWith b) (u.openWith c) :=
  h.instantiate (.free hbc)

theorem openWith_add (h : Alike R t u) (b c : Binding) :
    Alike (R.add b c) (t.openWith b) (u.openWith c) :=
  (h.mono fun _ _ => .inr).openWith (.inl ⟨rfl, rfl⟩)

section Closing

variable {b c : Binding} (hbc : ∀ x y, R x y → (x = b ↔ y = c))
include hbc

theorem usage_eq (h : Alike R t u) : u.usage c = t.usage b := by
  induction h with
  | bound | bool | boolType | type => rfl
  | @free x y hxy => simp [usage, hbc x y hxy]
  | lam _ ih => exact ih
  | pi _ _ _ ihA ihB => simp [usage, ihA, ihB]
  | app _ _ ihf iha => simp [usage, ihf, iha]
  | letIn _ _ _ _ ihA ihv iht => simp [usage, ihA, ihv, iht]

variable (hQ : ∀ x y, R x y → x ≠ b → Q x y)
include hQ

/-- Closing two variables that are paired leaves no need for the pair. -/
theorem closeAt (h : Alike R t u) (k : Nat) :
    Alike Q (Term.closeAt b k t) (Term.closeAt c k u) := by
  induction h generalizing k with
  | bound i => exact .bound i
  | @free x y hxy =>
    unfold Term.closeAt
    by_cases hx : x = b
    · rw [if_pos hx, if_pos ((hbc x y hxy).1 hx)]
      exact .bound k
    · rw [if_neg hx, if_neg (mt (hbc x y hxy).2 hx)]
      exact .free (hQ x y hxy hx)
  | lam _ ih => exact .lam (ih _)
  | pi name _ _ ihA ihB => exact .pi name (ihA _) (ihB _)
  | app _ _ ihf iha => exact .app (ihf _) (iha _)
  | bool value => exact .bool value
  | boolType => exact .boolType
  | type => exact .type
  | letIn name _ _ _ ihA ihv iht => exact .letIn name (ihA _) (ihv _) (iht _)

theorem close (h : Alike R t u) : Alike Q (t.close b) (u.close c) :=
  h.closeAt hbc hQ 0

/-- A `let` is kept on one side exactly if it is kept on the other. -/
theorem makeLet (hname : b.name = c.name) {A A' v v' : Term} (hA : Alike Q A A')
    (hv : Alike Q v v') (h : Alike R t u) :
    Alike Q (Term.makeLet b A v t) (Term.makeLet c A' v' u) := by
  unfold Term.makeLet
  rw [h.usage_eq hbc]
  split
  · rename_i hzero
    exact h.restrict (usage_eq_zero_iff.1 hzero) hQ
  · rw [hname]
    exact .letIn c.name hA hv (h.close hbc hQ)

end Closing

end Term.Alike

namespace Pairs.Matches

variable {R : Pairs} {m n : Nat}

theorem separates (h : R.Matches m n) {b c : Binding} (hbc : R b c) :
    ∀ x y, R x y → (x = b ↔ y = c) :=
  fun _ _ hxy => h.unique hxy hbc

theorem separates_mint (h : R.Matches m n) (name : String) :
    ∀ x y, R.add ⟨m, name⟩ ⟨n, name⟩ x y → (x = ⟨m, name⟩ ↔ y = ⟨n, name⟩) :=
  (h.mint name).separates (.inl ⟨rfl, rfl⟩)

theorem of_add {b c x y : Binding} (h : R.add b c x y) (hx : x ≠ b) : R x y :=
  h.resolve_left fun e => hx e.1

theorem of_add_right {b c x y : Binding} (h : R.add b c x y) (hy : y ≠ c) : R x y :=
  h.resolve_left fun e => hy e.2

end Pairs.Matches

theorem rel_mono {α β : Type} {P Q : α → β → Prop} {x : Option α} {y : Option β}
    (h : Option.Rel P x y) (hPQ : ∀ a b, P a b → Q a b) : Option.Rel Q x y := by
  cases h with
  | none => exact .none
  | some hab => exact .some (hPQ _ _ hab)

theorem rel_map {α β : Type} {P : β → β → Prop} {f : α → β} {x y : Option α} :
    Option.Rel P (x.map f) (y.map f) ↔ Option.Rel (fun a b => P (f a) (f b)) x y := by
  cases x <;> cases y <;> simp

/-! ## Peeled lets -/

/-- The `let`s of two telescopes are alike, each over the variables before it, and `R'` is `R` with
the variables of the telescopes paired. -/
inductive Telescope.Alike : Pairs → Telescope → Telescope → Pairs → Prop where
  | nil {R : Pairs} : Alike R [] [] R
  | cons {R R' : Pairs} {b c : Binding} {d e : Definition} {peeled peeled' : Telescope} :
      d.ty.Alike R e.ty → d.value.Alike R e.value → b.name = c.name →
      (∀ x y, R.add b c x y → (x = b ↔ y = c)) → Alike (R.add b c) peeled peeled' R' →
      Alike R ((b, d) :: peeled) ((c, e) :: peeled') R'

namespace Telescope.Alike

variable {R R' : Pairs} {peeled peeled' : Telescope}

theorem subset (h : Alike R peeled peeled' R') : ∀ x y, R x y → R' x y := by
  induction h with
  | nil => exact fun _ _ => id
  | cons _ _ _ _ _ ih => exact fun x y hxy => ih x y (.inr hxy)

/-- Putting the `let`s back leaves no need for the pairs of their variables. -/
theorem wrap (h : Alike R peeled peeled' R') {t u : Term} (ht : t.Alike R' u) :
    (peeled.wrap t).Alike R (peeled'.wrap u) := by
  induction h with
  | nil => exact ht
  | cons hty hvalue hname hsep _ ih =>
    exact .makeLet hsep (fun _ _ => Pairs.Matches.of_add) hname hty hvalue (ih ht)

end Telescope.Alike

/-! ## Expressions and errors -/

/-- The two expressions are the same but for bindings, which `R` pairs. -/
inductive Expr.Alike (R : Pairs) : Expr → Expr → Prop where
  | type : Alike R .type .type
  | boolType : Alike R .boolType .boolType
  | bool (value : Bool) : Alike R (.bool value) (.bool value)
  | pi {b c : Binding} {A A' B B' : Expr} : R b c → Alike R A A' → Alike R B B' →
      Alike R (.pi b A B) (.pi c A' B')
  | lam {b c : Binding} {e e' : Expr} : R b c → Alike R e e' → Alike R (.lam b e) (.lam c e')
  | app {f f' a a' : Expr} : Alike R f f' → Alike R a a' → Alike R (.app f a) (.app f' a')
  | name (x : String) : Alike R (.name x) (.name x)
  | ref {b c : Binding} : R b c → Alike R (.ref b) (.ref c)
  | letIn {b c : Binding} {A A' v v' e e' : Expr} : R b c → Alike R A A' → Alike R v v' →
      Alike R e e' → Alike R (.letIn b A v e) (.letIn c A' v' e')
  | sigma {params params' : List (Param Expr)} {e e' : Expr} : params.length = params'.length →
      (∀ (i : Nat) p p', params[i]? = some p → params'[i]? = some p' → R p.binding p'.binding) →
      (∀ (i : Nat) p p', params[i]? = some p → params'[i]? = some p' → Alike R p.ty p'.ty) →
      Alike R e e' → Alike R (.sigma params e) (.sigma params' e')
  | tuple {elements elements' : List Expr} : elements.length = elements'.length →
      (∀ (i : Nat) e e', elements[i]? = some e → elements'[i]? = some e' → Alike R e e') →
      Alike R (.tuple elements) (.tuple elements')

namespace Expr.Alike

variable {R Q : Pairs} {e e' : Expr}

theorem mono (h : Alike R e e') (hRQ : ∀ x y, R x y → Q x y) : Alike Q e e' := by
  induction h with
  | type => exact .type
  | boolType => exact .boolType
  | bool value => exact .bool value
  | pi hbc _ _ ihA ihB => exact .pi (hRQ _ _ hbc) ihA ihB
  | lam hbc _ ih => exact .lam (hRQ _ _ hbc) ih
  | app _ _ ihf iha => exact .app ihf iha
  | name x => exact .name x
  | ref hbc => exact .ref (hRQ _ _ hbc)
  | letIn hbc _ _ _ ihA ihv ihe => exact .letIn (hRQ _ _ hbc) ihA ihv ihe
  | sigma hlen hb _ _ ihp ihe =>
    exact .sigma hlen (fun i p p' hp hp' => hRQ _ _ (hb i p p' hp hp')) ihp ihe
  | tuple hlen _ ih => exact .tuple hlen ih

end Expr.Alike

namespace Expr

mutual

theorem All.alike {P : Binding → Prop} {e : Expr} (h : e.All true P) : e.Alike (.same P) e := by
  cases e with
  | type => exact .type
  | boolType => exact .boolType
  | bool value => exact .bool value
  | pi b domain codomain => exact .pi ⟨rfl, h.1⟩ h.2.1.alike h.2.2.alike
  | lam b body => exact .lam ⟨rfl, h.1⟩ h.2.alike
  | app function argument => exact .app h.1.alike h.2.alike
  | name x => exact .name x
  | ref b => exact .ref ⟨rfl, h⟩
  | letIn b ty value body => exact .letIn ⟨rfl, h.1⟩ h.2.1.alike h.2.2.1.alike h.2.2.2.alike
  | sigma params last =>
    have hparams := fun i p hp => (h rfl).1.alike i p hp
    refine .sigma rfl (fun i p p' hp hp' => ?_) (fun i p p' hp hp' => ?_) (h rfl).2.alike
    · obtain rfl := Option.some.inj (hp.symm.trans hp')
      exact ⟨rfl, (hparams i p hp).1⟩
    · obtain rfl := Option.some.inj (hp.symm.trans hp')
      exact (hparams i p hp).2
  | tuple elements =>
    refine .tuple rfl fun i e e' he he' => ?_
    obtain rfl := Option.some.inj (he.symm.trans he')
    exact (h rfl).alike i e he

theorem AllParams.alike {P : Binding → Prop} {params : List (Param Expr)}
    (h : AllParams true P params) (i : Nat) (p : Param Expr) (hp : params[i]? = some p) :
    P p.binding ∧ p.ty.Alike (.same P) p.ty := by
  cases params with
  | nil => cases hp
  | cons q rest =>
    obtain ⟨b, ty⟩ := q
    cases i with
    | zero =>
      obtain rfl : ⟨b, ty⟩ = p := Option.some.inj hp
      exact ⟨h.1, h.2.1.alike⟩
    | succ i => exact h.2.2.alike i p hp

theorem AllElements.alike {P : Binding → Prop} {elements : List Expr}
    (h : AllElements true P elements) (i : Nat) (e : Expr) (he : elements[i]? = some e) :
    e.Alike (.same P) e := by
  cases elements with
  | nil => cases he
  | cons first rest =>
    cases i with
    | zero =>
      obtain rfl : first = e := Option.some.inj he
      exact h.1.alike
    | succ i => exact h.2.alike i e he

end

end Expr

/-- The errors have the same cause, and what they are about is alike. -/
inductive ElaborationError.Alike (R : Pairs) : ElaborationError → ElaborationError → Prop where
  | notInScope {b c : Binding} : R b c →
      Alike R (.scope (.notInScope b)) (.scope (.notInScope c))
  | alreadyInScope {b c : Binding} : R b c →
      Alike R (.scope (.alreadyInScope b)) (.scope (.alreadyInScope c))
  | unresolved (error : Unresolved) : Alike R (.unresolved error) (.unresolved error)
  | notAFunction {e e' : Expr} {t t' : Term} : e.Alike R e' → t.Alike R t' →
      Alike R (.notAFunction e t) (.notAFunction e' t')
  | mismatch {e e' : Expr} {t t' : Term} : e.Alike R e' → t.Alike R t' →
      Alike R (.mismatch e t) (.mismatch e' t')
  | unequal {t t' u u' : Term} {ty ty' : Option Term} : t.Alike R t' → u.Alike R u' →
      Option.Rel (Term.Alike R) ty ty' → Alike R (.unequal t u ty) (.unequal t' u' ty')
  | incomparable {t t' u u' : Term} : t.Alike R t' → u.Alike R u' →
      Alike R (.incomparable t u) (.incomparable t' u')
  | noRule {e e' : Expr} : e.Alike R e' → Alike R (.noRule e) (.noRule e')
  | notAType {t t' : Term} : t.Alike R t' → Alike R (.notAType t) (.notAType t')

end DepLang
