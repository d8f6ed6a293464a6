import DepLang.Proofs.ScopeSafety
import DepLang.Proofs.Sessions
import DepLang.Proofs.Transparency
import Mathlib.Data.List.Forall2

/-!
# Identities do not matter

Bindings are told apart by their identities, which come from a counter. Nothing that the program
answers depends on which identities they are: if the bindings of the inputs are renamed, one to one
and with their names kept, and the counter stands anywhere above the identities in use, then the
answer is renamed and nothing else.

* `Renaming`: a renaming of all bindings, and what it does to terms, telescopes, expressions and
  errors.
* `Term.Alike.eq_rename`, `ElaborationError.Alike.eq_rename`: what is alike for pairs that a renaming
  agrees with is renamed. A pairing of finitely many identities is always part of a renaming
  (`Pairs.Matches.exists_renaming`), so two runs in lockstep end in what some renaming relates.
* `answers_rename`: reductions, peeling, comparisons and elaborations of renamed inputs.
-/
namespace DepLang

/-- A renaming of bindings is one to one and keeps names. -/
structure Renaming where
  map : Binding → Binding
  injective : Function.Injective map
  name : ∀ b, (map b).name = b.name

instance : CoeFun Renaming fun _ => Binding → Binding := ⟨Renaming.map⟩

namespace Renaming

/-- The binding is below `m`, and what it is renamed to is below `n`. -/
def InUse (ρ : Renaming) (m n : Nat) (b : Binding) : Prop := b.id < m ∧ (ρ b).id < n

instance (ρ : Renaming) (m n : Nat) (b : Binding) : Decidable (ρ.InUse m n b) :=
  inferInstanceAs (Decidable (_ ∧ _))

/-- Which binding in use is renamed to which. -/
def pairs (ρ : Renaming) (m n : Nat) : Pairs := fun b c => c = ρ b ∧ ρ.InUse m n b

theorem pairs_matches (ρ : Renaming) (m n : Nat) : (ρ.pairs m n).Matches m n where
  unique := by
    rintro b b' _ _ ⟨rfl, -⟩ ⟨rfl, -⟩
    exact ρ.injective.eq_iff.symm
  name := by
    rintro b _ ⟨rfl, -⟩
    exact (ρ.name b).symm
  left := fun h => h.2.1
  right := by
    rintro b _ ⟨rfl, -, h⟩
    exact h

/-- The renaming agrees with the pairs. -/
def Follows (ρ : Renaming) (R : Pairs) : Prop := ∀ b c, R b c → c = ρ b

theorem follows_pairs (ρ : Renaming) (m n : Nat) : ρ.Follows (ρ.pairs m n) := fun _ _ h => h.1

/-- The renamings agree on the bindings in use. -/
def Extends (ρ' ρ : Renaming) (m n : Nat) : Prop := ∀ b, ρ.InUse m n b → ρ' b = ρ b

end Renaming

open Classical in
/-- Renames as the pairs say. A binding that is not paired is shifted by `n`. -/
noncomputable def Pairs.renamed (R : Pairs) (n : Nat) (b : Binding) : Binding :=
  if h : ∃ c, R b c then h.choose else ⟨b.id + n, b.name⟩

namespace Pairs.Matches

variable {R : Pairs} {m n : Nat} {b c : Binding}

theorem renamed_eq (h : R.Matches m n) (hbc : R b c) : R.renamed n b = c := by
  have hb : ∃ c, R b c := ⟨c, hbc⟩
  rw [renamed, dif_pos hb]
  exact (h.unique hb.choose_spec hbc).1 rfl

theorem shifted_ne (h : R.Matches m n) (hbc : R b c) (x : Binding) : c ≠ ⟨x.id + n, x.name⟩ := by
  rintro rfl
  exact absurd (h.right hbc) (Nat.not_lt.2 (Nat.le_add_left ..))

/-- **A pairing is part of a renaming.** -/
theorem exists_renaming (h : R.Matches m n) : ∃ ρ : Renaming, ρ.Follows R := by
  refine ⟨⟨R.renamed n, fun b b' heq => ?_, fun b => ?_⟩, fun b c hbc => (h.renamed_eq hbc).symm⟩
  · by_cases hb : ∃ c, R b c <;> by_cases hb' : ∃ c, R b' c
    · obtain ⟨c, hc⟩ := hb
      obtain ⟨c', hc'⟩ := hb'
      rw [h.renamed_eq hc, h.renamed_eq hc'] at heq
      exact (h.unique hc hc').2 heq
    · obtain ⟨c, hc⟩ := hb
      rw [h.renamed_eq hc, renamed, dif_neg hb'] at heq
      exact absurd heq (h.shifted_ne hc b')
    · obtain ⟨c', hc'⟩ := hb'
      rw [h.renamed_eq hc', renamed, dif_neg hb] at heq
      exact absurd heq.symm (h.shifted_ne hc' b)
    · rw [renamed, renamed, dif_neg hb, dif_neg hb', Binding.mk.injEq, Nat.add_right_cancel_iff]
        at heq
      exact congrArg₂ Binding.mk heq.1 heq.2
  · by_cases hb : ∃ c, R b c
    · obtain ⟨c, hc⟩ := hb
      rw [h.renamed_eq hc, h.name hc]
    · rw [renamed, dif_neg hb]

end Pairs.Matches

/-! ## What is renamed -/

/-- Renames the free variables. -/
def Term.rename (ρ : Renaming) (t : Term) : Term := t.substAll fun b => .free (ρ b)

def Definition.rename (ρ : Renaming) (d : Definition) : Definition :=
  ⟨d.value.rename ρ, d.ty.rename ρ⟩

def Telescope.rename (ρ : Renaming) (entries : Telescope) : Telescope :=
  entries.map fun entry => (ρ entry.1, entry.2.rename ρ)

def Annotated.rename (ρ : Renaming) (r : Annotated) : Annotated :=
  ⟨r.term.rename ρ, r.ty.rename ρ⟩

namespace Expr

mutual

/-- Renames binders and references. -/
def rename (ρ : Renaming) : Expr → Expr
  | type => type
  | boolType => boolType
  | bool value => bool value
  | pi b domain codomain => pi (ρ b) (rename ρ domain) (rename ρ codomain)
  | lam b body => lam (ρ b) (rename ρ body)
  | app function argument => app (rename ρ function) (rename ρ argument)
  | name x => name x
  | ref b => ref (ρ b)
  | letIn b ty value body => letIn (ρ b) (rename ρ ty) (rename ρ value) (rename ρ body)
  | sigma params last => sigma (renameParams ρ params) (rename ρ last)
  | tuple elements => tuple (renameAll ρ elements)

def renameParams (ρ : Renaming) : List (Param Expr) → List (Param Expr)
  | [] => []
  | ⟨b, ty⟩ :: rest => ⟨ρ b, rename ρ ty⟩ :: renameParams ρ rest

def renameAll (ρ : Renaming) : List Expr → List Expr
  | [] => []
  | e :: rest => rename ρ e :: renameAll ρ rest

end

end Expr

namespace ElaborationError

/-- Renames the bindings that the error is about. -/
def rename (ρ : Renaming) : ElaborationError → ElaborationError
  | scope (.notInScope b) => scope (.notInScope (ρ b))
  | scope (.alreadyInScope b) => scope (.alreadyInScope (ρ b))
  | unresolved error => unresolved error
  | notAFunction function ty => notAFunction (function.rename ρ) (ty.rename ρ)
  | mismatch expr expected => mismatch (expr.rename ρ) (expected.rename ρ)
  | unequal lhs rhs ty => unequal (lhs.rename ρ) (rhs.rename ρ) (ty.map (Term.rename ρ))
  | incomparable lhs rhs => incomparable (lhs.rename ρ) (rhs.rename ρ)
  | noRule expr => noRule (expr.rename ρ)
  | notAType term => notAType (term.rename ρ)

end ElaborationError

/-! ## Renamed is alike, and alike is renamed -/

theorem Term.alike_rename {ρ : Renaming} {m n : Nat} {t : Term} (ht : t.Over (ρ.InUse m n)) :
    t.Alike (ρ.pairs m n) (t.rename ρ) := by
  induction t with
  | bound i => exact .bound i
  | free b => exact .free ⟨rfl, ht⟩
  | lam body ih => exact .lam (ih ht)
  | pi name A B ihA ihB => exact .pi name (ihA ht.1) (ihB ht.2)
  | app f a ihf iha => exact .app (ihf ht.1) (iha ht.2)
  | bool value => exact .bool value
  | boolType => exact .boolType
  | type => exact .type
  | letIn name A v body ihA ihv ihb => exact .letIn name (ihA ht.1) (ihv ht.2.1) (ihb ht.2.2)

theorem Term.Alike.eq_rename {R : Pairs} {ρ : Renaming} (hρ : ρ.Follows R) {t u : Term}
    (h : t.Alike R u) : u = t.rename ρ := by
  induction h with
  | bound | bool | boolType | type => rfl
  | free hbc => exact congrArg Term.free (hρ _ _ hbc)
  | lam _ ih => exact congrArg Term.lam ih
  | pi name _ _ ihA ihB => exact congrArg₂ (Term.pi name) ihA ihB
  | app _ _ ihf iha => exact congrArg₂ Term.app ihf iha
  | letIn name _ _ _ ihA ihv ihb => rw [ihA, ihv, ihb]; rfl

theorem Term.Alike.map_rename {R : Pairs} {ρ : Renaming} (hρ : ρ.Follows R) {t u : Option Term}
    (h : Option.Rel (Term.Alike R) t u) : u = t.map (Term.rename ρ) := by
  cases h with
  | none => rfl
  | some h => rw [h.eq_rename hρ]; rfl

theorem forall₂_iff_getElem? {α β : Type} {P : α → β → Prop} {l : List α} {l' : List β} :
    List.Forall₂ P l l' ↔ l.length = l'.length ∧
      ∀ (i : Nat) a b, l[i]? = some a → l'[i]? = some b → P a b := by
  rw [List.forall₂_iff_get]
  refine and_congr_right fun _ => ⟨fun h i a b ha hb => ?_, fun h i hi hi' => ?_⟩
  · obtain ⟨hi, rfl⟩ := List.getElem?_eq_some_iff.1 ha
    obtain ⟨hi', rfl⟩ := List.getElem?_eq_some_iff.1 hb
    exact h i hi hi'
  · exact h i _ _ (List.getElem?_eq_getElem hi) (List.getElem?_eq_getElem hi')

namespace Expr

theorem renameParams_eq_map (ρ : Renaming) (params : List (Param Expr)) :
    renameParams ρ params = params.map fun p => ⟨ρ p.binding, p.ty.rename ρ⟩ := by
  induction params with
  | nil => rfl
  | cons p rest ih =>
    obtain ⟨b, ty⟩ := p
    rw [renameParams, ih, List.map_cons]

theorem renameAll_eq_map (ρ : Renaming) (elements : List Expr) :
    renameAll ρ elements = elements.map (rename ρ) := by
  induction elements with
  | nil => rfl
  | cons e rest ih => rw [renameAll, ih, List.map_cons]

theorem Alike.rename_right {Q R : Pairs} {ρ : Renaming} {e e' : Expr} (h : e.Alike Q e')
    (hR : ∀ b c, Q b c → R b (ρ c)) : e.Alike R (e'.rename ρ) := by
  induction h with
  | type => exact .type
  | boolType => exact .boolType
  | bool value => exact .bool value
  | pi hbc _ _ ihA ihB => exact .pi (hR _ _ hbc) ihA ihB
  | lam hbc _ ih => exact .lam (hR _ _ hbc) ih
  | app _ _ ihf iha => exact .app ihf iha
  | name x => exact .name x
  | ref hbc => exact .ref (hR _ _ hbc)
  | letIn hbc _ _ _ ihA ihv ihe => exact .letIn (hR _ _ hbc) ihA ihv ihe
  | sigma hlen hb _ _ ihparams ihe =>
    rw [rename, renameParams_eq_map]
    refine .sigma (by simpa using hlen) (fun i p q hp hq => ?_) (fun i p q hp hq => ?_) ihe
    · rw [List.getElem?_map, Option.map_eq_some_iff] at hq
      obtain ⟨p', hp', rfl⟩ := hq
      exact hR _ _ (hb i p p' hp hp')
    · rw [List.getElem?_map, Option.map_eq_some_iff] at hq
      obtain ⟨p', hp', rfl⟩ := hq
      exact ihparams i p p' hp hp'
  | tuple hlen _ ih =>
    rw [rename, renameAll_eq_map]
    refine .tuple (by simpa using hlen) fun i e f he hf => ?_
    rw [List.getElem?_map, Option.map_eq_some_iff] at hf
    obtain ⟨e', he', rfl⟩ := hf
    exact ih i e e' he he'

/-- `R` pairs what satisfies `P` with what it is renamed to. -/
theorem alike_rename {P : Binding → Prop} {R : Pairs} {ρ : Renaming} (hR : ∀ b, P b → R b (ρ b))
    {e : Expr} (he : e.All true P) : e.Alike R (e.rename ρ) := by
  refine he.alike.rename_right fun b c hbc => ?_
  obtain ⟨rfl, hb⟩ := hbc
  exact hR b hb

theorem eq_renameParams {ρ : Renaming} {params params' : List (Param Expr)}
    (h : List.Forall₂ (fun p p' => p'.binding = ρ p.binding ∧ p'.ty = p.ty.rename ρ) params
      params') : params' = renameParams ρ params := by
  induction h with
  | nil => rfl
  | @cons p p' rest rest' hp _ ih =>
    obtain ⟨b, ty⟩ := p
    obtain ⟨b', ty'⟩ := p'
    obtain ⟨rfl, rfl⟩ := hp
    rw [ih]
    rfl

theorem eq_renameAll {ρ : Renaming} {elements elements' : List Expr}
    (h : List.Forall₂ (fun e e' => e' = e.rename ρ) elements elements') :
    elements' = renameAll ρ elements := by
  induction h with
  | nil => rfl
  | cons he _ ih => rw [he, ih]; rfl

theorem Alike.eq_rename {R : Pairs} {ρ : Renaming} (hρ : ρ.Follows R) {e e' : Expr}
    (h : e.Alike R e') : e' = e.rename ρ := by
  induction h with
  | type | boolType | bool | name => rfl
  | pi hbc _ _ ihA ihB => rw [hρ _ _ hbc, ihA, ihB]; rfl
  | lam hbc _ ih => rw [hρ _ _ hbc, ih]; rfl
  | app _ _ ihf iha => rw [ihf, iha]; rfl
  | ref hbc => rw [hρ _ _ hbc]; rfl
  | letIn hbc _ _ _ ihA ihv ihe => rw [hρ _ _ hbc, ihA, ihv, ihe]; rfl
  | sigma hlen hb _ _ ihparams ihe =>
    rw [eq_renameParams (forall₂_iff_getElem?.2 ⟨hlen, fun i p p' hp hp' =>
      ⟨hρ _ _ (hb i p p' hp hp'), ihparams i p p' hp hp'⟩⟩), ihe]
    rfl
  | tuple hlen _ ih => rw [eq_renameAll (forall₂_iff_getElem?.2 ⟨hlen, ih⟩)]; rfl

end Expr

theorem Annotated.Alike.eq_rename {R : Pairs} {ρ : Renaming} (hρ : ρ.Follows R) {r r' : Annotated}
    (h : Annotated.Alike R r r') : r' = r.rename ρ := by
  obtain ⟨term', ty'⟩ := r'
  obtain rfl : term' = _ := h.term.eq_rename hρ
  obtain rfl : ty' = _ := h.ty.eq_rename hρ
  rfl

theorem Telescope.Alike.eq_rename {R R' : Pairs} {ρ : Renaming} {peeled peeled' : Telescope}
    (h : Telescope.Alike R peeled peeled' R') (hρ : ρ.Follows R') : peeled' = peeled.rename ρ := by
  induction h with
  | nil => rfl
  | @cons R R' b c d e peeled peeled' hty hvalue _ _ htail ih =>
    have hadd : ρ.Follows (R.add b c) := fun x y hxy => hρ x y (htail.subset x y hxy)
    have hR : ρ.Follows R := fun x y hxy => hadd x y (.inr hxy)
    obtain ⟨value, ty⟩ := e
    obtain rfl : c = ρ b := hadd b c (.inl ⟨rfl, rfl⟩)
    obtain rfl : value = _ := hvalue.eq_rename hR
    obtain rfl : ty = _ := hty.eq_rename hR
    rw [ih hρ]
    rfl

theorem ElaborationError.Alike.eq_rename {R : Pairs} {ρ : Renaming} (hρ : ρ.Follows R)
    {e e' : ElaborationError} (h : e.Alike R e') : e' = e.rename ρ := by
  cases h with
  | notInScope hbc | alreadyInScope hbc => rw [hρ _ _ hbc]; rfl
  | unresolved => rfl
  | notAFunction he ht | mismatch he ht => rw [he.eq_rename hρ, ht.eq_rename hρ]; rfl
  | unequal ht hu hty =>
    rw [ht.eq_rename hρ, hu.eq_rename hρ, Term.Alike.map_rename hρ hty]
    rfl
  | incomparable ht hu => rw [ht.eq_rename hρ, hu.eq_rename hρ]; rfl
  | noRule he => rw [he.eq_rename hρ]; rfl
  | notAType ht => rw [ht.eq_rename hρ]; rfl

/-! ## Resolving names -/

/-- Both are resolved, to what `P` relates, or the same name is missing. -/
inductive ResolvesAlike {α β : Type} (P : α → β → Prop) :
    Except Unresolved α → Except Unresolved β → Prop where
  | ok {a : α} {b : β} : P a b → ResolvesAlike P (.ok a) (.ok b)
  | error (error : Unresolved) : ResolvesAlike P (.error error) (.error error)

theorem ResolvesAlike.bind {α β γ δ : Type} {P : α → β → Prop} {Q : γ → δ → Prop}
    {x : Except Unresolved α} {y : Except Unresolved β} {f : α → Except Unresolved γ}
    {g : β → Except Unresolved δ} (h : ResolvesAlike P x y)
    (hfg : ∀ a b, P a b → ResolvesAlike Q (f a) (g b)) : ResolvesAlike Q (x >>= f) (y >>= g) := by
  cases h with
  | ok hab => exact hfg _ _ hab
  | error e => exact .error e

section Resolution

variable {R : Pairs}

theorem Visible.find_alike (hname : ∀ b c, R b c → b.name = c.name) {visible visible' : Visible}
    (h : List.Forall₂ R visible visible') (x : String) :
    ResolvesAlike R (visible.find x) (visible'.find x) := by
  have hfind : Option.Rel R (visible.find? fun b => b.name = x)
      (visible'.find? fun b => b.name = x) := by
    induction h with
    | nil => exact .none
    | @cons b c rest rest' hbc _ ih =>
      rw [List.find?_cons, List.find?_cons, hname b c hbc]
      split
      · exact .some hbc
      · exact ih
  unfold Visible.find
  generalize visible.find? _ = found at hfind
  generalize visible'.find? _ = found' at hfind
  cases hfind with
  | none => exact .error _
  | some hbc => exact .ok hbc

theorem Expr.resolveParams_alike {params params' : List (Param Expr)}
    (h : List.Forall₂ (fun p p' => R p.binding p'.binding ∧ ∀ visible visible',
      List.Forall₂ R visible visible' →
        ResolvesAlike (Expr.Alike R) (p.ty.resolve visible) (p'.ty.resolve visible')) params params')
    {visible visible' : Visible} (hv : List.Forall₂ R visible visible') :
    ResolvesAlike (List.Forall₂ fun p p' => R p.binding p'.binding ∧ p.ty.Alike R p'.ty)
        (resolveParams visible params) (resolveParams visible' params') ∧
      List.Forall₂ R (visible.extend params) (visible'.extend params') := by
  induction h generalizing visible visible' with
  | nil => exact ⟨.ok .nil, hv⟩
  | @cons p p' rest rest' hp _ ih =>
    obtain ⟨b, ty⟩ := p
    obtain ⟨b', ty'⟩ := p'
    obtain ⟨hrest, hextend⟩ := ih (.cons hp.1 hv)
    refine ⟨?_, hextend⟩
    rw [resolveParams, resolveParams]
    exact .bind (hp.2 _ _ hv) fun ty ty' hty => .bind hrest fun _ _ h => .ok (.cons ⟨hp.1, hty⟩ h)

theorem Expr.resolveAll_alike {elements elements' : List Expr} {visible visible' : Visible}
    (h : List.Forall₂ (fun e e' => ResolvesAlike (Expr.Alike R) (e.resolve visible)
      (e'.resolve visible')) elements elements') :
    ResolvesAlike (List.Forall₂ (Expr.Alike R)) (resolveAll visible elements)
      (resolveAll visible' elements') := by
  induction h with
  | nil => exact .ok .nil
  | cons he _ ih =>
    rw [resolveAll, resolveAll]
    exact .bind he fun _ _ he => .bind ih fun _ _ h => .ok (.cons he h)

/-- **Names resolve alike.** -/
theorem Expr.Alike.resolve {e e' : Expr} (h : e.Alike R e')
    (hname : ∀ b c, R b c → b.name = c.name) {visible visible' : Visible}
    (hv : List.Forall₂ R visible visible') :
    ResolvesAlike (Expr.Alike R) (e.resolve visible) (e'.resolve visible') := by
  induction h generalizing visible visible' with
  | type => exact .ok .type
  | boolType => exact .ok .boolType
  | bool value => exact .ok (.bool value)
  | ref hbc => exact .ok (.ref hbc)
  | name x =>
    rw [Expr.resolve, Expr.resolve]
    exact .bind (Visible.find_alike hname hv x) fun _ _ hbc => .ok (.ref hbc)
  | pi hbc _ _ ihA ihB =>
    rw [Expr.resolve, Expr.resolve]
    exact .bind (ihA hv) fun _ _ hA => .bind (ihB (.cons hbc hv)) fun _ _ hB => .ok (.pi hbc hA hB)
  | lam hbc _ ih =>
    rw [Expr.resolve, Expr.resolve]
    exact .bind (ih (.cons hbc hv)) fun _ _ he => .ok (.lam hbc he)
  | app _ _ ihf iha =>
    rw [Expr.resolve, Expr.resolve]
    exact .bind (ihf hv) fun _ _ hf => .bind (iha hv) fun _ _ ha => .ok (.app hf ha)
  | letIn hbc _ _ _ ihA ihv ihe =>
    rw [Expr.resolve, Expr.resolve]
    exact .bind (ihA hv) fun _ _ hA => .bind (ihv hv) fun _ _ hvalue =>
      .bind (ihe (.cons hbc hv)) fun _ _ he => .ok (.letIn hbc hA hvalue he)
  | sigma hlen hb _ _ ihparams ihe =>
    obtain ⟨hparams, hextend⟩ := Expr.resolveParams_alike (forall₂_iff_getElem?.2 ⟨hlen,
      fun i p p' hp hp' => ⟨hb i p p' hp hp', fun _ _ => ihparams i p p' hp hp'⟩⟩) hv
    rw [Expr.resolve, Expr.resolve]
    refine .bind hparams fun ps ps' hps => .bind (ihe hextend) fun _ _ he => .ok ?_
    obtain ⟨hlen, hps⟩ := forall₂_iff_getElem?.1 hps
    exact .sigma hlen (fun i p p' hp hp' => (hps i p p' hp hp').1)
      (fun i p p' hp hp' => (hps i p p' hp hp').2) he
  | tuple hlen _ ih =>
    have helements := Expr.resolveAll_alike (forall₂_iff_getElem?.2 ⟨hlen,
      fun i e e' he he' => ih i e e' he he' hv⟩)
    rw [Expr.resolve, Expr.resolve]
    refine .bind helements fun es es' hes => .ok ?_
    obtain ⟨hlen, hes⟩ := forall₂_iff_getElem?.1 hes
    exact .tuple hlen hes

end Resolution

theorem Check.Lockstep.resolution_bind {α β γ δ : Type} {S : Binding → Prop} {n : Nat} {E : Values}
    {W : World} {P : α → β → Prop} {r : Except Unresolved α} {r' : Except Unresolved β}
    {f : α → Check γ} {F : Nat → β → Check δ} {Q : Pairs → γ → δ → Prop} (h : ResolvesAlike P r r')
    (hf : ∀ a b, P a b → Check.Lockstep S n E W (f a) (F · b) Q) :
    Check.Lockstep S n E W (Check.ofResolution r >>= f)
      (fun fuel => Check.ofResolution r' >>= F fuel) Q := by
  cases h with
  | ok hab => exact hf _ _ hab
  | error error => exact .fail (.unresolved error)

/-- **Closed expressions elaborate in lockstep.** -/
theorem elaborateClosed_lockstep {e e' ty ty' : Expr} {n : Nat} {E : Values} {fuel : Nat}
    {W : World} (he : e.Alike W.pairs e') (hty : ty.Alike W.pairs ty') :
    Check.Lockstep (fun _ => False) n E W (elaborateClosed fuel e ty)
      (fun fuel => elaborateClosed fuel e' ty') (W.still (Annotated.Alike W.pairs)) := by
  refine .of_matches fun hM => ?_
  have hname : ∀ b c, W.pairs b c → b.name = c.name := fun _ _ hbc => hM.name hbc
  have hempty : Context.Alike W {} {} :=
    ⟨fun b A hA => (by cases hA), fun b A hA => (by cases hA), fun _ _ _ => .none⟩
  exact .resolution_bind (he.resolve hname .nil) fun _ _ he =>
    .resolution_bind (hty.resolve hname .nil) fun _ _ hty =>
      elaborateAt_lockstep he hty hempty fun _ _ hS => hS.elim

/-! ## Renamed tables -/

/-- The second table is the first with bindings and entries renamed. -/
def Scope.RenamesTo {α : Type} (ρ : Renaming) (f : α → α) (s s' : Scope α) : Prop :=
  s'.bindings = s.bindings.map fun entry => (ρ entry.1, f entry.2)

namespace Scope.RenamesTo

variable {α : Type} {ρ : Renaming} {f : α → α} {s s' : Scope α}

theorem keys (h : RenamesTo ρ f s s') : s'.keys = s.keys.map ρ := by
  rw [← map_fst_bindings, ← map_fst_bindings, h, List.map_map, List.map_map]
  rfl

theorem lookup (h : RenamesTo ρ f s s') (b : Binding) : s'.lookup (ρ b) = (s.lookup b).map f := by
  refine Option.ext fun x => ?_
  rw [← mem_bindings, h, List.mem_map, Option.map_eq_some_iff]
  constructor
  · rintro ⟨⟨c, a⟩, ha, heq⟩
    obtain ⟨hc, rfl⟩ := Prod.mk.inj heq
    exact ⟨a, mem_bindings.1 (ρ.injective hc ▸ ha), rfl⟩
  · rintro ⟨a, ha, rfl⟩
    exact ⟨(b, a), mem_bindings.2 ha, rfl⟩

theorem exists_lookup (h : RenamesTo ρ f s s') {c : Binding} {x : α} (hc : s'.lookup c = some x) :
    ∃ b a, s.lookup b = some a ∧ c = ρ b ∧ x = f a := by
  obtain ⟨⟨b, a⟩, ha, heq⟩ := List.mem_map.1 (h ▸ mem_bindings.2 hc)
  exact ⟨b, a, mem_bindings.1 ha, (Prod.mk.inj heq).1.symm, (Prod.mk.inj heq).2.symm⟩

theorem of_lookup (hkeys : s'.keys = s.keys.map ρ)
    (h : ∀ b ∈ s.keys, s'.lookup (ρ b) = (s.lookup b).map f) : RenamesTo ρ f s s' := by
  unfold RenamesTo bindings
  rw [hkeys, List.filterMap_map, List.map_filterMap]
  refine List.filterMap_congr fun b hb => ?_
  rw [Function.comp_apply, h b hb, Option.map_map, Option.map_map]
  rfl

end Scope.RenamesTo

namespace Store

/-- The definitions of the second store are those of the first, renamed. -/
def RenamesTo (ρ : Renaming) (s s' : Store) : Prop :=
  s.definitions.RenamesTo ρ (Definition.rename ρ) s'.definitions

end Store

theorem Memoized.nothing (s : Store) : Memoized (.same fun _ => False) 0 (fun _ => none) s :=
  ⟨.same (fun _ hb => hb.elim) (fun _ hb => hb.elim), fun _ _ hv => (by cases hv),
    fun _ _ _ _ hv => (by cases hv), fun _ _ hbc => hbc.2.elim⟩

section Renamed

variable {ρ : Renaming} {m n : Nat} {s s' : Store}

/-- Stores that are renamed are twins, and nothing needs to be shared. -/
theorem Store.RenamesTo.holds (h : s.RenamesTo ρ s')
    (hs : s.Over (ρ.InUse s.supply.next s'.supply.next)) :
    World.Holds ⟨ρ.pairs s.supply.next s'.supply.next, s.supply.next, s'.supply.next⟩
      (fun _ => False) 0 (fun _ => none) s s' where
  twins := by
    refine ⟨ρ.pairs_matches _ _, fun b d hd => (hs b d hd).1.1, fun c e he => ?_,
      fun _ hb => hb.elim, .nothing s, .nothing s', ?_⟩
    · obtain ⟨b, d, hd, rfl, -⟩ := h.exists_lookup he
      exact (hs b d hd).1.2
    · rintro b _ ⟨rfl, hb⟩
      rw [h.lookup b]
      cases hd : s.definitions.lookup b with
      | none => exact .none
      | some d =>
        exact .some ⟨Term.alike_rename (hs b d hd).2.1, fun _ => Term.alike_rename (hs b d hd).2.2⟩
  left := rfl
  right := rfl

theorem Context.RenamesTo.alike {Γ Γ' : Context} (h : Γ.RenamesTo ρ (Term.rename ρ) Γ')
    (hΓ : Γ.Over (ρ.InUse m n)) : Context.Alike ⟨ρ.pairs m n, m, n⟩ Γ Γ' where
  left b A hA := (hΓ b A hA).1.1
  right c B hB := by
    obtain ⟨b, A, hA, rfl, -⟩ := h.exists_lookup hB
    exact (hΓ b A hA).1.2
  types := by
    rintro b _ ⟨rfl, hb⟩
    rw [h.lookup b]
    cases hA : Γ.lookup b with
    | none => exact .none
    | some A => exact .some (Term.alike_rename (hΓ b A hA).2)

/-- Twins whose variables are all paired are renamed. -/
theorem Twins.renamesTo {R : Pairs} {E : Values}
    (h : Twins R (fun _ => False) 0 E s s') (hρ : ρ.Follows R)
    (hkeys : s'.definitions.keys = s.definitions.keys.map ρ)
    (hpaired : ∀ b ∈ s.definitions.keys, R b (ρ b)) : s.RenamesTo ρ s' := by
  refine .of_lookup hkeys fun b hb => ?_
  have hentry := h.entries b (ρ b) (hpaired b hb)
  generalize s.definitions.lookup b = x at hentry
  generalize s'.definitions.lookup (ρ b) = y at hentry
  cases hentry with
  | none => rfl
  | @some d e hde =>
    obtain ⟨value, ty⟩ := e
    obtain rfl : ty = _ := hde.1.eq_rename hρ
    obtain rfl : value = _ := (hde.2 id).eq_rename hρ
    rfl

theorem Store.RenamesTo.of_settles (h : s.RenamesTo ρ s')
    (hs : s.Over (ρ.InUse s.supply.next s'.supply.next)) {ρ' : Renaming} {R : Pairs} {E : Values}
    {t t' : Store} (ht : s.Settles t) (ht' : s'.Settles t')
    (hT : Twins R (fun _ => False) 0 E t t') (hρ' : ρ'.Follows R)
    (hR : ∀ b c, ρ.pairs s.supply.next s'.supply.next b c → R b c) : t.RenamesTo ρ' t' := by
  have hpaired : ∀ b ∈ t.definitions.keys, R b (ρ b) := by
    intro b hb
    rw [ht.keys] at hb
    obtain ⟨d, hd⟩ := Option.isSome_iff_exists.1 (Scope.mem_keys.1 hb)
    exact hR b _ ⟨rfl, (hs b d hd).1⟩
  have hagree : ∀ b ∈ t.definitions.keys, ρ b = ρ' b := fun b hb => hρ' _ _ (hpaired b hb)
  refine hT.renamesTo hρ' ?_ fun b hb => hagree b hb ▸ hpaired b hb
  rw [ht'.keys, h.keys, ← ht.keys]
  exact List.map_congr_left hagree

end Renamed

/-! ## Answers -/

/-- The renaming that two runs in lockstep end with, where values are the same on both sides. -/
theorem World.Outcome.exists_renaming {α : Type} {W : World} {P : Pairs → α → α → Prop}
    {r r' : Except ElaborationError α} (h : W.Outcome P r r')
    (hM : W.pairs.Matches W.left W.right) (hP : ∀ a b, r = .ok a → P W.pairs a b → b = a) :
    ∃ ρ : Renaming, ρ.Follows W.pairs ∧ r' = r.mapError (ElaborationError.rename ρ) := by
  cases h with
  | ok hab =>
    obtain ⟨ρ, hρ⟩ := hM.exists_renaming
    exact ⟨ρ, hρ, congrArg Except.ok (hP _ _ rfl hab)⟩
  | error hsub hQ halike =>
    obtain ⟨ρ, hρ⟩ := hQ.exists_renaming
    exact ⟨ρ, fun b c hbc => hρ b c (hsub b c hbc), congrArg Except.error (halike.eq_rename hρ)⟩

theorem Renaming.Follows.extends {ρ ρ' : Renaming} {R : Pairs} {m n : Nat} (h : ρ'.Follows R)
    (hR : ∀ b c, ρ.pairs m n b c → R b c) : ρ'.Extends ρ m n :=
  fun b hb => (h b _ (hR b _ ⟨rfl, hb⟩)).symm

theorem Peels.keys {t u : Term} {peeled : Telescope} {s s' : Store} (h : Peels t s peeled u s')
    (hkeys : ∀ b ∈ s.definitions.keys, b.id < s.supply.next) :
    s'.definitions.keys = s.definitions.keys ++ peeled.map Prod.fst := by
  induction h with
  | head h _ => simp [h.settles.keys]
  | @peel t ty v body u name b peeled s s₁ s₂ h hb _ ih =>
    have hkeys₁ : ∀ c ∈ s₁.definitions.keys, c.id < s₁.supply.next := fun c hc =>
      Nat.lt_of_lt_of_le (hkeys c (h.settles.keys ▸ hc)) h.ages.supply
    have hnew : (s₁.supply.mint name).1 ∉ s₁.definitions.keys := fun hc =>
      absurd (hkeys₁ _ hc) (Nat.lt_irrefl s₁.supply.next)
    have henter : (s₁.enter name ⟨v, ty⟩).definitions.keys = s.definitions.keys ++ [b] := by
      rw [← h.settles.keys, hb]
      exact (Scope.keys_bind ..).trans (by rw [if_neg hnew])
    rw [ih, henter, List.map_cons, List.append_assoc]
    · rfl
    · intro c hc
      rw [henter, ← h.settles.keys, List.mem_append, List.mem_singleton] at hc
      rw [Store.enter_supply_next]
      rcases hc with hc | rfl
      · exact Nat.lt_succ_of_lt (hkeys₁ c hc)
      · rw [hb]
        exact Nat.lt_succ_self s₁.supply.next

theorem Telescope.Alike.paired {R R' : Pairs} {peeled peeled' : Telescope}
    (h : Telescope.Alike R peeled peeled' R') : ∀ b ∈ peeled.map Prod.fst, ∃ c, R' b c := by
  induction h with
  | nil => simp
  | @cons R R' b c d e peeled peeled' _ _ _ _ htail ih =>
    intro x hx
    rcases List.mem_cons.1 hx with rfl | hx
    · exact ⟨c, htail.subset _ _ (.inl ⟨rfl, rfl⟩)⟩
    · exact ih x hx

section Answers

variable {ρ : Renaming} {fuel m n : Nat} {s s' s₁ : Store} (h : s.RenamesTo ρ s')
  (hs : s.Over (ρ.InUse s.supply.next s'.supply.next))
include h hs

theorem whnf_rename {t u : Term} (ht : t.Over (ρ.InUse s.supply.next s'.supply.next))
    (hrun : whnf fuel t s = some (u, s₁)) :
    ∃ s₂, s₁.RenamesTo ρ s₂ ∧
      ∃ N, ∀ fuel, N ≤ fuel → whnf fuel (t.rename ρ) s' = some (u.rename ρ, s₂) := by
  have hnormal := normalizes_of_whnf hrun
  obtain ⟨u', s₂, hnormal', hT, hu⟩ := hnormal.twin (h.holds hs).twins (Term.alike_rename ht)
  obtain rfl := hu.eq_rename (ρ.follows_pairs _ _)
  exact ⟨s₂, h.of_settles hs hnormal.settles hnormal'.settles hT (ρ.follows_pairs _ _)
    fun _ _ => id, hnormal'.runs⟩

/-- The variables of the peeled `let`s are minted by the runs, and renamed accordingly. Once the
`let`s are put back, they are gone. -/
theorem peelLets_rename {t u : Term} {peeled : Telescope}
    (ht : t.Over (ρ.InUse s.supply.next s'.supply.next))
    (hrun : peelLets fuel t s = some ((peeled, u), s₁)) :
    ∃ ρ' s₂, Renaming.Extends ρ' ρ s.supply.next s'.supply.next ∧ s₁.RenamesTo ρ' s₂ ∧
      (∃ N, ∀ fuel, N ≤ fuel →
        peelLets fuel (t.rename ρ) s' = some ((peeled.rename ρ', u.rename ρ'), s₂)) ∧
      (peeled.rename ρ').wrap (u.rename ρ') = (peeled.wrap u).rename ρ := by
  have hpeels := peels_of_peelLets hrun
  obtain ⟨peeled', u', s₂, R, hpeels', htel, -, hT, hu⟩ :=
    hpeels.twin (h.holds hs).twins (Term.alike_rename ht)
  obtain ⟨ρ', hρ'⟩ := hT.pairs.exists_renaming
  have hwrap := (htel.wrap hu).eq_rename (ρ.follows_pairs _ _)
  obtain rfl := htel.eq_rename hρ'
  obtain rfl := hu.eq_rename hρ'
  have hkeys : ∀ b ∈ s.definitions.keys, ρ.InUse s.supply.next s'.supply.next b := by
    intro b hb
    obtain ⟨d, hd⟩ := Option.isSome_iff_exists.1 (Scope.mem_keys.1 hb)
    exact (hs b d hd).1
  have hagree : ∀ b ∈ s.definitions.keys, ρ b = ρ' b :=
    fun b hb => hρ' b _ (htel.subset b _ ⟨rfl, hkeys b hb⟩)
  have hkeys₁ := hpeels.keys fun b hb => (hkeys b hb).1
  have hkeys₂ := hpeels'.keys (by
    intro c hc
    rw [h.keys] at hc
    obtain ⟨b, hb, rfl⟩ := List.mem_map.1 hc
    exact (hkeys b hb).2)
  refine ⟨ρ', s₂, hρ'.extends htel.subset, hT.renamesTo hρ' ?_ fun b hb => ?_, hpeels'.runs, hwrap⟩
  · rw [hkeys₁, hkeys₂, h.keys, List.map_append, List.map_congr_left hagree]
    simp [Telescope.rename]
  · rw [hkeys₁, List.mem_append] at hb
    rcases hb with hb | hb
    · exact hagree b hb ▸ htel.subset b _ ⟨rfl, hkeys b hb⟩
    · obtain ⟨c, hc⟩ := htel.paired b hb
      exact hρ' b c hc ▸ hc

theorem equate_rename {Γ Γ' : Context} (hΓ : Γ.RenamesTo ρ (Term.rename ρ) Γ')
    (hΓs : Γ.Over (ρ.InUse s.supply.next s'.supply.next)) {lhs rhs : Term} {ty : Option Term}
    (hl : lhs.Over (ρ.InUse s.supply.next s'.supply.next))
    (hr : rhs.Over (ρ.InUse s.supply.next s'.supply.next))
    (hty : ∀ T, ty = some T → T.Over (ρ.InUse s.supply.next s'.supply.next))
    {result : Except ElaborationError Bool}
    (hrun : (equate fuel Γ lhs rhs ty).run s = some (result, s₁)) :
    ∃ ρ' s₂, Renaming.Extends ρ' ρ s.supply.next s'.supply.next ∧ s₁.RenamesTo ρ' s₂ ∧
      Ends (fun fuel => equate fuel Γ' (lhs.rename ρ) (rhs.rename ρ) (ty.map (Term.rename ρ))) s'
        (result.mapError (ElaborationError.rename ρ')) s₂ := by
  have htys : Option.Rel (Term.Alike (ρ.pairs s.supply.next s'.supply.next)) ty
      (ty.map (Term.rename ρ)) := by
    cases ty with
    | none => exact .none
    | some T => exact .some (Term.alike_rename (hty T rfl))
  obtain ⟨W, r', s₂, hW, hends, hholds, hout⟩ := (equate_lockstep _ _ _ fuel
    (Context.RenamesTo.alike hΓ hΓs) (Term.alike_rename hl) (Term.alike_rename hr) htys).run
    (h.holds hs) hrun
  obtain ⟨ρ', hρ', rfl⟩ := hout.exists_renaming hholds.pairs fun a b _ hab => hab.symm
  obtain ⟨N, hN⟩ := hends
  refine ⟨ρ', s₂, hρ'.extends hW.pairs, ?_, N, hN⟩
  exact h.of_settles hs ((equate_settles fuel Γ lhs rhs ty).run hrun)
    ((equate_settles N Γ' _ _ _).run (hN N (Nat.le_refl N))) hholds.twins hρ' hW.pairs

end Answers

theorem Term.rename_of_closed {t : Term} (ht : t.Over fun _ => False) (ρ : Renaming) :
    t.rename ρ = t :=
  (substAll_congr ht fun _ hb => hb.elim).trans t.substAll_free

theorem elaborateClosed_rename {ρ : Renaming} {fuel m n : Nat} {e ty : Expr}
    (he : e.All true (ρ.InUse m n)) (hty : ty.All true (ρ.InUse m n))
    {result : Except ElaborationError Annotated} {s₁ : Store}
    (hrun : (elaborateClosed fuel e ty).run { supply := ⟨m⟩ } = some (result, s₁)) :
    ∃ ρ' s₂, Renaming.Extends ρ' ρ m n ∧
      Ends (fun fuel => elaborateClosed fuel (e.rename ρ) (ty.rename ρ)) { supply := ⟨n⟩ }
        (result.mapError (ElaborationError.rename ρ')) s₂ := by
  have hempty : Store.RenamesTo ρ { supply := ⟨m⟩ } { supply := ⟨n⟩ } := rfl
  have hholds := hempty.holds fun b d hd => by cases hd
  have hpaired : ∀ b, ρ.InUse m n b → ρ.pairs m n b (ρ b) := fun _ hb => ⟨rfl, hb⟩
  obtain ⟨W, r', s₂, hW, hends, hholds', hout⟩ :=
    (elaborateClosed_lockstep (e.alike_rename hpaired he) (ty.alike_rename hpaired hty)).run hholds
      hrun
  obtain ⟨ρ', hρ', rfl⟩ := hout.exists_renaming hholds'.pairs fun a b ha hab => by
    subst ha
    obtain ⟨hterm, hty'⟩ := within_of_elaborateClosed (he.mono fun _ hb => hb.1)
      (hty.mono fun _ hb => hb.1) hrun
    rw [hab.2.eq_rename (ρ.follows_pairs m n), Annotated.rename, Term.rename_of_closed hterm.vars,
      Term.rename_of_closed hty'.vars]
  exact ⟨ρ', s₂, hρ'.extends hW.pairs, hends⟩

/-- **Answers do not depend on identities.** Let `ρ` rename bindings one to one, keeping names, and
let the definitions of `s'` be those of `s` renamed. All identities in use are below the supply of
the store they are used with; the supplies may be anything else. Whatever a reduction, a peeling or
a comparison on `s` ends in, the same on `s'` with everything renamed ends in the renamed result,
with enough fuel, and leaves the renamed definitions. What was minted on the way is renamed too: `ρ'`
agrees with `ρ` on what was in use. Peeled `let`s that are put back leave no trace of it, a verdict
is the same verdict, and an error is about the renamed terms. A closed expression elaborates to the
same term and the same type, or fails with the renamed error, however many bindings were minted
before. -/
theorem answers_rename (ρ : Renaming) {s s' : Store} (h : s.RenamesTo ρ s')
    (hs : s.Over (ρ.InUse s.supply.next s'.supply.next)) :
    (∀ {fuel : Nat} {t u : Term} {s₁ : Store},
      t.Over (ρ.InUse s.supply.next s'.supply.next) → whnf fuel t s = some (u, s₁) →
        ∃ s₂, s₁.RenamesTo ρ s₂ ∧
          ∃ N, ∀ fuel, N ≤ fuel → whnf fuel (t.rename ρ) s' = some (u.rename ρ, s₂)) ∧
    (∀ {fuel : Nat} {t u : Term} {peeled : Telescope} {s₁ : Store},
      t.Over (ρ.InUse s.supply.next s'.supply.next) → peelLets fuel t s = some ((peeled, u), s₁) →
        ∃ ρ' s₂, Renaming.Extends ρ' ρ s.supply.next s'.supply.next ∧ s₁.RenamesTo ρ' s₂ ∧
          (∃ N, ∀ fuel, N ≤ fuel →
            peelLets fuel (t.rename ρ) s' = some ((peeled.rename ρ', u.rename ρ'), s₂)) ∧
          (peeled.rename ρ').wrap (u.rename ρ') = (peeled.wrap u).rename ρ) ∧
    (∀ {fuel : Nat} {Γ Γ' : Context} {lhs rhs : Term} {ty : Option Term}
      {result : Except ElaborationError Bool} {s₁ : Store}, Γ.RenamesTo ρ (Term.rename ρ) Γ' →
        Γ.Over (ρ.InUse s.supply.next s'.supply.next) →
        lhs.Over (ρ.InUse s.supply.next s'.supply.next) →
        rhs.Over (ρ.InUse s.supply.next s'.supply.next) →
        (∀ T, ty = some T → T.Over (ρ.InUse s.supply.next s'.supply.next)) →
        (equate fuel Γ lhs rhs ty).run s = some (result, s₁) →
        ∃ ρ' s₂, Renaming.Extends ρ' ρ s.supply.next s'.supply.next ∧ s₁.RenamesTo ρ' s₂ ∧
          Ends (fun fuel => equate fuel Γ' (lhs.rename ρ) (rhs.rename ρ) (ty.map (Term.rename ρ)))
            s' (result.mapError (ElaborationError.rename ρ')) s₂) ∧
    ∀ {fuel m n : Nat} {e ty : Expr} {result : Except ElaborationError Annotated} {s₁ : Store},
      e.All true (ρ.InUse m n) → ty.All true (ρ.InUse m n) →
      (elaborateClosed fuel e ty).run { supply := ⟨m⟩ } = some (result, s₁) →
        ∃ ρ' s₂, Renaming.Extends ρ' ρ m n ∧
          Ends (fun fuel => elaborateClosed fuel (e.rename ρ) (ty.rename ρ)) { supply := ⟨n⟩ }
            (result.mapError (ElaborationError.rename ρ')) s₂ :=
  ⟨whnf_rename h hs, peelLets_rename h hs,
    fun hΓ hΓs hl hr hty hrun => equate_rename h hs hΓ hΓs hl hr hty hrun,
    fun he hty hrun => elaborateClosed_rename he hty hrun⟩

/-- All identities are moved up. -/
def Renaming.shift (k : Nat) : Renaming where
  map b := ⟨b.id + k, b.name⟩
  injective b c h := by
    obtain ⟨hid, hname⟩ := Binding.mk.inj h
    exact congrArg₂ Binding.mk (Nat.add_right_cancel hid) hname
  name _ := rfl

/-- A store defines `k`, and another one the same with its identity moved up and with a supply that
has gone further. `k` is unfolded on both sides and a `let` is peeled off, `k` is compared with its
value, and the identity function gets the same elaboration. -/
theorem answers_rename_shift :
    let ρ : Renaming := .shift 10
    let k : Binding := ⟨0, "k"⟩
    let f : Binding := ⟨1, "f"⟩
    let x : Binding := ⟨3, "x"⟩
    let t : Term := .letIn "x" .type (.free k) (.app (.free f) (.pi "_" (.bound 0) (.bound 1)))
    let s : Store := ⟨{ inner := [(k, ⟨.boolType, .type⟩)] }, ⟨2⟩⟩
    let s' : Store := ⟨{ inner := [(ρ k, ⟨.boolType, .type⟩)] }, ⟨30⟩⟩
    let e : Expr := .lam f (.name "f")
    let ty : Expr := .pi k .boolType .boolType
    s.RenamesTo ρ s' ∧ s.Over (ρ.InUse 2 30) ∧
    (∃ s₂ N, ∀ fuel, N ≤ fuel → whnf fuel (.free (ρ k)) s' = some (.boolType, s₂)) ∧
    (∃ ρ' s₂, Renaming.Extends ρ' ρ 2 30 ∧ ∃ N, ∀ fuel, N ≤ fuel → peelLets fuel (t.rename ρ) s' =
      some (([(ρ' x, ⟨.boolType, .type⟩)],
        .app (.free (ρ' f)) (.pi "_" (.free (ρ' x)) (.free (ρ' x)))), s₂)) ∧
    (∃ s₂, Ends (fun fuel => equate fuel {} (.free (ρ k)) .boolType none) s' (.ok true) s₂) ∧
    ∃ s₂, Ends (fun fuel => elaborateClosed fuel (e.rename ρ) (ty.rename ρ)) { supply := ⟨30⟩ }
      (.ok ⟨.lam (.bound 0), .pi "k" .boolType .boolType⟩) s₂ := by
  intro ρ k f x t s s' e ty
  have hs : s.Over (ρ.InUse s.supply.next s'.supply.next) := by
    intro b d hd
    obtain ⟨rfl, rfl⟩ := Scope.lookup_singleton hd
    exact ⟨by decide, trivial, trivial⟩
  have hk : ρ.InUse s.supply.next s'.supply.next k := by decide
  have hf : ρ.InUse s.supply.next s'.supply.next f := by decide
  have hrenames : s.RenamesTo ρ s' := rfl
  obtain ⟨hwhnf, hpeel, hequate, helab⟩ := answers_rename ρ hrenames hs
  refine ⟨hrenames, hs, ?_, ?_, ?_, ?_⟩
  · have ht : (Term.free k).Over (ρ.InUse s.supply.next s'.supply.next) := hk
    have hrun : ∃ s₁, whnf 2 (.free k) s = some (.boolType, s₁) := ⟨_, rfl⟩
    obtain ⟨s₁, hrun⟩ := hrun
    obtain ⟨s₂, -, hrun'⟩ := hwhnf ht hrun
    exact ⟨s₂, hrun'⟩
  · have ht : t.Over (ρ.InUse s.supply.next s'.supply.next) := ⟨trivial, hk, hf, trivial, trivial⟩
    have hrun : ∃ s₁, peelLets 6 t s = some (([(x, ⟨.boolType, .type⟩)],
        .app (.free f) (.pi "_" (.free x) (.free x))), s₁) := ⟨_, rfl⟩
    obtain ⟨s₁, hrun⟩ := hrun
    obtain ⟨ρ', s₂, hρ', -, hrun', -⟩ := hpeel ht hrun
    exact ⟨ρ', s₂, hρ', hrun'⟩
  · have hΓ : ({} : Context).RenamesTo ρ (Term.rename ρ) {} := rfl
    have hl : (Term.free k).Over (ρ.InUse s.supply.next s'.supply.next) := hk
    have hr : Term.boolType.Over (ρ.InUse s.supply.next s'.supply.next) := trivial
    have hrun : ∃ s₁, (equate 6 {} (.free k) .boolType none).run s = some (.ok true, s₁) := ⟨_, rfl⟩
    obtain ⟨s₁, hrun⟩ := hrun
    obtain ⟨ρ', s₂, -, -, hends⟩ := hequate hΓ (fun b A hA => by cases hA) hl hr
      (fun T hT => by cases hT) hrun
    exact ⟨s₂, hends⟩
  · have he : e.All true (ρ.InUse 2 30) := ⟨hf, trivial⟩
    have hty : ty.All true (ρ.InUse 2 30) := ⟨hk, trivial, trivial⟩
    have hrun : ∃ s₁, (elaborateClosed 6 e ty).run { supply := ⟨2⟩ } =
        some (.ok ⟨.lam (.bound 0), .pi "k" .boolType .boolType⟩, s₁) := ⟨_, rfl⟩
    obtain ⟨s₁, hrun⟩ := hrun
    obtain ⟨ρ', s₂, -, hends⟩ := helab he hty hrun
    exact ⟨s₂, hends⟩

end DepLang
