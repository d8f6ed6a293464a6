import DepLang.Proofs.Conversion
import DepLang.Proofs.LockstepChecking
import DepLang.Proofs.Mentions

/-!
# Remembering is transparent

Reductions and comparisons that run on one store leave normal forms in the place of values, in the
middle of whatever else they do. Nothing that is asked later can tell the difference.

A `Query` is a reduction or a comparison, and `Query.runAll` asks one after the other.

* `Store.Remembers s t`: the store `t` has the definitions of `s`, some of them with their normal
  forms. Every query keeps this, whatever it ends in (`Store.Remembers.query`), since it runs in
  lockstep with the same query on `s` itself.
* `memoization_transparent`: what a whole sequence of queries does to a store, and that each of them
  ends as it would have ended on the store as it was at first.
-/
namespace DepLang

open Check

/-- Something to ask of a store. -/
inductive Query where
  | reduce (term : Term)
  | compare (lhs rhs : Term) (ty : Option Term)

/-- What a query gives. -/
inductive Reply where
  | normal (term : Term)
  | verdict (same : Bool)

namespace Query

def run (fuel : Nat) (Γ : Context) : Query → Check Reply
  | reduce t => do return .normal (← whnf fuel t)
  | compare lhs rhs ty => do return .verdict (← equate fuel Γ lhs rhs ty)

/-- Asks one query after the other on the same store. An error does not keep the next query from
being asked. -/
def runAll (fuel : Nat) (Γ : Context) :
    List Query → Store → Option (List (Except ElaborationError Reply) × Store)
  | [], s => some ([], s)
  | query :: queries, s => do
    let (result, s₁) ← (query.run fuel Γ).run s
    let (results, s₂) ← runAll fuel Γ queries s₁
    return (result :: results, s₂)

/-- The variables of the query are below `n`. -/
def Below (n : Nat) : Query → Prop
  | reduce t => t.Below n
  | compare lhs rhs ty => lhs.Below n ∧ rhs.Below n ∧ ∀ T, ty = some T → T.Below n

end Query

theorem Context.Below.alike {n l r : Nat} {Γ : Context} (h : Γ.Below n) (hl : n ≤ l) (hr : n ≤ r) :
    Context.Alike ⟨.minted n, l, r⟩ Γ Γ where
  left b A hA := Nat.lt_of_lt_of_le (h b A hA).1 hl
  right b A hA := Nat.lt_of_lt_of_le (h b A hA).1 hr
  types := by
    rintro b c ⟨rfl, -⟩
    cases hA : Γ.lookup b with
    | none => exact .none
    | some A => exact .some (.refl_same (h b A hA).2)

namespace Store

/-- The variables that are defined, in their order, with their types. -/
def signature (s : Store) : List (Binding × Term) :=
  s.definitions.bindings.map fun entry => (entry.1, entry.2.ty)

theorem Settles.signature_eq {s s' : Store} (h : s.Settles s') : s'.signature = s.signature := by
  have hmap : ∀ t : Store, t.signature = t.definitions.keys.filterMap fun b =>
      ((t.definitions.lookup b).map Definition.ty).map fun A => (b, A) := by
    intro t
    rw [signature, Scope.bindings, List.map_filterMap]
    simp [Function.comp_def]
  rw [hmap, hmap, h.keys]
  simp only [h.ages.types]

variable {s t t' : Store}

theorem WellScoped.memoized (h : s.WellScoped) {S : Binding → Prop}
    (hS : ∀ b, S b → b.id < s.supply.next) (hvalues : s.Encloses S) :
    Memoized (.same S) s.supply.next s.values s where
  pairs := .same hS hS
  closed b v hv := by
    obtain ⟨d, hd, rfl⟩ := Option.map_eq_some_iff.1 hv
    exact h.closed b d hd
  paired := by
    rintro b _ v ⟨rfl, hb⟩ hv
    obtain ⟨d, hd, rfl⟩ := Option.map_eq_some_iff.1 hv
    exact (hvalues b d hd hb).mono fun y hy => ⟨y, rfl, hy⟩
  entries := by
    rintro b _ ⟨rfl, hb⟩
    unfold values
    cases hd : s.definitions.lookup b with
    | none => exact .none
    | some d => exact .some ⟨d.value, .inl rfl, .refl (hvalues b d hd hb) fun _ hx => ⟨rfl, hx⟩⟩

theorem WellScoped.memoized_minted (h : s.WellScoped) :
    Memoized (.minted s.supply.next) s.supply.next s.values s :=
  h.memoized (fun _ => id) fun b d hd _ => h.below b d hd

/-- The stores define the same variables, all of them in `S`, at the same types. Each has the values
that `E` gives or their normal forms, and `n` is above everything that they mention. -/
structure Shares (S : Binding → Prop) (n : Nat) (E : Values) (s₁ s₂ : Store) : Prop where
  memo₁ : Memoized (.same S) n E s₁
  memo₂ : Memoized (.same S) n E s₂
  types : ∀ b, (s₁.definitions.lookup b).map Definition.ty =
    (s₂.definitions.lookup b).map Definition.ty
  defined : ∀ b d, s₁.definitions.lookup b = some d → S b ∧ d.ty.Below n
  left : n ≤ s₁.supply.next
  right : n ≤ s₂.supply.next

namespace Shares

variable {S : Binding → Prop} {n : Nat} {E : Values} {s₁ s₂ t₁ t₂ : Store}

theorem below (h : Shares S n E s₁ s₂) {b : Binding} (hb : S b) : b.id < n :=
  h.memo₁.pairs.right ⟨rfl, hb⟩

theorem symm (h : Shares S n E s₁ s₂) : Shares S n E s₂ s₁ where
  memo₁ := h.memo₂
  memo₂ := h.memo₁
  types b := (h.types b).symm
  defined b d₂ hd₂ := by
    have hty := h.types b
    rw [hd₂] at hty
    obtain ⟨d₁, hd₁, hty⟩ := Option.map_eq_some_iff.1 hty
    exact hty ▸ h.defined b d₁ hd₁
  left := h.right
  right := h.left

theorem age (h : Shares S n E s₁ s₂) (hage : s₁.Ages t₁) (hmemo : Memoized (.same S) n E t₁) :
    Shares S n E t₁ s₂ where
  memo₁ := hmemo
  memo₂ := h.memo₂
  types b := (hage.types b).trans (h.types b)
  defined b d' hd' := by
    obtain ⟨d, hd, hty⟩ := hage.lookup_eq_some hd'
    exact hty ▸ h.defined b d hd
  left := Nat.le_trans h.left hage.supply
  right := h.right

theorem derive (h : Shares S n E s₁ s₂) : Shares S n E s₁.derive s₂.derive := by
  have hleft : ∀ {s t : Store}, Shares S n E s t → Shares S n E s.derive t := fun {s t} h =>
    h.age ⟨Nat.le_refl _, fun b => by rw [s.lookup_derive]⟩
      (h.memo₁.of_lookup (Nat.le_refl _) fun b _ _ => s.lookup_derive b)
  exact (hleft (hleft h).symm).symm

theorem define (h : Shares S n E s₁ s₂) {b : Binding} {d : Definition} (hb : ¬ S b) (hbn : b.id < n)
    (hvalue : d.value.Within S) (hty : d.ty.Below n)
    (hfresh₁ : s₁.definitions.lookup b = none) (hfresh₂ : s₂.definitions.lookup b = none)
    (ht₁ : t₁.definitions = s₁.definitions.bind b d)
    (ht₂ : t₂.definitions = s₂.definitions.bind b d) (hs₁ : s₁.supply.next ≤ t₁.supply.next)
    (hs₂ : s₂.supply.next ≤ t₂.supply.next) :
    Shares (fun c => c = b ∨ S c) n (E.define b d.value) t₁ t₂ := by
  have hself : ∀ {s t : Store}, s.definitions.lookup b = none →
      t.definitions = s.definitions.bind b d → t.definitions.lookup b = some d :=
    fun hs ht => by rw [ht, Scope.lookup_bind_self d hs]
  have hother : ∀ {s t : Store}, t.definitions = s.definitions.bind b d →
      ∀ c, c ≠ b → t.definitions.lookup c = s.definitions.lookup c :=
    fun ht c hc => by rw [ht, Scope.lookup_bind_of_ne _ _ hc]
  have hleft := Nat.le_trans h.left hs₁
  have hright := Nat.le_trans h.right hs₂
  refine ⟨h.memo₁.define hb hbn hvalue.closed hvalue.vars hleft (hself hfresh₁ ht₁) (hother ht₁),
    h.memo₂.define hb hbn hvalue.closed hvalue.vars hright (hself hfresh₂ ht₂) (hother ht₂),
    fun c => ?_, fun c e he => ?_, hleft, hright⟩
  · by_cases hc : c = b
    · rw [hc, hself hfresh₁ ht₁, hself hfresh₂ ht₂]
    · rw [hother ht₁ c hc, hother ht₂ c hc, h.types c]
  · by_cases hc : c = b
    · rw [hc, hself hfresh₁ ht₁] at he
      cases he
      exact ⟨.inl hc, hty⟩
    · rw [hother ht₁ c hc] at he
      exact ⟨.inr (h.defined c e he).1, (h.defined c e he).2⟩

/-- The two stores are twins, and no variable needs more than its identity. -/
theorem holds (h : Shares S n E s₁ s₂) :
    World.Holds ⟨.minted n, s₁.supply.next, s₂.supply.next⟩ S n E s₁ s₂ where
  twins := by
    refine ⟨.same (fun _ hb => Nat.lt_of_lt_of_le hb h.left)
      (fun _ hb => Nat.lt_of_lt_of_le hb h.right),
      fun b d hd => Nat.lt_of_lt_of_le (h.below (h.defined b d hd).1) h.left,
      fun b d hd => Nat.lt_of_lt_of_le (h.below (h.symm.defined b d hd).1) h.right,
      fun b hb => ⟨rfl, h.below hb⟩, h.memo₁, h.memo₂, ?_⟩
    rintro b c ⟨rfl, -⟩
    have hty := h.types b
    cases hd₁ : s₁.definitions.lookup b with
    | none =>
      rw [hd₁] at hty
      rw [Option.map_eq_none_iff.1 hty.symm]
      exact .none
    | some d₁ =>
      rw [hd₁] at hty
      obtain ⟨d₂, hd₂, hty⟩ := Option.map_eq_some_iff.1 hty.symm
      obtain ⟨hS, hbelow⟩ := h.defined b d₁ hd₁
      rw [hd₂]
      refine .some ⟨?_, fun hnot => absurd hS hnot⟩
      rw [hty]
      exact .refl_same hbelow
  left := rfl
  right := rfl

end Shares

/-- The store `t` has the definitions of `s`, with their values or the normal forms of these. -/
structure Remembers (s t : Store) : Prop where
  settles : s.Settles t
  memoized : Memoized (.minted s.supply.next) s.supply.next s.values t

namespace Remembers

theorem refl (h : s.WellScoped) : s.Remembers s := ⟨Store.Lasting.refl s, h.memoized_minted⟩

/-- Each value is the original one, or what that reduces to in the original store. -/
theorem value (h : s.Remembers t) (hs : s.WellScoped) {b : Binding} {d' : Definition}
    (hd' : t.definitions.lookup b = some d') :
    ∃ d, s.definitions.lookup b = some d ∧ (d'.value = d.value ∨
      ∃ u N, ∀ fuel, N ≤ fuel → whnf fuel d.value s = some (d'.value, u)) := by
  obtain ⟨d, hd, -⟩ := h.settles.ages.lookup_eq_some hd'
  refine ⟨d, hd, ?_⟩
  have hb : Pairs.minted s.supply.next b b := ⟨rfl, hs.keys b d hd⟩
  obtain ⟨v, hv, N, hN, halike⟩ := h.memoized.recalls hb hd'
  obtain rfl : d.value = v := by simpa [values, hd] using hv
  rw [halike.eq_of_same]
  refine hN.imp_right fun hN => ?_
  have hself : d.value.Alike (.minted s.supply.next) d.value := .refl_same (hs.below b d hd)
  have hlc := hs.closed b d hd
  obtain ⟨u, t', hrun⟩ := hN.normalizes hs.memoized_minted hself hlc
  have hu := (hrun.alike_of_evaluates hs.memoized_minted hself hlc hN).eq_of_same
  rw [hu] at hrun
  exact ⟨t', hrun.runs⟩

theorem shares (h : s.Remembers t) (hs : s.WellScoped)
    (htypes : ∀ b d, s.definitions.lookup b = some d → d.ty.Below s.supply.next) :
    Shares (fun b => b.id < s.supply.next) s.supply.next s.values t s where
  memo₁ := h.memoized
  memo₂ := hs.memoized_minted
  types := h.settles.ages.types
  defined b d' hd' := by
    obtain ⟨d, hd, hty⟩ := h.settles.ages.lookup_eq_some hd'
    exact ⟨hs.keys b d hd, hty ▸ htypes b d hd⟩
  left := h.settles.ages.supply
  right := Nat.le_refl _

end Remembers

end Store

namespace Query

variable {n : Nat} {Γ : Context} {q : Query}

theorem run_settles (fuel : Nat) (Γ : Context) (q : Query) : (q.run fuel Γ).Along Store.Settles := by
  cases q with
  | reduce t => exact .bind (whnf_settles fuel t) fun _ => .pure _
  | compare lhs rhs ty => exact .bind (equate_settles fuel Γ lhs rhs ty) fun _ => .pure _

theorem run_lockstep {S : Binding → Prop} {m l r : Nat} {E : Values} (hq : q.Below n)
    (hΓ : Γ.Below n) (hl : n ≤ l) (hr : n ≤ r) (fuel : Nat) :
    Lockstep S m E ⟨.minted n, l, r⟩ (q.run fuel Γ) (fun fuel => q.run fuel Γ) fun _ => Eq := by
  cases q with
  | reduce t =>
    exact .bind_still (.whnf fuel (.refl_same hq)) fun l r u u' _ hu =>
      .pure (congrArg Reply.normal hu.eq_of_same)
  | compare lhs rhs ty =>
    obtain ⟨hlhs, hrhs, hty⟩ := hq
    exact .bind (equate_lockstep S m E fuel (hΓ.alike hl hr) (.refl_same hlhs) (.refl_same hrhs)
      (Term.Alike.rel_same hty)) fun W' same same' _ hsame => .pure (congrArg Reply.verdict hsame)

end Query

section Original

variable {fuel : Nat} {Γ : Context} {s t t' : Store} (hs : s.WellScoped)
  (htypes : ∀ b d, s.definitions.lookup b = some d → d.ty.Below s.supply.next)
  (hΓ : Γ.Below s.supply.next)
include hs htypes hΓ

/-- **One query.** It ends as it does on the original store, and afterwards the store has the
original definitions still. -/
theorem Store.Remembers.query (h : s.Remembers t) {q : Query} {r : Except ElaborationError Reply}
    (hq : q.Below s.supply.next) (hrun : (q.run fuel Γ).run t = some (r, t')) :
    s.Remembers t' ∧ ∃ r' u, Ends (fun fuel => q.run fuel Γ) s r' u ∧
      SameOutcome s.supply.next r r' := by
  have hlockstep := Query.run_lockstep (S := fun b => b.id < s.supply.next) (m := s.supply.next)
    (E := s.values) hq hΓ h.settles.ages.supply (Nat.le_refl _) fuel
  obtain ⟨W', r', u, hgrows, hends, hW', hout⟩ := hlockstep.run (h.shares hs htypes).holds hrun
  refine ⟨⟨Store.Lasting.trans h.settles ((Query.run_settles fuel Γ q).run hrun), hW'.twins.memo₁⟩,
    r', u, hends, hout.same (fun b hb => hgrows.pairs b b ⟨rfl, hb⟩) fun _ _ => id⟩

/-- **All queries**, from a store that may have remembered something already. -/
theorem Store.Remembers.queries (h : s.Remembers t) {queries : List Query}
    {results : List (Except ElaborationError Reply)}
    (hqueries : ∀ q ∈ queries, q.Below s.supply.next)
    (hrun : Query.runAll fuel Γ queries t = some (results, t')) :
    s.Remembers t' ∧ results.length = queries.length ∧
      ∀ q r, (q, r) ∈ queries.zip results → ∃ r' u, Ends (fun fuel => q.run fuel Γ) s r' u ∧
        SameOutcome s.supply.next r r' := by
  induction queries generalizing t results with
  | nil =>
    cases hrun
    exact ⟨h, rfl, fun q r hqr => by cases hqr⟩
  | cons q queries ih =>
    obtain ⟨⟨r, t₁⟩, hr, hrun⟩ := Option.bind_eq_some_iff.1 hrun
    obtain ⟨⟨rest, t₂⟩, hrest, hrun⟩ := Option.bind_eq_some_iff.1 hrun
    cases hrun
    obtain ⟨ht₁, hsame⟩ := h.query hs htypes hΓ (hqueries q (.head _)) hr
    obtain ⟨ht₂, hlen, hsames⟩ := ih ht₁ (fun p hp => hqueries p (.tail _ hp)) hrest
    refine ⟨ht₂, congrArg (· + 1) hlen, fun p e hpe => ?_⟩
    rcases List.mem_cons.1 hpe with hpe | hpe
    · cases hpe
      exact hsame
    · exact hsames p e hpe

end Original

/-- **Remembering is transparent.** Ask any queries on a store, one after the other, and let all of
them end, in a reply or in an error. Then, and so after each of them, the same variables are defined
in the same order and at the same types. Each value is the original one or its normal form under the
original definitions. And each query ended as it does on the original store: in the same normal form
or verdict, or in the same error up to the identities of variables that were minted for it. Values
have no dangling index at first; everything else is only asked to mention variables that have been
minted. -/
theorem memoization_transparent {fuel : Nat} {Γ : Context} {queries : List Query}
    {results : List (Except ElaborationError Reply)} {s s' : Store} (hs : s.WellScoped)
    (htypes : ∀ b d, s.definitions.lookup b = some d → d.ty.Below s.supply.next)
    (hΓ : Γ.Below s.supply.next) (hqueries : ∀ q ∈ queries, q.Below s.supply.next)
    (h : Query.runAll fuel Γ queries s = some (results, s')) :
    s'.signature = s.signature ∧
      (∀ b d', s'.definitions.lookup b = some d' → ∃ d, s.definitions.lookup b = some d ∧
        (d'.value = d.value ∨
          ∃ u N, ∀ fuel, N ≤ fuel → whnf fuel d.value s = some (d'.value, u))) ∧
      results.length = queries.length ∧
      ∀ q r, (q, r) ∈ queries.zip results → ∃ r' u, Ends (fun fuel => q.run fuel Γ) s r' u ∧
        SameOutcome s.supply.next r r' := by
  obtain ⟨hs', hresults⟩ := (Store.Remembers.refl hs).queries hs htypes hΓ hqueries h
  exact ⟨hs'.settles.signature_eq, fun b d' hd' => hs'.value hs hd', hresults⟩

/-- A comparison unfolds `a` and `g`, and remembers that `a` is `true`. The queries after it, one of
them at a function in the place of a type, end as they would have without it. -/
theorem memoization_transparent_unfolded :
    let g : Binding := ⟨0, "g"⟩
    let a : Binding := ⟨1, "a"⟩
    let arrow : Term := .pi "x" .boolType .boolType
    let store : Term → Store := fun value => {
      definitions := {
        inner := [(g, ⟨.lam (.bound 0), arrow⟩), (a, ⟨value, .boolType⟩)] }
      supply := ⟨2⟩ }
    let s := store (.app (.free g) (.bool true))
    let compare := Query.compare (.free a) (.bool true) (some .boolType)
    let misuse := Query.compare (.free a) (.free a) (some (.free g))
    let results : List (Except ElaborationError Reply) :=
      [.ok (.verdict true), .error (.notAType (.lam (.bound 0))), .ok (.normal (.bool true))]
    Query.runAll 6 {} [compare, misuse, .reduce (.free a)] s =
        some (results, store (.bool true)) ∧
      (store (.bool true)).signature = s.signature ∧
      ∃ r' u, Ends (fun fuel => (Query.reduce (.free a)).run fuel {}) s r' u ∧
        SameOutcome 2 (.ok (.normal (.bool true))) r' := by
  intro g a arrow store s compare misuse results
  have hrun : Query.runAll 6 {} [compare, misuse, .reduce (.free a)] s =
      some (results, store (.bool true)) := rfl
  have hentries : ∀ b d, s.definitions.lookup b = some d →
      b.id < 2 ∧ d.value.LocallyClosed ∧ d.value.Below 2 ∧ d.ty.Below 2 := by
    intro b d hd
    have hmem := Scope.mem_bindings.2 hd
    have hbindings : s.definitions.bindings = [(g, ⟨.lam (.bound 0), arrow⟩),
        (a, ⟨.app (.free g) (.bool true), .boolType⟩)] := rfl
    rw [hbindings] at hmem
    simp only [List.mem_cons, Prod.mk.injEq, List.not_mem_nil, or_false] at hmem
    rcases hmem with ⟨rfl, rfl⟩ | ⟨rfl, rfl⟩
    · simp [g, arrow, Term.LocallyClosed, Term.ClosedAt, Term.Below, Term.Over]
    · simp [g, a, Term.LocallyClosed, Term.ClosedAt, Term.Below, Term.Over]
  have hs : s.WellScoped := ⟨fun b d hd => (hentries b d hd).1, fun b d hd => (hentries b d hd).2.1,
    fun b d hd => (hentries b d hd).2.2.1⟩
  have hΓ : Context.Below 2 {} := fun b A hA => by cases hA
  have hqueries : ∀ q ∈ [compare, misuse, .reduce (.free a)], q.Below 2 := by
    simp [compare, misuse, Query.Below, Term.Below, Term.Over, a, g]
  have htransparent := memoization_transparent hs (fun b d hd => (hentries b d hd).2.2.2) hΓ hqueries
    hrun
  exact ⟨hrun, htransparent.1, htransparent.2.2.2 _ _ (by simp [results])⟩

end DepLang
