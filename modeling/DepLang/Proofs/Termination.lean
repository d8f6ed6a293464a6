import DepLang.Proofs.Idempotence
import DepLang.Proofs.Parallel

/-!
# Normalisation ends where no function is passed

Terms of any type may loop, and it takes little: `(λ x. x x) (λ x. x x)` passes a function to a
function. Here are terms that do not: no argument of an application, and no value or type of a
`let`, contains a lambda (`Term.NoLambdaPassed`). Functions may be applied, to any number of
arguments, and `let`s and applications may stand anywhere.

Two numbers go down. Applying a function to an argument without lambdas uses up the lambda of the
function, and brings in no other, however often the argument is copied. Without that a run only goes
to parts of a term. What it never does is to unfold a definition over and over: the values in the
store are those of `let`s, which were normalised before they were stored (`Store.Ground`), so a
variable takes one step.
-/
namespace DepLang

namespace Term

/-- How many lambdas the term contains. -/
def lambdas : Term → Nat
  | lam body => body.lambdas + 1
  | pi _ domain codomain => domain.lambdas + codomain.lambdas
  | app function argument => function.lambdas + argument.lambdas
  | letIn _ ty value body => ty.lambdas + value.lambdas + body.lambdas
  | bound _ | free _ | bool _ | boolType | type => 0

/-- No argument of an application, and no value or type of a `let`, contains a lambda. -/
def NoLambdaPassed : Term → Prop
  | lam body => body.NoLambdaPassed
  | pi _ domain codomain => domain.NoLambdaPassed ∧ codomain.NoLambdaPassed
  | app function argument => function.NoLambdaPassed ∧ argument.lambdas = 0
  | letIn _ ty value body => ty.lambdas = 0 ∧ value.lambdas = 0 ∧ body.NoLambdaPassed
  | bound _ | free _ | bool _ | boolType | type => True

theorem lambdas_replaceAt {s : Term} (hs : s.lambdas = 0) (t : Term) (k : Nat) :
    (replaceAt s k t).lambdas = t.lambdas := by
  induction t generalizing k with
  | bound i =>
    rw [replaceAt]
    split
    · exact hs
    · rfl
  | lam _ ih => simp only [replaceAt, lambdas, ih]
  | pi _ _ _ ihA ihB => simp only [replaceAt, lambdas, ihA, ihB]
  | app _ _ ihf iha => simp only [replaceAt, lambdas, ihf, iha]
  | letIn _ _ _ _ ihA ihv ihb => simp only [replaceAt, lambdas, ihA, ihv, ihb]
  | free | bool | boolType | type => rfl

theorem lambdas_instantiate {s : Term} (hs : s.lambdas = 0) (body : Term) :
    (body.instantiate s).lambdas = body.lambdas :=
  lambdas_replaceAt hs body 0

theorem lambdas_openWith (body : Term) (b : Binding) : (body.openWith b).lambdas = body.lambdas :=
  lambdas_replaceAt (s := free b) rfl body 0

theorem lambdas_closeAt (b : Binding) (t : Term) (k : Nat) :
    (closeAt b k t).lambdas = t.lambdas := by
  induction t generalizing k with
  | free c =>
    rw [closeAt]
    split <;> rfl
  | lam _ ih => simp only [closeAt, lambdas, ih]
  | pi _ _ _ ihA ihB => simp only [closeAt, lambdas, ihA, ihB]
  | app _ _ ihf iha => simp only [closeAt, lambdas, ihf, iha]
  | letIn _ _ _ _ ihA ihv ihb => simp only [closeAt, lambdas, ihA, ihv, ihb]
  | bound | bool | boolType | type => rfl

theorem lambdas_makeLet_le (b : Binding) (ty value body : Term) :
    (makeLet b ty value body).lambdas ≤ ty.lambdas + value.lambdas + body.lambdas := by
  rcases makeLet_cases b ty value body with ⟨-, h⟩ | h
  · rw [h]
    exact Nat.le_add_left ..
  · simp only [h, lambdas, close, lambdas_closeAt, Nat.le_refl]

namespace NoLambdaPassed

variable {s t : Term}

theorem of_lambdas_eq_zero (h : t.lambdas = 0) : t.NoLambdaPassed := by
  induction t with
  | lam => cases h
  | pi _ _ _ ihA ihB =>
    obtain ⟨hA, hB⟩ := Nat.add_eq_zero_iff.1 h
    exact ⟨ihA hA, ihB hB⟩
  | app _ _ ihf _ =>
    obtain ⟨hf, ha⟩ := Nat.add_eq_zero_iff.1 h
    exact ⟨ihf hf, ha⟩
  | letIn _ _ _ _ _ _ ihb =>
    obtain ⟨hpair, hb⟩ := Nat.add_eq_zero_iff.1 h
    obtain ⟨hA, hv⟩ := Nat.add_eq_zero_iff.1 hpair
    exact ⟨hA, hv, ihb hb⟩
  | bound | free | bool | boolType | type => trivial

theorem replaceAt (ht : t.NoLambdaPassed) (hs : s.lambdas = 0) (k : Nat) :
    (Term.replaceAt s k t).NoLambdaPassed := by
  induction t generalizing k with
  | bound i =>
    rw [Term.replaceAt]
    split
    · exact of_lambdas_eq_zero hs
    · trivial
  | lam _ ih => exact ih ht (k + 1)
  | pi _ _ _ ihA ihB => exact ⟨ihA ht.1 k, ihB ht.2 (k + 1)⟩
  | app _ _ ihf _ => exact ⟨ihf ht.1 k, (lambdas_replaceAt hs _ k).trans ht.2⟩
  | letIn _ _ _ _ _ _ ihb =>
    exact ⟨(lambdas_replaceAt hs _ k).trans ht.1, (lambdas_replaceAt hs _ k).trans ht.2.1,
      ihb ht.2.2 (k + 1)⟩
  | free | bool | boolType | type => trivial

theorem instantiate (ht : t.NoLambdaPassed) (hs : s.lambdas = 0) :
    (t.instantiate s).NoLambdaPassed :=
  ht.replaceAt hs 0

theorem openWith (ht : t.NoLambdaPassed) (b : Binding) : (t.openWith b).NoLambdaPassed :=
  ht.replaceAt (s := free b) rfl 0

theorem closeAt (ht : t.NoLambdaPassed) (b : Binding) (k : Nat) :
    (Term.closeAt b k t).NoLambdaPassed := by
  induction t generalizing k with
  | free c =>
    rw [Term.closeAt]
    split <;> trivial
  | lam _ ih => exact ih ht (k + 1)
  | pi _ _ _ ihA ihB => exact ⟨ihA ht.1 k, ihB ht.2 (k + 1)⟩
  | app _ _ ihf _ => exact ⟨ihf ht.1 k, (lambdas_closeAt b _ k).trans ht.2⟩
  | letIn _ _ _ _ _ _ ihb =>
    exact ⟨(lambdas_closeAt b _ k).trans ht.1, (lambdas_closeAt b _ k).trans ht.2.1,
      ihb ht.2.2 (k + 1)⟩
  | bound | bool | boolType | type => trivial

theorem makeLet {ty value : Term} (hty : ty.lambdas = 0) (hvalue : value.lambdas = 0)
    (ht : t.NoLambdaPassed) (b : Binding) : (Term.makeLet b ty value t).NoLambdaPassed := by
  rcases makeLet_cases b ty value t with ⟨-, h⟩ | h
  · rw [h]
    exact ht
  · rw [h]
    exact ⟨hty, hvalue, ht.closeAt b 0⟩

end NoLambdaPassed

end Term

/-- Everything defined is a normal form without lambdas. -/
structure Store.Ground (s : Store) : Prop where
  wellScoped : s.WellScoped
  inert : ∀ b d, s.definitions.lookup b = some d →
    d.value.Inert fun c => (s.definitions.lookup c).isSome = true
  lambdas : ∀ b d, s.definitions.lookup b = some d → d.value.lambdas = 0

namespace Store.Ground

variable {s s' : Store} {t : Term}

theorem of_empty (supply : Supply) : Ground { supply } where
  wellScoped := ⟨fun _ _ h => (by cases h), fun _ _ h => (by cases h), fun _ _ h => (by cases h)⟩
  inert _ _ h := by cases h
  lambdas _ _ h := by cases h

theorem of_lookup (h : s.Ground) (hs : s.supply.next ≤ s'.supply.next)
    (hl : ∀ b, s'.definitions.lookup b = s.definitions.lookup b) : s'.Ground where
  wellScoped := h.wellScoped.of_lookup hs hl
  inert b d hd := by
    simp only [hl] at hd ⊢
    exact h.inert b d hd
  lambdas b d hd := h.lambdas b d (hl b ▸ hd)

theorem derive (h : s.Ground) : s.derive.Ground := h.of_lookup (Nat.le_refl _) s.lookup_derive

/-- A `let` is entered whose value is a normal form without lambdas. -/
theorem enter (h : s.Ground) (name : String) {v : Term} (ty : Term)
    (hv : v.Inert fun c => (s.definitions.lookup c).isSome = true) (hl : v.lambdas = 0)
    (hvs : v.Within fun b => b.id < s.supply.next) : (s.enter name ⟨v, ty⟩).Ground := by
  -- The new variable occurs neither in the value nor in what was defined before.
  have hinert : ∀ {u : Term}, u.Below s.supply.next →
      (u.Inert fun c => (s.definitions.lookup c).isSome = true) →
      u.Inert fun c => ((s.enter name ⟨v, ty⟩).definitions.lookup c).isSome = true := by
    intro u hus hu
    refine hu.mono (hus.ne (b := (s.supply.mint name).1) (Nat.le_refl _)) fun c hc hdefined => ?_
    rwa [lookup_enter_of_ne s hc] at hdefined
  have hall : ∀ b d, (s.enter name ⟨v, ty⟩).definitions.lookup b = some d →
      d.value = v ∨ s.definitions.lookup b = some d := by
    intro b d hd
    by_cases hb : b = (s.supply.mint name).1
    · rw [hb, h.wellScoped.lookup_enter_self] at hd
      cases hd
      exact .inl rfl
    · rw [lookup_enter_of_ne s hb] at hd
      exact .inr hd
  refine ⟨h.wellScoped.enter name ty hvs, fun b d hd => ?_, fun b d hd => ?_⟩
  · rcases hall b d hd with hnew | hold
    · exact hnew ▸ hinert hvs.vars hv
    · exact hinert (h.wellScoped.below b d hold) (h.inert b d hold)
  · rcases hall b d hd with hnew | hold
    · exact hnew ▸ hl
    · exact h.lambdas b d hold

/-- Looking up a definition gives its value, since that is normal. -/
theorem normalizes_defined (h : s.Ground) {b : Binding} {d : Definition}
    (hd : s.definitions.lookup b = some d) :
    ∃ s', Normalizes (.free b) s d.value s' ∧ s'.Ground := by
  obtain ⟨m, hm, hvalue⟩ := (h.inert b d hd).normalizes (h.wellScoped.below b d hd)
  refine ⟨_, .layer (.defined hd hvalue), h.of_lookup (by simpa using hm) fun c => ?_⟩
  by_cases hc : c = b
  · rw [hc, lookup_remember_self]
    simp [hd]
  · exact lookup_remember_of_ne _ _ hc

/-- **What passes no lambda normalises**, to a term that passes none and contains no more of them.
The first induction is on the number of lambdas, which an application uses up; the second is on the
size, for the parts of a term. -/
theorem normalizes (h : s.Ground) (ht : t.NoLambdaPassed)
    (hts : t.Within fun b => b.id < s.supply.next) {n : Nat} (hn : t.lambdas ≤ n) :
    ∃ u s', Normalizes t s u s' ∧ s'.Ground ∧ u.NoLambdaPassed ∧ u.lambdas ≤ t.lambdas := by
  induction n using Nat.strongRecOn generalizing s t with
  | _ n fewer =>
  induction hw : t.size using Nat.strongRecOn generalizing s t with
  | _ w smaller =>
  subst hw
  -- A part without lambdas normalises to a term without lambdas.
  have plain : ∀ {s : Store} {a : Term}, s.Ground → a.size < t.size → a.lambdas = 0 →
      (a.Within fun b => b.id < s.supply.next) →
      ∃ u s', Normalizes a s u s' ∧ s'.Ground ∧ u.lambdas = 0 := by
    intro s a hs hlt ha has
    obtain ⟨u, s', hu, hs', -, hle⟩ :=
      smaller _ hlt hs (.of_lambdas_eq_zero ha) has (by omega) rfl
    exact ⟨u, s', hu, hs', by omega⟩
  cases t with
  | bound i => exact absurd hts.closed (Nat.not_lt_zero i)
  | lam | pi | bool | boolType | type =>
    exact ⟨_, s, .layer (.stable (by simp) (by simp) rfl), h, ht, Nat.le_refl _⟩
  | free b =>
    cases hl : s.definitions.lookup b with
    | none => exact ⟨_, s, .layer (.undefined hl), h, trivial, Nat.le_refl _⟩
    | some d =>
      obtain ⟨s', hvalue, h'⟩ := h.normalizes_defined hl
      have hfree := h.lambdas b d hl
      exact ⟨_, s', hvalue, h', .of_lambdas_eq_zero hfree, Nat.le_of_eq hfree⟩
  | app f a =>
    simp only [Term.lambdas] at hn ⊢
    simp only [Term.size] at plain smaller
    obtain ⟨hfs, has⟩ := Term.within_app.1 hts
    obtain ⟨f', s₁, hf, h₁, hpf, hlf⟩ := smaller _ (by omega) h ht.1 hfs (by omega) rfl
    have hf's := h.wellScoped.minted_of_normalizes hf hfs
    have has : a.Within fun b => b.id < s₁.supply.next :=
      has.mono fun b hb => Nat.lt_of_lt_of_le hb hf.ages.supply
    obtain ⟨a', s₂, ha, h₂, hla⟩ := plain h₁ (by omega) ht.2 has
    have ha's := h₁.wellScoped.minted_of_normalizes ha has
    by_cases hlam : ∃ body, f' = .lam body
    · obtain ⟨body, rfl⟩ := hlam
      have hbody := Term.lambdas_instantiate hla body
      simp only [Term.lambdas] at hlf
      obtain ⟨u, s₃, hu, h₃, hpu, hlu⟩ := fewer body.lambdas (by omega) h₂
        (Term.NoLambdaPassed.instantiate (t := body) hpf hla)
        ⟨Term.ClosedAt.instantiate hf's.closed ha's.closed,
          Term.Over.instantiate (Term.Below.mono hf's.vars ha.ages.supply) ha's.vars⟩
        (Nat.le_of_eq hbody)
      exact ⟨u, s₃, .layer (.apply hf ha hu), h₃, hpu, by omega⟩
    · have hstuck := NormalizesBy.stuck hf ha fun body hbody => hlam ⟨body, hbody⟩
      refine ⟨_, s₂, .layer hstuck, h₂, ⟨hpf, hla⟩, ?_⟩
      simp only [Term.lambdas]
      omega
  | letIn name ty v body =>
    simp only [Term.size] at plain smaller
    obtain ⟨ty', s₁, hty, h₁, hlty⟩ := plain h (by omega) ht.1 ⟨hts.closed.1, hts.vars.1⟩
    have hvs : v.Within fun b => b.id < s₁.supply.next :=
      ⟨hts.closed.2.1, Term.Below.mono hts.vars.2.1 hty.ages.supply⟩
    obtain ⟨v', s₂, hv, h₂, hlv⟩ := plain h₁ (by omega) ht.2.1 hvs
    have hv's := h₁.wellScoped.minted_of_normalizes hv hvs
    have hinert := hv.inert h₁.wellScoped hvs.closed hvs.vars
    have hbody : body.Below s₂.supply.next :=
      Term.Below.mono hts.vars.2.2 (Nat.le_trans hty.ages.supply hv.ages.supply)
    have h₃ := h₂.derive.enter name ty' (by simpa using hinert) hlv hv's
    have hopened := Term.lambdas_openWith body (s₂.supply.mint name).1
    simp only [Term.lambdas] at hn
    obtain ⟨body', s₃, hb, h₄, hpb, hlb⟩ := smaller _ (by rw [Term.size_openWith]; omega) h₃
      (ht.2.2.openWith (s₂.supply.mint name).1)
      ⟨hts.closed.2.2.openWith _,
        (Term.Below.mono hbody (Nat.le_succ _)).openWith (Nat.lt_succ_self _)⟩ (by omega) rfl
    -- The value of the `let` is read back from the store, which is ground as before.
    obtain ⟨d, hd⟩ := hb.exists_let_value
    have hld := h₄.lambdas _ d hd
    refine ⟨_, _, .layer (.letIn hty hv rfl hb), h₂.of_lookup ?_ fun _ => rfl, ?_, ?_⟩
    · exact Nat.le_trans (Nat.le_succ _) hb.ages.supply
    · rw [hd]
      exact .makeLet hlty hld hpb _
    · rw [hd]
      have hmake := Term.lambdas_makeLet_le (s₂.supply.mint name).1 ty' d.value body'
      exact Nat.le_trans hmake (by simp only [Term.lambdas]; omega)

end Store.Ground

/-- **Normalisation ends where no function is passed.** Take a term without dangling indices in
which no argument of an application, and no value or type of a `let`, contains a lambda, of any size
and of any type or none. Without definitions it has a normal form, and that is again such a term. -/
theorem whnf_ends_without_passed_lambdas {t : Term} {supply : Supply} (hlc : t.LocallyClosed)
    (hb : t.Below supply.next) (ht : t.NoLambdaPassed) :
    ∃ u s', (∃ N, ∀ fuel, N ≤ fuel → whnf fuel t { supply } = some (u, s')) ∧
      u.LocallyClosed ∧ u.NoLambdaPassed := by
  have hground := Store.Ground.of_empty supply
  obtain ⟨u, s', hu, -, hpu, -⟩ := hground.normalizes ht ⟨hlc, hb⟩ (Nat.le_refl _)
  exact ⟨u, s', hu.runs, (hground.wellScoped.minted_of_normalizes hu ⟨hlc, hb⟩).closed, hpu⟩

/-- The argument of a function is copied, and has a `let` around it. A function is what is left. -/
theorem whnf_ends_without_passed_lambdas_copied :
    let f : Term := .free ⟨0, "f"⟩
    let g : Term := .free ⟨1, "g"⟩
    let t : Term := .letIn "w" .boolType (.bool true)
      (.app (.lam (.lam (.app (.app (.app f (.bound 1)) (.bound 1)) (.app (.bound 0) (.bound 2)))))
        (.letIn "z" .boolType (.bound 0) (.app g (.bound 0))))
    let copy : Term := .app g (.bool true)
    let u : Term := .letIn "w" .boolType (.bool true)
      (.lam (.app (.app (.app f copy) copy) (.app (.bound 0) (.bound 1))))
    t.LocallyClosed ∧ t.Below 2 ∧ t.NoLambdaPassed ∧
      ∃ s', (∃ N, ∀ fuel, N ≤ fuel → whnf fuel t { supply := ⟨2⟩ } = some (u, s')) ∧
        u.NoLambdaPassed := by
  intro f g t copy u
  have hlc : t.LocallyClosed := by simp [t, f, g, Term.LocallyClosed, Term.ClosedAt]
  have hb : t.Below 2 := by simp [t, f, g, Term.Below, Term.Over]
  have ht : t.NoLambdaPassed := by simp [t, f, g, Term.NoLambdaPassed, Term.lambdas]
  have hanswer : (whnf 7 t { supply := ⟨2⟩ }).map Prod.fst = some u := by decide +kernel
  obtain ⟨⟨_, s'⟩, hrun, rfl⟩ := Option.map_eq_some_iff.1 hanswer
  obtain ⟨u', s'', ⟨N, hN⟩, -, hu'⟩ := whnf_ends_without_passed_lambdas hlc hb ht
  obtain ⟨rfl, rfl⟩ := (normalizes_of_whnf hrun).unique (normalizes_of_whnf (hN N (Nat.le_refl N)))
  exact ⟨hlc, hb, ht, s'', ⟨N, hN⟩, hu'⟩

end DepLang
