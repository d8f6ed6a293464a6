import DepLang.Proofs.Sessions
import DepLang.Proofs.Transparency

/-!
# Definitions and chains of lets

`Definitions.wrap` writes a table of definitions as a chain of `let`s around a term. Normalising the
term with the table and normalising the chain with nothing defined come to the same: the chain
becomes the normal form of the term, under the definitions it still depends on, whose types and
values are normal too.

* `Evaluates.makeLet`: one `let`. It is dropped on both sides or on neither, its variable may have
  any identity, and it makes no difference whether the body sees its value or the normal form of it.
* `Telescope.Normalized n earlier entries normal`: the entries of `normal` are the normal forms of
  those of `entries`, each found with the definitions before it.
* `whnf_wrap_eq_wrap_whnf`: the whole chain.
-/
namespace DepLang

/-! ## Variables and remembered values -/

/-- A normal form mentions only what the term leads to. -/
theorem Evaluates.confined {n : Nat} {E : Values} {t u : Term} (h : Evaluates n E t u)
    {P : Binding → Prop} (hP : ∀ b, P b → b.id < n)
    (hE : ∀ b v, P b → E b = some v → v.Over P) (ht : t.Over P) : u.Over P := by
  have hsame : ∀ b, P b → Pairs.same P b b := fun b hb => ⟨rfl, hb⟩
  have halike : E.Alike (.same P) E := by
    rintro b _ ⟨rfl, hb⟩
    cases hv : E b with
    | none => exact .none
    | some v => exact .some (.refl (hE b v hb hv) hsame)
  obtain ⟨u', -, hu⟩ := h.alike (.same hP hP) halike (.refl ht hsame)
  refine hu.over_left.mono fun b hb => ?_
  obtain ⟨_, -, hb⟩ := hb
  exact hb

namespace Store

variable {s : Store} {b : Binding} {d : Definition}

theorem WellScoped.set (h : s.WellScoped) (s' : Store) (hsupply : s'.supply = s.supply)
    (hself : s'.definitions.lookup b = some d)
    (hother : ∀ c, c ≠ b → s'.definitions.lookup c = s.definitions.lookup c)
    (hbn : b.id < s.supply.next) (hclosed : d.value.LocallyClosed)
    (hbelow : d.value.Below s.supply.next) : s'.WellScoped := by
  have hlookup : ∀ c e, s'.definitions.lookup c = some e →
      c = b ∧ e = d ∨ s.definitions.lookup c = some e := by
    intro c e he
    by_cases hc : c = b
    · subst hc
      exact .inl ⟨rfl, Option.some.inj (he.symm.trans hself)⟩
    · exact .inr (hother c hc ▸ he)
  have hentry : ∀ c e, s'.definitions.lookup c = some e →
      c.id < s.supply.next ∧ e.value.LocallyClosed ∧ e.value.Below s.supply.next := by
    intro c e he
    rcases hlookup c e he with ⟨rfl, rfl⟩ | he
    · exact ⟨hbn, hclosed, hbelow⟩
    · exact ⟨h.keys c e he, h.closed c e he, h.below c e he⟩
  rw [← hsupply] at hentry
  exact ⟨fun c e he => (hentry c e he).1, fun c e he => (hentry c e he).2.1,
    fun c e he => (hentry c e he).2.2⟩

theorem values_set (s s' : Store) (hself : s'.definitions.lookup b = some d)
    (hother : ∀ c, c ≠ b → s'.definitions.lookup c = s.definitions.lookup c) :
    s'.values = s.values.define b d.value := by
  funext c
  by_cases hc : c = b
  · subst hc
    simp [values, hself]
  · simp [values, hother c hc, Values.define_of_ne _ _ hc]

end Store

/-- It makes no difference whether a variable is defined by a term or by the normal form of it. -/
theorem Evaluates.remember {s : Store} (hs : s.WellScoped) {b : Binding} {d : Definition}
    (hd : s.definitions.lookup b = some d) {t u v : Term}
    (hv : Evaluates s.supply.next s.values d.value v) (h : Evaluates s.supply.next s.values t u)
    (ht : t.Below s.supply.next) (hlc : t.LocallyClosed) :
    Evaluates s.supply.next (s.values.define b v) t u := by
  have hE : ∀ c w, s.values c = some w → w.LocallyClosed ∧ w.Below s.supply.next := by
    intro c w hw
    obtain ⟨e, he, rfl⟩ := Option.map_eq_some_iff.1 hw
    exact ⟨hs.closed c e he, hs.below c e he⟩
  have hvb := hv.confined (fun _ => id) (fun c w _ hw => (hE c w hw).2) (hs.below b d hd)
  have hvc := hv.locallyClosed (fun c w hw => (hE c w hw).1) (hs.closed b d hd)
  -- the store that has remembered the normal form is known by the old values and by its own
  have hold : Memoized (.minted s.supply.next) s.supply.next s.values (s.remember b v) := by
    refine hs.memoized_minted.remember ?_
    rintro _ w ⟨rfl, -⟩ hw
    obtain ⟨e, he, rfl⟩ := Option.map_eq_some_iff.1 hw
    cases hd.symm.trans he
    exact ⟨v, hv, .refl_same hvb⟩
  have hlookup : (s.remember b v).definitions.lookup b = some ⟨v, d.ty⟩ := by
    rw [Store.lookup_remember_self, hd]
    rfl
  have hother := fun c (hc : c ≠ b) => Store.lookup_remember_of_ne s v hc
  have hown := (hs.set _ (s.remember_supply b v) hlookup hother (hs.keys b d hd) hvc
    hvb).memoized_minted
  rw [Store.remember_supply, s.values_set _ hlookup hother] at hown
  have hself := Term.Alike.refl_same ht
  obtain ⟨w, s', hrun⟩ := h.normalizes hold hself hlc
  obtain rfl := (hrun.alike_of_evaluates hold hself hlc h).eq_of_same
  obtain ⟨w', hw', halike⟩ := hrun.evaluates hown hself hlc
  rwa [← halike.eq_of_same] at hw'

/-! ## One let -/

theorem Values.define_define (E : Values) (b : Binding) (v w : Term) :
    (E.define b v).define b w = E.define b w := by
  funext c
  by_cases hc : c = b
  · simp [hc]
  · simp [Values.define_of_ne _ _ hc]

section OneLet

variable {n : Nat} {S : Binding → Prop} {b : Binding}

/-- A variable that is not in the set stands for one that is minted next, and the others for
themselves. -/
theorem Pairs.Matches.rename (hS : ∀ c, S c → c.id < n) (hb : ¬ S b) (hbn : b.id < n) :
    ((Pairs.same S).add b ⟨n, b.name⟩).Matches n (n + 1) where
  unique := by
    rintro x x' y y' (⟨rfl, rfl⟩ | ⟨rfl, hx⟩) (⟨rfl, rfl⟩ | ⟨rfl, hx'⟩)
    · exact ⟨fun _ => rfl, fun _ => rfl⟩
    · refine ⟨fun h => absurd (h ▸ hx') hb, fun h => ?_⟩
      exact absurd (hS _ hx') (by rw [← h]; exact Nat.lt_irrefl n)
    · refine ⟨fun h => absurd (h ▸ hx) hb, fun h => ?_⟩
      exact absurd (hS _ hx) (by rw [h]; exact Nat.lt_irrefl n)
    · exact Iff.rfl
  name := by
    rintro x y (⟨rfl, rfl⟩ | ⟨rfl, -⟩) <;> rfl
  left := by
    rintro x y (⟨rfl, rfl⟩ | ⟨rfl, hx⟩)
    · exact hbn
    · exact hS _ hx
  right := by
    rintro x y (⟨rfl, rfl⟩ | ⟨rfl, hx⟩)
    · exact Nat.lt_succ_self n
    · exact Nat.lt_succ_of_lt (hS _ hx)

theorem Values.Alike.rename {E : Values} (hS : ∀ c, S c → c.id < n) (hb : ¬ S b)
    (hE : ∀ c w, S c → E c = some w → w.Over S) {v : Term} (hv : v.Over S) :
    Values.Alike ((Pairs.same S).add b ⟨n, b.name⟩) (E.define b v) (E.define ⟨n, b.name⟩ v) := by
  have hself : ∀ {t : Term}, t.Over S → t.Alike ((Pairs.same S).add b ⟨n, b.name⟩) t :=
    fun ht => .refl ht fun c hc => .inr ⟨rfl, hc⟩
  rintro x y (⟨rfl, rfl⟩ | ⟨rfl, hx⟩)
  · rw [Values.define_self, Values.define_self]
    exact .some (hself hv)
  · have hxb : x ≠ b := fun h => hb (h ▸ hx)
    have hxn : x ≠ ⟨n, b.name⟩ := fun h => absurd (hS x hx) (by rw [h]; exact Nat.lt_irrefl n)
    rw [Values.define_of_ne _ _ hxb, Values.define_of_ne _ _ hxn]
    cases hw : E x with
    | none => exact .none
    | some w => exact .some (hself (hE x w hx hw))

end OneLet

/-- **One `let`.** A body that is normalised with a definition is normalised under the `let`. -/
theorem Evaluates.makeLet {s : Store} (hs : s.WellScoped) {S : Binding → Prop}
    (hS : ∀ c, S c → c.id < s.supply.next) (hvalues : s.Encloses S) {b : Binding}
    (hbs : s.definitions.lookup b = none) (hb : ¬ S b) (hbn : b.id < s.supply.next)
    {d : Definition} (hdty : d.ty.Over S) (hdv : d.value.Within S) {A v body body' : Term}
    (hA : Evaluates s.supply.next s.values d.ty A) (hv : Evaluates s.supply.next s.values d.value v)
    (hw : body.Within fun c => c = b ∨ S c)
    (hbody : Evaluates s.supply.next (s.values.define b d.value) body body') :
    Evaluates s.supply.next s.values (.makeLet b d.ty d.value body) (.makeLet b A v body') := by
  have hne : ∀ c, S c → c ≠ b := fun c hc h => hb (h ▸ hc)
  have hE : ∀ c w, S c → s.values c = some w → w.Over S := by
    intro c w hc hw
    obtain ⟨e, he, rfl⟩ := Option.map_eq_some_iff.1 hw
    exact hvalues c e he hc
  have hdefine : ∀ (w : Term) c, S c → s.values.define b w c = s.values c :=
    fun w c hc => Values.define_of_ne _ w (hne c hc)
  have hbelow : body.Below s.supply.next := hw.vars.mono fun c hc => hc.elim (· ▸ hbn) (hS c)
  rcases Term.makeLet_cases b d.ty d.value body with ⟨hfresh, heq⟩ | heq
  · -- the body does not use the variable, and so neither does its normal form
    have hover : body.Over S := (hw.vars.and hfresh).mono fun c hc => hc.1.resolve_left hc.2
    have hbody' : Evaluates s.supply.next s.values body body' :=
      hbody.elsewhere hS hS (fun c hc => (hdefine _ c hc).symm)
        (fun c w hc hw => hE c w hc (hdefine _ c hc ▸ hw)) hover
    rw [heq, Term.makeLet_of_fresh ((hbody'.confined hS hE hover).mono hne)]
    exact hbody'
  · have hAS := hA.confined hS hE hdty
    have hvS := hv.confined hS hE hdv.vars
    -- the `let` defines its variable by the normal form of the value
    have hself : (s.definitions.bind b d).lookup b = some d := Scope.lookup_bind_self d hbs
    have hother := fun c (hc : c ≠ b) => s.definitions.lookup_bind_of_ne d hc
    have hs₁ := hs.set ⟨s.definitions.bind b d, s.supply⟩ rfl hself hother hbn hdv.closed
      (hdv.vars.mono hS)
    have hvalues₁ := s.values_set ⟨s.definitions.bind b d, s.supply⟩ hself hother
    have hv₁ : Evaluates s.supply.next (s.values.define b d.value) d.value v :=
      hv.elsewhere hS hS (hdefine _) hE hdv.vars
    rw [← hvalues₁] at hbody hv₁
    have hnormal := Evaluates.remember hs₁ hself hv₁ hbody hbelow hw.closed
    rw [hvalues₁, Values.define_define] at hnormal
    -- and gives it another identity
    have hopen : body.Alike ((Pairs.same S).add b ⟨s.supply.next, b.name⟩)
        ((body.close b).openWith ⟨s.supply.next, b.name⟩) := by
      have hclose : (body.close b).Alike (.same S) (body.close b) :=
        .refl hw.vars.close fun c hc => ⟨rfl, hc⟩
      simpa only [Term.openWith_close hw.closed] using hclose.openWith_add b ⟨_, b.name⟩
    have hR := Pairs.Matches.rename hS hb hbn
    obtain ⟨body'', hbody'', halike⟩ := hnormal.alike hR (.rename hS hb hE hvS) hopen
    have hself : ∀ {t : Term}, t.Over S → t.Alike (.same S) t :=
      fun ht => .refl ht fun _ hc => ⟨rfl, hc⟩
    have hlet : (Term.makeLet b A v body').Alike (.same S)
        (.makeLet ⟨s.supply.next, b.name⟩ A v body'') :=
      .makeLet (hR.separates (.inl ⟨rfl, rfl⟩)) (fun _ _ => Pairs.Matches.of_add) rfl (hself hAS)
        (hself hvS) halike
    rw [heq, hlet.eq_of_same]
    exact .letIn hA hv hbody''

/-! ## Chains of lets -/

/-- With these definitions, and a supply that starts at `n` or later, the term is normalised to
`u`. -/
def Definitions.Gives (definitions : Definitions) (n : Nat) (t u : Term) : Prop :=
  ∃ fuel m s, n ≤ m ∧ whnf fuel t ⟨definitions, ⟨m⟩⟩ = some (u, s)

theorem Definitions.Gives.evaluates {definitions : Definitions} {n : Nat} {t u : Term}
    (h : definitions.Gives n t u) (hs : Store.WellScoped ⟨definitions, ⟨n⟩⟩) (ht : t.Below n)
    (hlc : t.LocallyClosed) : Evaluates n (Store.values ⟨definitions, ⟨n⟩⟩) t u := by
  obtain ⟨fuel, m, s, hm, hrun⟩ := h
  have hmemo : Memoized (.minted n) n (Store.values ⟨definitions, ⟨n⟩⟩) ⟨definitions, ⟨m⟩⟩ :=
    hs.memoized_minted.of_lookup hm fun _ _ _ => rfl
  obtain ⟨u', hu', halike⟩ := (normalizes_of_whnf hrun).evaluates hmemo (.refl_same ht) hlc
  rwa [halike.eq_of_same]

/-- The entries of the second telescope are those of the first with their types and values replaced
by normal forms, each found with the definitions before it. -/
inductive Telescope.Normalized (n : Nat) : Definitions → Telescope → Telescope → Prop where
  | nil {earlier : Definitions} : Normalized n earlier [] []
  | cons {earlier : Definitions} {b : Binding} {d d' : Definition} {entries normal : Telescope} :
      earlier.Gives n d.ty d'.ty → earlier.Gives n d.value d'.value →
      Normalized n (earlier.bind b d) entries normal →
      Normalized n earlier ((b, d) :: entries) ((b, d') :: normal)

/-- The `entries` are what is left of the table `all` once the `earlier` definitions have been made.
`S` has the variables that are defined so far, and those that are not defined at all. -/
structure Telescope.Completes (n : Nat) (S : Binding → Prop) (earlier : Definitions)
    (entries : Telescope) (all : Definitions) : Prop where
  minted : ∀ c, S c → c.id < n
  known : ∀ c d, earlier.lookup c = some d → S c ∧ d.value.Within S
  layered : entries.Layered S
  nodup : (entries.map Prod.fst).Nodup
  new : ∀ c ∈ entries.map Prod.fst, c.id < n ∧ ¬ S c
  listed : ∀ entry ∈ entries, all.lookup entry.1 = some entry.2
  rest : ∀ c, c ∉ entries.map Prod.fst → earlier.lookup c = all.lookup c

namespace Telescope.Completes

variable {n : Nat} {S : Binding → Prop} {earlier all : Definitions} {entries : Telescope}

theorem wellScoped (h : Completes n S earlier entries all) :
    Store.WellScoped ⟨earlier, ⟨n⟩⟩ where
  keys c d hd := h.minted c (h.known c d hd).1
  closed c d hd := (h.known c d hd).2.closed
  below c d hd := (h.known c d hd).2.vars.mono h.minted

variable {b : Binding} {d : Definition}

theorem lookup_eq_none (h : Completes n S earlier ((b, d) :: entries) all) :
    earlier.lookup b = none := by
  cases hlookup : earlier.lookup b with
  | none => rfl
  | some e => exact absurd (h.known b e hlookup).1 (h.new b List.mem_cons_self).2

theorem step (h : Completes n S earlier ((b, d) :: entries) all) :
    Completes n (fun c => c = b ∨ S c) (earlier.bind b d) entries all := by
  obtain ⟨⟨-, hdv⟩, htail⟩ := layered_cons_iff.1 h.layered
  obtain ⟨hbentries, hnodup⟩ := List.nodup_cons.1 h.nodup
  have hself : (earlier.bind b d).lookup b = some d := Scope.lookup_bind_self d h.lookup_eq_none
  refine ⟨fun c hc => ?_, fun c e he => ?_, htail, hnodup, fun c hc => ?_,
    fun entry he => h.listed entry (List.mem_cons_of_mem _ he), fun c hc => ?_⟩
  · exact hc.elim (· ▸ (h.new b List.mem_cons_self).1) (h.minted c)
  · by_cases hcb : c = b
    · subst hcb
      rw [hself] at he
      cases he
      exact ⟨.inl rfl, hdv.mono fun _ => .inr⟩
    · rw [Scope.lookup_bind_of_ne _ _ hcb] at he
      exact ⟨.inr (h.known c e he).1, (h.known c e he).2.mono fun _ => .inr⟩
  · have hcb : c ≠ b := fun h => hbentries (h ▸ hc)
    obtain ⟨hcn, hcS⟩ := h.new c (List.mem_cons_of_mem _ hc)
    exact ⟨hcn, fun h => h.elim hcb hcS⟩
  · by_cases hcb : c = b
    · subst hcb
      rw [hself, h.listed _ List.mem_cons_self]
    · rw [Scope.lookup_bind_of_ne _ _ hcb]
      exact h.rest c (by simpa [hcb] using hc)

end Telescope.Completes

/-- The chain of `let`s for the entries that are left of a table. The induction moves one entry after
the other to the earlier definitions. -/
theorem Telescope.Normalized.evaluates_wrap {n : Nat} {earlier all : Definitions}
    {entries normal : Telescope} (h : Normalized n earlier entries normal) {S : Binding → Prop}
    (hall : entries.Completes n S earlier all) {t u : Term}
    (ht : t.Within fun c => S c ∨ c ∈ entries.map Prod.fst)
    (hu : Evaluates n (Store.values ⟨all, ⟨n⟩⟩) t u) :
    Evaluates n (Store.values ⟨earlier, ⟨n⟩⟩) (entries.wrap t) (normal.wrap u) := by
  induction h generalizing S with
  | @nil earlier =>
    have hvalues : Store.values ⟨earlier, ⟨n⟩⟩ = Store.values ⟨all, ⟨n⟩⟩ :=
      funext fun c => congrArg (Option.map Definition.value) (hall.rest c List.not_mem_nil)
    rwa [hvalues]
  | @cons earlier b d d' entries normal hty hvalue _ ih =>
    obtain ⟨⟨hdty, hdv⟩, htail⟩ := layered_cons_iff.1 hall.layered
    obtain ⟨hbn, hb⟩ := hall.new b List.mem_cons_self
    have hs := hall.wellScoped
    have hbs := hall.lookup_eq_none
    have hin : t.Within fun c => (c = b ∨ S c) ∨ c ∈ entries.map Prod.fst := by
      refine ht.mono fun c hc => ?_
      simp only [List.map_cons, List.mem_cons] at hc
      grind
    have hbody := ih hall.step hin
    have hvalues := Store.values_set ⟨earlier, ⟨n⟩⟩ ⟨earlier.bind b d, ⟨n⟩⟩
      (Scope.lookup_bind_self d hbs) fun c hc => earlier.lookup_bind_of_ne d hc
    rw [hvalues] at hbody
    exact .makeLet hs hall.minted (fun c e he _ => (hall.known c e he).2.vars) hbs hb hbn hdty.vars
      hdv (hty.evaluates hs (hdty.vars.mono hall.minted) hdty.closed)
      (hvalue.evaluates hs (hdv.vars.mono hall.minted) hdv.closed) (wrap_within htail hin) hbody

/-- **A table of definitions and the chain of `let`s built from it normalise alike.** The entries of
the table have no dangling index, and each mentions only variables that are defined before it or not
at all; `n` is above all identities in use. If the second table has the normal forms of the entries,
each with the definitions before it, and a term is normalised to `u` with all definitions, then the
chain of `let`s around the term is normalised to the chain of the normal definitions around `u`. -/
theorem whnf_wrap_eq_wrap_whnf {all normal : Definitions} {n : Nat} {t u : Term}
    (hkeys : ∀ b ∈ all.keys, b.id < n)
    (hlayered : Telescope.Layered (fun c => c.id < n ∧ all.lookup c = none) all.bindings)
    (hnormal : Telescope.Normalized n {} all.bindings normal.bindings) (hlc : t.LocallyClosed)
    (ht : t.Below n) (hu : all.Gives n t u) (m : Nat) (hm : n ≤ m) :
    ∃ s N, ∀ fuel, N ≤ fuel → whnf fuel (all.wrap t) ⟨{}, ⟨m⟩⟩ = some (normal.wrap u, s) := by
  have hmem : ∀ c, c ∈ all.bindings.map Prod.fst ↔ c ∈ all.keys := by
    simp [Scope.map_fst_bindings]
  have hundefined : ∀ c, all.lookup c = none ↔ c ∉ all.keys := by simp [Scope.mem_keys]
  have hs : Store.WellScoped ⟨all, ⟨n⟩⟩ := by
    have hvalue : ∀ b d, all.lookup b = some d → d.value.Within fun c => c.id < n := by
      intro b d hd
      obtain ⟨before, after, heq⟩ := List.append_of_mem (Scope.mem_bindings.2 hd)
      refine (hlayered before b d after heq).2.mono fun c hc => hc.elim (·.1) fun hc => ?_
      exact hkeys c ((hmem c).1 (by simp [heq, List.map_append, hc]))
    exact ⟨fun b d hd => hkeys b (Scope.mem_keys.2 (Option.isSome_of_mem hd)),
      fun b d hd => (hvalue b d hd).closed, fun b d hd => (hvalue b d hd).vars⟩
  have hin : t.Within fun c => (c.id < n ∧ all.lookup c = none) ∨ c ∈ all.bindings.map Prod.fst := by
    refine ⟨hlc, Term.Over.mono ht fun c hc => ?_⟩
    rw [hmem, hundefined]
    exact (Classical.em (c ∈ all.keys)).symm.imp_left fun h => ⟨hc, h⟩
  have hall : Telescope.Completes n (fun c => c.id < n ∧ all.lookup c = none) {} all.bindings all :=
    { minted := fun c hc => hc.1
      known := fun c d hd => by cases hd
      layered := hlayered
      nodup := by rw [Scope.map_fst_bindings]; exact all.nodup_keys
      new := fun c hc =>
        ⟨hkeys c ((hmem c).1 hc), fun h => (hundefined c).1 h.2 ((hmem c).1 hc)⟩
      listed := fun _ hentry => Scope.mem_bindings.1 hentry
      rest := fun c hc => ((hundefined c).2 (mt (hmem c).2 hc)).symm }
  have hchain := hnormal.evaluates_wrap hall hin (hu.evaluates hs ht hlc)
  -- from the empty store, runs find the normal forms that there are without definitions
  have hwrap : (all.wrap t).Within fun c => c.id < n ∧ all.lookup c = none :=
    Telescope.wrap_within hlayered hin
  have hself := Term.Alike.refl_same (hwrap.vars.mono fun _ hc => hc.1)
  have hnone : Store.WellScoped ⟨{}, ⟨n⟩⟩ :=
    ⟨fun b d hd => (by cases hd), fun b d hd => (by cases hd), fun b d hd => by cases hd⟩
  have hmemo : Memoized (.minted n) n (Store.values ⟨{}, ⟨n⟩⟩) ⟨{}, ⟨m⟩⟩ :=
    hnone.memoized_minted.of_lookup hm fun _ _ _ => rfl
  obtain ⟨w, s, hrun⟩ := hchain.normalizes hmemo hself hwrap.closed
  obtain rfl := (hrun.alike_of_evaluates hmemo hself hwrap.closed hchain).eq_of_same
  exact ⟨s, hrun.runs⟩

/-- The type and the value of `k` are not normal, `f` mentions `k` and the undefined `a`, and nothing
mentions `g`. Of the chain of three `let`s around `(λ x. x) f`, the one of `k` is left. -/
theorem whnf_wrap_eq_wrap_whnf_dropped :
    let k : Binding := ⟨0, "k"⟩
    let f : Binding := ⟨1, "f"⟩
    let a : Binding := ⟨2, "a"⟩
    let g : Binding := ⟨3, "g"⟩
    let function : Term := .pi "_" (.free k) (.free a)
    let all : Definitions :=
      { inner := [(k, ⟨.letIn "z" .type .boolType (.bound 0), .app (.lam (.bound 0)) .type⟩),
          (f, ⟨function, .type⟩), (g, ⟨.bool true, .boolType⟩)] }
    let normal : Definitions :=
      { inner := [(k, ⟨.boolType, .type⟩), (f, ⟨function, .type⟩), (g, ⟨.bool true, .boolType⟩)] }
    Telescope.Normalized 4 {} all.bindings normal.bindings ∧
      ∃ s N, ∀ fuel, N ≤ fuel → whnf fuel (all.wrap (.app (.lam (.bound 0)) (.free f))) ⟨{}, ⟨4⟩⟩ =
        some (.letIn "k" .type .boolType (.pi "_" (.bound 0) (.free a)), s) := by
  intro k f a g function all normal
  have hnormal : Telescope.Normalized 4 {} all.bindings normal.bindings :=
    .cons ⟨3, 4, _, Nat.le_refl _, rfl⟩ ⟨3, 4, _, Nat.le_refl _, rfl⟩
      (.cons ⟨1, 4, _, Nat.le_refl _, rfl⟩ ⟨1, 4, _, Nat.le_refl _, rfl⟩
        (.cons ⟨1, 4, _, Nat.le_refl _, rfl⟩ ⟨1, 4, _, Nat.le_refl _, rfl⟩ .nil))
  have hlayered : Telescope.Layered (fun c => c.id < 4 ∧ all.lookup c = none) all.bindings := by
    refine Telescope.layered_cons_iff.2 ⟨⟨⟨?_, ?_⟩, ⟨?_, ?_⟩⟩, Telescope.layered_cons_iff.2
      ⟨⟨⟨trivial, trivial⟩, ⟨⟨trivial, trivial⟩, .inl rfl, .inr ⟨by decide, rfl⟩⟩⟩,
        Telescope.layered_cons_iff.2 ⟨⟨⟨trivial, trivial⟩, ⟨trivial, trivial⟩⟩,
          Telescope.layered_nil _⟩⟩⟩
    all_goals simp [Term.LocallyClosed, Term.ClosedAt, Term.Over]
  have ht : (Term.app (.lam (.bound 0)) (.free f)).LocallyClosed := by
    simp [Term.LocallyClosed, Term.ClosedAt]
  exact ⟨hnormal, whnf_wrap_eq_wrap_whnf (by decide) hlayered hnormal ht
    ⟨trivial, show 1 < 4 by decide⟩ ⟨4, 4, _, Nat.le_refl _, rfl⟩ 4 (Nat.le_refl 4)⟩

end DepLang
