import DepLang.Proofs.Runs

/-!
# The first fault

Checks read their input from left to right, stop at the first fault and report it. What a fault is
can be said without reading in any order: it is something wrong at some place. Here places are
**positions**, lists of numbers that lead from the whole to one of its parts, to a part of that, and
so on. Their lexicographic order is the order of reading. What stands in an earlier part comes
first, and a whole comes before its parts.

* `FirstFault fault position e`: the fault `e` is at this position, and there is none before it.
* `ReportsFirst fault r`: the result `r` of a check is an error exactly if there is a fault, and
  then it is the first one (`ReportsFirst.exists_ok_iff`, `ReportsFirst.eq_error_iff`).
* `ReportsFirst.mapM`: checks made one after the other report the first fault of all, if each of
  them reports the first fault of its part. So a check of a tree needs one lemma for a node.
-/
namespace DepLang

/-! ## Checks one after the other -/

section Traversal

variable {ε α β : Type} {f : α → Except ε β}

theorem mapM_eq_ok {l : List α} {r : List β} : l.mapM f = .ok r ↔
    r.length = l.length ∧ ∀ (i : Nat) a b, l[i]? = some a → r[i]? = some b → f a = .ok b := by
  induction l generalizing r with
  | nil =>
    simp only [List.mapM_nil, pure, Except.pure, Except.ok.injEq]
    constructor
    · rintro rfl
      simp
    · rintro ⟨hlength, -⟩
      exact (List.length_eq_zero_iff.1 hlength).symm
  | cons a l ih =>
    rw [List.mapM_cons, except_bind_eq_ok]
    simp only [except_bind_eq_ok, pure, Except.pure, Except.ok.injEq]
    constructor
    · rintro ⟨b, hb, bs, hbs, rfl⟩
      obtain ⟨hlength, hall⟩ := ih.1 hbs
      refine ⟨by simp [hlength], fun i => ?_⟩
      cases i with
      | zero =>
        rintro _ _ ⟨⟩ ⟨⟩
        exact hb
      | succ i => exact hall i
    · rintro ⟨hlength, hall⟩
      cases r with
      | nil => simp at hlength
      | cons b bs =>
        refine ⟨b, hall 0 a b rfl rfl, bs, ih.2 ⟨by simpa using hlength, fun i => ?_⟩, rfl⟩
        exact hall (i + 1)

theorem mapM_eq_error {l : List α} {e : ε} : l.mapM f = .error e ↔
    ∃ before a after, l = before ++ a :: after ∧ (∀ x ∈ before, ∃ b, f x = .ok b) ∧
      f a = .error e := by
  induction l with
  | nil => simp [pure, Except.pure]
  | cons a l ih =>
    rw [List.mapM_cons, except_bind_eq_error]
    simp only [except_bind_eq_error, pure, Except.pure, reduceCtorEq, and_false, exists_false,
      or_false, ih]
    constructor
    · rintro (ha | ⟨b, hb, before, a', after, rfl, hbefore, ha'⟩)
      · exact ⟨[], a, l, rfl, by simp, ha⟩
      · refine ⟨a :: before, a', after, rfl, ?_, ha'⟩
        exact List.forall_mem_cons.2 ⟨⟨b, hb⟩, hbefore⟩
    · rintro ⟨before, a', after, heq, hbefore, ha'⟩
      cases before with
      | nil =>
        cases heq
        exact .inl ha'
      | cons c before =>
        cases heq
        obtain ⟨⟨b, hb⟩, hbefore⟩ := List.forall_mem_cons.1 hbefore
        exact .inr ⟨b, hb, before, a', after, rfl, hbefore, ha'⟩

theorem forM_eq_map_mapM {f : α → Except ε Unit} (l : List α) :
    l.forM f = (l.mapM f).map fun _ => () := by
  induction l with
  | nil => rfl
  | cons a l ih =>
    rw [List.mapM_cons]
    show (f a >>= fun _ => l.forM f) = _
    rw [ih]
    cases f a with
    | error e => rfl
    | ok u => cases l.mapM f <;> rfl

end Traversal

/-! ## Faults and positions -/

variable {ε α β : Type}

/-- The fault is at this position, and there is none before it. -/
structure FirstFault (fault : List Nat → ε → Prop) (position : List Nat) (e : ε) : Prop where
  here : fault position e
  before : ∀ earlier, earlier < position → ∀ e', ¬ fault earlier e'

/-- The result of a check is an answer only if there is no fault, and otherwise the first one. -/
structure ReportsFirst (fault : List Nat → ε → Prop) (r : Except ε α) : Prop where
  ok : ∀ a, r = .ok a → ∀ position e, ¬ fault position e
  error : ∀ e, r = .error e → ∃ position, FirstFault fault position e

namespace ReportsFirst

variable {fault : List Nat → ε → Prop} {r : Except ε α}

theorem exists_ok_iff (h : ReportsFirst fault r) :
    (∃ a, r = .ok a) ↔ ∀ position e, ¬ fault position e := by
  constructor
  · rintro ⟨a, ha⟩
    exact h.ok a ha
  · intro hnone
    cases hr : r with
    | ok a => exact ⟨a, rfl⟩
    | error e =>
      obtain ⟨position, hfirst⟩ := h.error e hr
      exact absurd hfirst.here (hnone position e)

/-- If there is one fault at most in each place, the error is the first fault. -/
theorem eq_error_iff (h : ReportsFirst fault r)
    (hunique : ∀ position e e', fault position e → fault position e' → e = e') {e : ε} :
    r = .error e ↔ ∃ position, FirstFault fault position e := by
  refine ⟨h.error e, ?_⟩
  rintro ⟨position, hfirst⟩
  cases hr : r with
  | ok a => exact absurd hfirst.here (h.ok a hr position e)
  | error e' =>
    obtain ⟨position', hfirst'⟩ := h.error e' hr
    have hle : ¬ position < position' := fun hlt => hfirst'.before position hlt e hfirst.here
    have hle' : ¬ position' < position := fun hlt => hfirst.before position' hlt e' hfirst'.here
    obtain rfl : position = position' := List.le_antisymm hle' hle
    rw [hunique position e' e hfirst'.here hfirst.here]

theorem congr {fault' : List Nat → ε → Prop} (h : ReportsFirst fault r)
    (hfault : ∀ position e, fault' position e ↔ fault position e) : ReportsFirst fault' r where
  ok a ha position e := by
    rw [hfault]
    exact h.ok a ha position e
  error e he := by
    obtain ⟨position, hfirst⟩ := h.error e he
    refine ⟨position, (hfault position e).2 hfirst.here, fun earlier hlt e' => ?_⟩
    rw [hfault]
    exact hfirst.before earlier hlt e'

theorem of_ok {a : α} (h : ∀ position e, ¬ fault position e) :
    ReportsFirst fault (.ok a : Except ε α) where
  ok _ _ := h
  error e he := by cases he

theorem map (h : ReportsFirst fault r) (g : α → β) : ReportsFirst fault (r.map g) := by
  cases r with
  | ok a => exact of_ok (h.ok a rfl)
  | error e =>
    refine ⟨fun _ ha => ?_, fun e' he => ?_⟩
    · cases ha
    · cases he
      exact h.error e rfl

/-- A fault of the whole comes before those of its parts. -/
theorem of_whole {e : ε} (h : fault [] e) : ReportsFirst fault (.error e : Except ε α) where
  ok a ha := by cases ha
  error e' he := by
    cases he
    exact ⟨[], h, fun earlier hlt => absurd hlt (List.not_lt_nil earlier)⟩

/-- **One after the other.** The faults of the parts of a list are those of its elements. -/
theorem mapM {l : List α} {f : α → Except ε β} {faults : α → List Nat → ε → Prop}
    (h : ∀ a ∈ l, ReportsFirst (faults a) (f a)) :
    ReportsFirst (fun position e => ∃ (i : Nat) (a : α) (inside : List Nat),
      position = i :: inside ∧ l[i]? = some a ∧ faults a inside e) (l.mapM f) where
  ok r hr := by
    rintro _ e ⟨i, a, inside, rfl, ha, he⟩
    obtain ⟨hlength, hall⟩ := mapM_eq_ok.1 hr
    obtain ⟨hi, -⟩ := List.getElem?_eq_some_iff.1 ha
    have hb : r[i]? = some r[i] := List.getElem?_eq_getElem (hlength ▸ hi)
    exact (h a (List.mem_of_getElem? ha)).ok _ (hall i a _ ha hb) inside e he
  error e he := by
    obtain ⟨before, a, after, rfl, hbefore, ha⟩ := mapM_eq_error.1 he
    obtain ⟨inside, hfirst⟩ := (h a (by simp)).error e ha
    refine ⟨before.length :: inside, ⟨before.length, a, inside, rfl, by simp, hfirst.here⟩, ?_⟩
    rintro _ hlt e' ⟨i, a', inside', rfl, ha', he'⟩
    rcases List.cons_lt_cons_iff.1 hlt with hi | ⟨rfl, hinside⟩
    · -- an element before the one that fails has no fault
      rw [List.getElem?_append_left hi] at ha'
      have hmem := List.mem_of_getElem? ha'
      obtain ⟨b, hb⟩ := hbefore a' hmem
      exact (h a' (List.mem_append_left _ hmem)).ok b hb inside' e' he'
    · obtain rfl : a = a' := by simpa using ha'
      exact hfirst.before inside' hinside e' he'

theorem forM {l : List α} {f : α → Except ε Unit} {faults : α → List Nat → ε → Prop}
    (h : ∀ a ∈ l, ReportsFirst (faults a) (f a)) :
    ReportsFirst (fun position e => ∃ (i : Nat) (a : α) (inside : List Nat),
      position = i :: inside ∧ l[i]? = some a ∧ faults a inside e) (l.forM f) := by
  rw [forM_eq_map_mapM]
  exact (mapM h).map _

/-- Two checks of different kinds, the second after the first. -/
theorem andThen {fault' : List Nat → ε → Prop} {r' : Except ε β} (h : ReportsFirst fault r)
    (h' : ReportsFirst fault' r') :
    ReportsFirst (fun position e => (∃ inside, position = 0 :: inside ∧ fault inside e) ∨
      ∃ inside, position = 1 :: inside ∧ fault' inside e) (r >>= fun _ => r') where
  ok b hb := by
    obtain ⟨a, ha, hb⟩ := except_bind_eq_ok.1 hb
    rintro _ e (⟨inside, rfl, he⟩ | ⟨inside, rfl, he⟩)
    · exact h.ok a ha inside e he
    · exact h'.ok b hb inside e he
  error e he := by
    rcases except_bind_eq_error.1 he with he | ⟨a, ha, he⟩
    · obtain ⟨inside, hfirst⟩ := h.error e he
      refine ⟨0 :: inside, .inl ⟨inside, rfl, hfirst.here⟩, ?_⟩
      rintro _ hlt e' (⟨inside', rfl, he'⟩ | ⟨inside', rfl, he'⟩)
      · exact hfirst.before inside' (by simpa using hlt) e' he'
      · simp [List.cons_lt_cons_iff] at hlt
    · obtain ⟨inside, hfirst⟩ := h'.error e he
      refine ⟨1 :: inside, .inr ⟨inside, rfl, hfirst.here⟩, ?_⟩
      rintro _ hlt e' (⟨inside', rfl, he'⟩ | ⟨inside', rfl, he'⟩)
      · exact h.ok a ha inside' e' he'
      · exact hfirst.before inside' (by simpa using hlt) e' he'

end ReportsFirst

end DepLang
