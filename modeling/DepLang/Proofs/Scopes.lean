import DepLang.Definitions

/-!
# What a lookup finds

Scopes are chains of frames, but most proofs only care about what a lookup finds in the chain. Each
operation changes that in one place: binding a new variable adds it, overriding a definition gives
it another value, and deriving a scope changes nothing.

The order of the bindings is that of `Scope.keys`. A new variable comes last there, and neither
overriding a definition nor deriving a scope changes the order.
-/
namespace DepLang

namespace Scope

variable {α : Type}

theorem lookup_eq_or (s : Scope α) (b : Binding) :
    s.lookup b = (s.inner.lookup b).or (s.outer.findSome? (List.lookup b)) := by
  unfold lookup frames
  rw [List.findSome?_cons]
  cases s.inner.lookup b <;> rfl

theorem lookup_derive (s : Scope α) (b : Binding) : s.derive.lookup b = s.lookup b := by
  rw [lookup_eq_or]
  rfl

theorem lookup_bind_of_ne (s : Scope α) {b c : Binding} (a : α) (h : c ≠ b) :
    (s.bind b a).lookup c = s.lookup c := by
  have : (c == b) = false := by simpa using h
  rw [lookup_eq_or, lookup_eq_or, bind, List.lookup_append, List.lookup_cons, this]
  simp

/-- A frame binds a variable that it does not bind yet, whatever the frames around it do. -/
theorem lookup_bind_self_of_inner (s : Scope α) {b : Binding} (a : α)
    (h : s.inner.lookup b = none) : (s.bind b a).lookup b = some a := by
  rw [lookup_eq_or, bind, List.lookup_append, List.lookup_cons_self, h]
  rfl

theorem inner_lookup_eq_none {s : Scope α} {b : Binding} (h : s.lookup b = none) :
    s.inner.lookup b = none := by
  rw [lookup_eq_or, Option.or_eq_none_iff] at h
  exact h.1

theorem lookup_bind_self {s : Scope α} {b : Binding} (a : α) (h : s.lookup b = none) :
    (s.bind b a).lookup b = some a :=
  s.lookup_bind_self_of_inner a (inner_lookup_eq_none h)

theorem lookup_singleton {b c : Binding} {a x : α}
    (h : ({ inner := [(b, a)] } : Scope α).lookup c = some x) : c = b ∧ x = a := by
  by_cases hc : c = b
  · subst hc
    rw [lookup_eq_or, List.lookup_cons_self] at h
    cases h
    exact ⟨rfl, rfl⟩
  · have : (c == b) = false := by simpa using hc
    simp [lookup, frames, List.lookup_cons, this] at h

/-! ## The order of the bindings -/

theorem keys_eq (s : Scope α) :
    s.keys = ((s.outer.reverse.flatten ++ s.inner).map Prod.fst).eraseDups := by
  simp [keys, frames]

theorem keys_derive (s : Scope α) : s.derive.keys = s.keys := by
  simp [keys, frames, derive]

theorem mem_keys {s : Scope α} {b : Binding} : b ∈ s.keys ↔ (s.lookup b).isSome = true := by
  have hlookup : (s.lookup b).isSome = true ↔ ∃ frame ∈ s.frames, b ∈ frame.map Prod.fst := by
    simp [lookup, List.isSome_findSome?, List.lookup_isSome_iff]
  rw [hlookup, keys, List.mem_eraseDups]
  simp only [List.mem_map, List.mem_flatten, List.mem_reverse]
  constructor
  · rintro ⟨entry, ⟨frame, hframe, hentry⟩, rfl⟩
    exact ⟨frame, hframe, entry, hentry, rfl⟩
  · rintro ⟨frame, hframe, entry, hentry, rfl⟩
    exact ⟨entry, ⟨frame, hframe, hentry⟩, rfl⟩

/-- No binding is listed twice. Duplicates are erased one after the other, from a list that gets
shorter. -/
theorem nodup_eraseDups : ∀ bound : List Binding, bound.eraseDups.Nodup
  | [] => by simp
  | b :: bound => by
    rw [List.eraseDups_cons, List.nodup_cons]
    exact ⟨by simp, nodup_eraseDups (bound.filter fun c => !c == b)⟩
termination_by bound => bound.length
decreasing_by exact Nat.lt_succ_of_le (List.length_filter_le ..)

theorem nodup_keys (s : Scope α) : s.keys.Nodup := nodup_eraseDups _

/-- What is bound in the innermost frame comes last, unless it is bound already. -/
theorem keys_bind (s : Scope α) (b : Binding) (a : α) :
    (s.bind b a).keys = s.keys ++ if b ∈ s.keys then [] else [b] := by
  have hmem : b ∈ s.keys ↔ b ∈ (s.outer.reverse.flatten ++ s.inner).map Prod.fst := by
    rw [keys_eq, List.mem_eraseDups]
  have happend : (s.bind b a).keys =
      ((s.outer.reverse.flatten ++ s.inner ++ [(b, a)]).map Prod.fst).eraseDups := by
    rw [keys_eq, List.append_assoc]
    rfl
  rw [happend, List.map_append, List.eraseDups_append, ← keys_eq]
  generalize (s.outer.reverse.flatten ++ s.inner).map Prod.fst = bound at hmem
  by_cases hb : b ∈ s.keys
  · simp [List.removeAll, hb, hmem.1 hb]
  · simp [List.removeAll, hb, mt hmem.2 hb, List.eraseDups_cons]

theorem keys_bind_of_none {s : Scope α} {b : Binding} (h : s.lookup b = none) (a : α) :
    (s.bind b a).keys = s.keys ++ [b] := by
  rw [keys_bind, if_neg (by simp [mem_keys, h])]

theorem map_fst_bindings (s : Scope α) : s.bindings.map Prod.fst = s.keys := by
  have hall : ∀ b ∈ s.keys, ∃ a, s.lookup b = some a := fun b hb =>
    Option.isSome_iff_exists.1 (mem_keys.1 hb)
  unfold bindings
  generalize s.keys = l at hall
  induction l with
  | nil => rfl
  | cons b l ih =>
    obtain ⟨a, ha⟩ := hall b List.mem_cons_self
    simpa [List.filterMap_cons, ha] using ih fun c hc => hall c (List.mem_cons_of_mem b hc)

theorem mem_bindings {s : Scope α} {b : Binding} {a : α} :
    (b, a) ∈ s.bindings ↔ s.lookup b = some a := by
  simp only [bindings, List.mem_filterMap, Option.map_eq_some_iff, Prod.mk.injEq]
  constructor
  · rintro ⟨c, -, x, hx, rfl, rfl⟩
    exact hx
  · intro h
    exact ⟨b, mem_keys.2 (by simp [h]), a, h, rfl, rfl⟩

end Scope

namespace Definitions

theorem lookup_replaceIn_self {b : Binding} (value : Term) {frame : Frame Definition}
    {d : Definition} (h : frame.lookup b = some d) :
    (replaceIn b value frame).lookup b = some { d with value } := by
  induction frame with
  | nil => cases h
  | cons entry frame ih =>
    obtain ⟨c, e⟩ := entry
    unfold replaceIn at ih ⊢
    rw [List.map_cons]
    by_cases hcb : c = b
    · subst hcb
      rw [List.lookup_cons_self] at h
      cases h
      rw [if_pos rfl, List.lookup_cons_self]
    · have hbc : (b == c) = false := by simpa using fun e => hcb e.symm
      rw [List.lookup_cons, hbc] at h
      rw [if_neg hcb, List.lookup_cons, hbc]
      exact ih h

theorem lookup_replaceIn_of_ne {b c : Binding} (value : Term) (frame : Frame Definition)
    (h : c ≠ b) : (replaceIn b value frame).lookup c = frame.lookup c := by
  induction frame with
  | nil => rfl
  | cons entry frame ih =>
    obtain ⟨e, d⟩ := entry
    unfold replaceIn at ih ⊢
    rw [List.map_cons, List.lookup_cons]
    by_cases he : e = b
    · subst he
      have : (c == e) = false := by simpa using h
      rw [if_pos rfl, List.lookup_cons, this]
      exact ih
    · rw [if_neg he, List.lookup_cons, ih]

theorem override_of_none {definitions : Definitions} {b : Binding}
    (h : definitions.lookup b = none) (value : Term) :
    definitions.override b value = .error (.notInScope b) := by
  simp [override, Scope.inner_lookup_eq_none h, h]

theorem override_of_lookup {definitions : Definitions} {b : Binding} {d : Definition}
    (h : definitions.lookup b = some d) (value : Term) :
    ∃ definitions', definitions.override b value = .ok (d.value, definitions') ∧
      definitions'.lookup b = some { d with value } ∧
      ∀ c, c ≠ b → definitions'.lookup c = definitions.lookup c := by
  unfold override
  cases hi : definitions.inner.lookup b with
  | some old =>
    have hold : old = d := by
      rw [Scope.lookup_eq_or, hi] at h
      simpa using h
    subst hold
    refine ⟨_, rfl, ?_, ?_⟩
    · rw [Scope.lookup_eq_or, lookup_replaceIn_self value hi]
      rfl
    · intro c hc
      rw [Scope.lookup_eq_or, Scope.lookup_eq_or, lookup_replaceIn_of_ne value _ hc]
  | none =>
    rw [h]
    refine ⟨_, rfl, Scope.lookup_bind_self_of_inner _ _ hi, ?_⟩
    intro c hc
    exact Scope.lookup_bind_of_ne _ _ hc

theorem map_fst_replaceIn (b : Binding) (value : Term) (frame : Frame Definition) :
    (replaceIn b value frame).map Prod.fst = frame.map Prod.fst := by
  rw [replaceIn, List.map_map]
  refine List.map_congr_left fun entry _ => ?_
  by_cases h : entry.1 = b <;> simp [h]

theorem override_keys {definitions definitions' : Definitions} {b : Binding} {value old : Term}
    (h : definitions.override b value = .ok (old, definitions')) :
    definitions'.keys = definitions.keys := by
  unfold override at h
  split at h
  · cases h
    simp only [Scope.keys_eq, List.map_append, map_fst_replaceIn]
  · split at h
    · rename_i hsome
      cases h
      rw [Scope.keys_bind, if_pos (Scope.mem_keys.2 (by simp [hsome])), List.append_nil]
    · cases h

end Definitions

end DepLang
