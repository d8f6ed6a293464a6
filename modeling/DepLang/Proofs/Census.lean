import DepLang.Term.Usage

/-!
# One walk counts every variable

`Term.usage` walks over a term for the sake of one variable and adds up numbers. `Term.census` walks
over it once and hands a table of counts from subterm to subterm. Here both are compared with the
plain list of what they count.

* `Term.occurrences`: the free variables as they stand in the term, from left to right; the type of a
  `let` comes before its value, and the value before the body.
* `Census.Tallies`: the table says what a list of occurrences has been, how often each variable and
  which one first. One more occurrence keeps this (`Census.Tallies.add`), and so does the walk over a
  term (`Census.Tallies.countInto`).
* `census_agrees_with_usage`: the census lists the variables that are used, each once, with its
  usage, in the order in which they first occur.
-/
namespace DepLang

/-! ## What is counted -/

namespace Term

/-- The free variables from left to right, each as often as it occurs. -/
def occurrences : Term → List Binding
  | free b => [b]
  | lam body => occurrences body
  | pi _ domain codomain => occurrences domain ++ occurrences codomain
  | app function argument => occurrences function ++ occurrences argument
  | letIn _ ty value body => occurrences ty ++ occurrences value ++ occurrences body
  | bound _ | bool _ | boolType | type => []

theorem usage_eq_count (b : Binding) (t : Term) : t.usage b = t.occurrences.count b := by
  induction t with
  | bound | bool | boolType | type => rfl
  | free c => by_cases h : c = b <;> simp [usage, occurrences, h]
  | lam body ih => exact ih
  | pi _ _ _ ihd ihc => simp [usage, occurrences, ihd, ihc]
  | app _ _ ihf iha => simp [usage, occurrences, ihf, iha]
  | letIn _ _ _ _ iht ihv ihb => simp [usage, occurrences, iht, ihv, ihb]; omega

end Term

/-! ## One more occurrence -/

namespace Census

/-- The variables of a census, in the order of its entries. -/
def keys (counts : Census) : List Binding := counts.map Prod.fst

/-- A variable that is listed keeps its place, and a new one comes last. -/
theorem keys_add (b : Binding) (counts : Census) :
    (counts.add b).keys = if b ∈ counts.keys then counts.keys else counts.keys ++ [b] := by
  induction counts with
  | nil => simp [add, keys]
  | cons entry rest ih =>
    obtain ⟨c, n⟩ := entry
    by_cases hcb : c = b
    · simp [add, keys, hcb]
    · have hbc : b ≠ c := Ne.symm hcb
      simp only [keys] at ih
      by_cases hb : b ∈ rest.map Prod.fst
      · simp [add, keys, hcb, hbc, ih, hb]
      · simp [add, keys, hcb, hbc, ih, hb]

theorem mem_add {b : Binding} {counts : Census} (hnodup : counts.keys.Nodup)
    {entry : Binding × Nat} (h : entry ∈ counts.add b) :
    (entry ∈ counts ∧ entry.1 ≠ b) ∨ (∃ n, (b, n) ∈ counts ∧ entry = (b, n + 1)) ∨
      (b ∉ counts.keys ∧ entry = (b, 1)) := by
  induction counts with
  | nil => exact .inr (.inr ⟨List.not_mem_nil, List.mem_singleton.1 h⟩)
  | cons first rest ih =>
    obtain ⟨c, n⟩ := first
    obtain ⟨hc, hrest⟩ := List.nodup_cons.1 hnodup
    by_cases hcb : c = b
    · subst hcb
      rw [add, if_pos rfl] at h
      rcases List.mem_cons.1 h with rfl | hmem
      · exact .inr (.inl ⟨n, List.mem_cons_self, rfl⟩)
      · -- The variable is not listed a second time, so the rest has no entry for it.
        refine .inl ⟨List.mem_cons_of_mem _ hmem, ?_⟩
        rintro rfl
        exact hc (List.mem_map.2 ⟨_, hmem, rfl⟩)
    · rw [add, if_neg hcb] at h
      rcases List.mem_cons.1 h with rfl | hmem
      · exact .inl ⟨List.mem_cons_self, hcb⟩
      · rcases ih hrest hmem with ⟨hold, hne⟩ | ⟨m, hm, rfl⟩ | ⟨hnew, rfl⟩
        · exact .inl ⟨List.mem_cons_of_mem _ hold, hne⟩
        · exact .inr (.inl ⟨m, List.mem_cons_of_mem _ hm, rfl⟩)
        · refine .inr (.inr ⟨fun hb => ?_, rfl⟩)
          rcases List.mem_cons.1 hb with e | hb
          · exact hcb e.symm
          · exact hnew hb

/-- The census of a list of occurrences, read from left to right. -/
structure Tallies (counts : Census) (seen : List Binding) : Prop where
  mem_keys : ∀ b, b ∈ counts.keys ↔ b ∈ seen
  count_eq : ∀ entry ∈ counts, entry.2 = seen.count entry.1
  /-- What is listed earlier has occurred earlier. -/
  ordered : counts.keys.Pairwise fun b c => seen.idxOf b < seen.idxOf c

namespace Tallies

variable {counts : Census} {seen : List Binding}

theorem nil : Tallies [] [] where
  mem_keys _ := Iff.rfl
  count_eq _ h := by cases h
  ordered := .nil

theorem nodup (h : counts.Tallies seen) : counts.keys.Nodup :=
  h.ordered.imp fun hlt e => by rw [e] at hlt; exact Nat.lt_irrefl _ hlt

/-- Later occurrences do not change which of the listed variables came first. -/
theorem ordered_append (h : counts.Tallies seen) (later : List Binding) :
    counts.keys.Pairwise fun b c => (seen ++ later).idxOf b < (seen ++ later).idxOf c := by
  refine h.ordered.imp_of_mem fun {b c} hb hc hlt => ?_
  have hb : b ∈ seen := (h.mem_keys b).1 hb
  have hc : c ∈ seen := (h.mem_keys c).1 hc
  rwa [List.idxOf_append, if_pos hb, List.idxOf_append, if_pos hc]

/-- **One more occurrence.** -/
theorem add (h : counts.Tallies seen) (b : Binding) : (counts.add b).Tallies (seen ++ [b]) := by
  refine ⟨fun c => ?_, fun entry hentry => ?_, ?_⟩
  · rw [keys_add]
    split
    · rename_i hb
      rw [h.mem_keys] at hb ⊢
      by_cases hc : c = b <;> simp [hc, hb]
    · simp [h.mem_keys]
  · rw [List.count_append]
    rcases mem_add h.nodup hentry with ⟨hold, hne⟩ | ⟨n, hn, rfl⟩ | ⟨hnew, rfl⟩
    · simp [h.count_eq entry hold, Ne.symm hne]
    · have hcount : n = seen.count b := h.count_eq _ hn
      simp [hcount]
    · rw [h.mem_keys] at hnew
      simp [List.count_eq_zero_of_not_mem hnew]
  · rw [keys_add]
    split
    · exact h.ordered_append [b]
    · rename_i hb
      rw [h.mem_keys] at hb
      refine List.pairwise_append.2 ⟨h.ordered_append [b], List.pairwise_singleton _ _, ?_⟩
      intro c hc d hd
      obtain rfl := List.mem_singleton.1 hd
      -- What is listed has occurred, and the new variable occurs for the first time after it.
      have hseen : c ∈ seen := (h.mem_keys c).1 hc
      rw [List.idxOf_append, if_pos hseen, List.idxOf_append, if_neg hb]
      have := List.idxOf_lt_length_of_mem hseen
      omega

/-- **The walk over a term.** It adds the occurrences of the term to those before it. -/
theorem countInto (h : counts.Tallies seen) (t : Term) :
    (t.countInto counts).Tallies (seen ++ t.occurrences) := by
  induction t generalizing counts seen with
  | bound | bool | boolType | type => simpa [Term.countInto, Term.occurrences] using h
  | free b => exact h.add b
  | lam body ih => exact ih h
  | pi _ _ _ ihd ihc =>
    rw [Term.occurrences, ← List.append_assoc]
    exact ihc (ihd h)
  | app _ _ ihf iha =>
    rw [Term.occurrences, ← List.append_assoc]
    exact iha (ihf h)
  | letIn _ _ _ _ iht ihv ihb =>
    rw [Term.occurrences, ← List.append_assoc, ← List.append_assoc]
    exact ihb (ihv (iht h))

end Tallies

end Census

theorem Term.tallies_census (t : Term) : t.census.Tallies t.occurrences :=
  Census.Tallies.nil.countInto t

/-- **The census agrees with the usage.** A variable is listed exactly if it is used, its count is
its usage, and the variables are listed once each, in the order in which they first occur in the term
from left to right. -/
theorem census_agrees_with_usage (t : Term) :
    (∀ b, b ∈ t.census.keys ↔ 0 < t.usage b) ∧
      (∀ b n, (b, n) ∈ t.census → n = t.usage b) ∧
      t.census.keys.Nodup ∧
      t.census.keys.Pairwise fun b c => t.occurrences.idxOf b < t.occurrences.idxOf c := by
  have h := t.tallies_census
  refine ⟨fun b => ?_, fun b n hmem => ?_, h.nodup, h.ordered⟩
  · rw [Term.usage_eq_count, List.count_pos_iff]
    exact h.mem_keys b
  · rw [Term.usage_eq_count]
    exact h.count_eq (b, n) hmem

/-- `y` stands first in the type, `x` first in the value, and `z` only in the body. -/
example :
    let x : Binding := ⟨0, "x"⟩
    let y : Binding := ⟨1, "y"⟩
    let z : Binding := ⟨2, "z"⟩
    Term.census (.letIn "a" (.free y) (.app (.free x) (.free y)) (.pi "b" (.free z) (.free x))) =
      [(y, 2), (x, 2), (z, 1)] := by
  decide

end DepLang
