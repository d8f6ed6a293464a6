import DepLang.Proofs.Scopes
import Mathlib.Data.List.Nodup

/-!
# A scope chain is a table

A chain of frames finds the value of a binding in one frame and its place in another: overriding a
definition of an outer scope puts a new entry into the innermost frame, while the place of the
binding stays where it was first bound. Seen from outside, none of that shows. A scope behaves like
a **table**, one list of entries in which no binding stands twice, and deriving a scope copies the
table.

* `Scope.table`: the table that a chain stands for, which is what `Scope.bindings` lists.
* `Scoping S`: the operations on scopes that are represented by `S`. There are two of them, one on
  chains and one on tables.
* `Scoping.Refines`: what an operation does to a representation is what it does to the view of it.
  `chains_refine_tables` has one proof for each operation.
* `run_chains_eq_run_tables`: a sequence of operations on a family of scopes, derived from each
  other in any way, has the same answers on chains and on tables, and leaves chains that stand for
  the tables.
-/
namespace DepLang

/-- Entries in the order in which they were bound, with no binding twice. -/
@[ext]
structure Table (α : Type) where
  entries : List (Binding × α) := []
  nodup : (entries.map Prod.fst).Nodup := by exact List.nodup_nil

namespace Table

variable {α : Type}

/-- The bindings in their order. -/
def keys (t : Table α) : List Binding := t.entries.map Prod.fst

def get (t : Table α) (b : Binding) : Except ScopeError α :=
  match t.entries.lookup b with
  | some a => .ok a
  | none => .error (.notInScope b)

/-- Adds an entry at the end, unless there is one of the binding. -/
def insert (t : Table α) (b : Binding) (a : α) : Except ScopeError (Table α) :=
  if h : b ∈ t.keys then
    .error (.alreadyInScope b)
  else
    .ok {
      entries := t.entries ++ [(b, a)]
      nodup := by simpa [keys] using t.nodup.concat h }

/-- Gives the entry of a binding another value, in its place, and returns the old value. -/
def override (t : Table Definition) (b : Binding) (value : Term) :
    Except ScopeError (Term × Table Definition) :=
  match t.entries.lookup b with
  | some old => .ok (old.value, {
      entries := t.entries.map fun entry =>
        if entry.1 = b then (b, { entry.2 with value }) else entry
      nodup := by
        show ((Definitions.replaceIn b value t.entries).map Prod.fst).Nodup
        rw [Definitions.map_fst_replaceIn]
        exact t.nodup })
  | none => .error (.notInScope b)

theorem override_of_lookup {t : Table Definition} {b : Binding} {d : Definition}
    (h : t.entries.lookup b = some d) (value : Term) :
    ∃ t', t.override b value = .ok (d.value, t') ∧ t'.entries = t.entries.map fun entry =>
      if entry.1 = b then (b, { entry.2 with value }) else entry := by
  unfold override
  split
  · rename_i old hold
    rw [h] at hold
    cases hold
    exact ⟨_, rfl, rfl⟩
  · rename_i hnone
    rw [h] at hnone
    cases hnone

theorem override_of_none {t : Table Definition} {b : Binding} (h : t.entries.lookup b = none)
    (value : Term) : t.override b value = .error (.notInScope b) := by
  unfold override
  split
  · rename_i old hold
    rw [h] at hold
    cases hold
  · rfl

end Table

/-! ## The table that a chain stands for -/

namespace Scope

variable {α : Type}

/-- The entries of the whole chain. -/
def table (s : Scope α) : Table α where
  entries := s.bindings
  nodup := by
    rw [map_fst_bindings]
    exact s.nodup_keys

theorem keys_table (s : Scope α) : s.table.keys = s.keys := s.map_fst_bindings

theorem lookup_bindings (s : Scope α) (b : Binding) : s.bindings.lookup b = s.lookup b := by
  have hfound : ∀ a, s.bindings.lookup b = some a → s.lookup b = some a := by
    intro a ha
    obtain ⟨before, after, heq, -⟩ := List.lookup_eq_some_iff.1 ha
    exact mem_bindings.1 (by simp [heq])
  cases h : s.bindings.lookup b with
  | some a => exact (hfound a h).symm
  | none =>
    cases ha : s.lookup b with
    | none => rfl
    | some a =>
      have hne := List.lookup_eq_none_iff.1 h (b, a) (mem_bindings.2 ha)
      simp at hne

theorem bindings_derive (s : Scope α) : s.derive.bindings = s.bindings := by
  simp only [bindings, keys_derive, lookup_derive]

theorem bindings_bind {s : Scope α} {b : Binding} (h : s.lookup b = none) (a : α) :
    (s.bind b a).bindings = s.bindings ++ [(b, a)] := by
  unfold bindings
  rw [keys_bind_of_none h, List.filterMap_append]
  congr 1
  · refine List.filterMap_congr fun c hc => ?_
    have hcb : c ≠ b := by
      rintro rfl
      rw [mem_keys, h] at hc
      cases hc
    rw [lookup_bind_of_ne s a hcb]
  · simp [lookup_bind_self a h]

end Scope

/-- An overridden definition has its new value in its old place. -/
theorem Definitions.bindings_override {definitions definitions' : Definitions} {b : Binding}
    {d : Definition} {value old : Term} (hd : definitions.lookup b = some d)
    (h : definitions.override b value = .ok (old, definitions')) :
    definitions'.bindings = definitions.bindings.map fun entry =>
      if entry.1 = b then (b, { entry.2 with value }) else entry := by
  obtain ⟨definitions₁, h₁, hself, hother⟩ := override_of_lookup hd value
  rw [h] at h₁
  cases h₁
  unfold Scope.bindings
  rw [override_keys h, List.map_filterMap]
  refine List.filterMap_congr fun c _ => ?_
  by_cases hcb : c = b
  · subst hcb
    simp [hself, hd]
  · rw [hother c hcb, Option.map_map]
    simp [Function.comp_def, hcb]

/-! ## Operations on scopes -/

/-- What can be done with scopes that `S` represents. -/
structure Scoping (S : Type → Type) where
  get {α : Type} : S α → Binding → Except ScopeError α
  contains {α : Type} : S α → Binding → Bool
  bindings {α : Type} : S α → List (Binding × α)
  insert {α : Type} : S α → Binding → α → Except ScopeError (S α)
  derive {α : Type} : S α → S α
  override : S Definition → Binding → Term → Except ScopeError (Term × S Definition)

namespace Scoping

/-- Scopes are chains of frames. -/
def chains : Scoping Scope where
  get := Scope.get
  contains := Scope.contains
  bindings := Scope.bindings
  insert := Scope.insert
  derive := Scope.derive
  override := Definitions.override

/-- Scopes are tables, and are derived by copying. -/
def tables : Scoping Table where
  get := Table.get
  contains t b := decide (b ∈ t.keys)
  bindings := Table.entries
  insert := Table.insert
  derive t := t
  override := Table.override

variable {S T : Type → Type}

/-- Each operation does to the view of a scope what it does to the scope. -/
structure Refines (I : Scoping S) (J : Scoping T) (view : {α : Type} → S α → T α) : Prop where
  get {α : Type} (s : S α) (b : Binding) : I.get s b = J.get (view s) b
  contains {α : Type} (s : S α) (b : Binding) : I.contains s b = J.contains (view s) b
  bindings {α : Type} (s : S α) : I.bindings s = J.bindings (view s)
  insert {α : Type} (s : S α) (b : Binding) (a : α) :
    (I.insert s b a).map view = J.insert (view s) b a
  derive {α : Type} (s : S α) : view (I.derive s) = J.derive (view s)
  override (s : S Definition) (b : Binding) (value : Term) :
    (I.override s b value).map (Prod.map id view) = J.override (view s) b value

theorem chains_refine_tables : Refines chains tables Scope.table where
  get s b := by
    show s.get b = s.table.get b
    cases h : s.lookup b with
    | none => simp [Scope.get, Table.get, Scope.table, Scope.lookup_bindings, h]
    | some a => simp [Scope.get, Table.get, Scope.table, Scope.lookup_bindings, h]
  contains s b := by
    show (s.lookup b).isSome = decide (b ∈ s.table.keys)
    rw [Bool.eq_iff_iff, decide_eq_true_iff, Scope.keys_table, Scope.mem_keys]
  bindings s := rfl
  insert s b a := by
    show (s.insert b a).map Scope.table = s.table.insert b a
    have hmem : b ∈ s.table.keys ↔ (s.lookup b).isSome = true := by
      rw [Scope.keys_table, Scope.mem_keys]
    unfold Scope.insert Table.insert Scope.contains
    cases h : s.lookup b with
    | some d =>
      rw [dif_pos (hmem.2 (by simp [h]))]
      rfl
    | none =>
      rw [dif_neg (by simp [hmem, h])]
      exact congrArg Except.ok (Table.ext (Scope.bindings_bind h a))
  derive s := Table.ext s.bindings_derive
  override s b value := by
    show (Definitions.override s b value).map (Prod.map id Scope.table) = s.table.override b value
    have hlookup : s.table.entries.lookup b = s.lookup b := s.lookup_bindings b
    cases h : s.lookup b with
    | some d =>
      obtain ⟨s', hs', -⟩ := Definitions.override_of_lookup h value
      obtain ⟨t', ht', hentries⟩ := Table.override_of_lookup (hlookup.trans h) value
      have hview : s'.table = t' :=
        Table.ext ((Definitions.bindings_override h hs').trans hentries.symm)
      rw [hs', ht', ← hview]
      rfl
    | none =>
      rw [Table.override_of_none (hlookup.trans h), Definitions.override_of_none h]
      rfl

/-! ## Sequences of operations -/

/-- An operation on one scope of a family. The scope is given by its number. Only definitions can be
overridden. -/
inductive Operation : Type → Type 1 where
  | get {α : Type} (scope : Nat) (b : Binding) : Operation α
  | contains {α : Type} (scope : Nat) (b : Binding) : Operation α
  | bindings {α : Type} (scope : Nat) : Operation α
  | insert {α : Type} (scope : Nat) (b : Binding) (a : α) : Operation α
  /-- Adds a scope derived from the given one to the family. -/
  | derive {α : Type} (scope : Nat) : Operation α
  | override (scope : Nat) (b : Binding) (value : Term) : Operation Definition

/-- What an operation gives. -/
inductive Result (α : Type) where
  | done
  | value (a : α)
  | known (answer : Bool)
  | entries (table : List (Binding × α))
  | replaced (old : Term)

/-- Puts what an operation made of a scope in the place of the scope. A refused operation changes
nothing. -/
def commit {α : Type} (family : List (S α)) (scope : Nat) :
    Except ScopeError (Result α × S α) → Except ScopeError (Result α) × List (S α)
  | .ok (result, s) => (.ok result, family.set scope s)
  | .error error => (.error error, family)

namespace Operation

/-- The scope that the operation is about. -/
def scope {α : Type} : Operation α → Nat
  | get scope _ | contains scope _ | bindings scope | insert scope _ _ | derive scope
  | override scope _ _ => scope

/-- Carries out an operation on a scope `s` of the family. -/
def perform (I : Scoping S) : {α : Type} → Operation α → List (S α) → S α →
    Except ScopeError (Result α) × List (S α)
  | _, get _ b, family, s => ((I.get s b).map .value, family)
  | _, contains _ b, family, s => (.ok (.known (I.contains s b)), family)
  | _, bindings _, family, s => (.ok (.entries (I.bindings s)), family)
  | _, insert i b a, family, s => commit family i ((I.insert s b a).map (.done, ·))
  | _, derive _, family, s => (.ok .done, family ++ [I.derive s])
  | _, override i b value, family, s =>
    commit family i ((I.override s b value).map (Prod.map .replaced id))

/-- Carries out an operation. There is no answer if the family does not have the scope. -/
def step (I : Scoping S) {α : Type} (operation : Operation α) (family : List (S α)) :
    Option (Except ScopeError (Result α) × List (S α)) :=
  family[operation.scope]?.map (operation.perform I family)

/-- Carries out operations one after the other. -/
def run (I : Scoping S) {α : Type} : List (Operation α) → List (S α) →
    Option (List (Except ScopeError (Result α)) × List (S α))
  | [], family => some ([], family)
  | operation :: operations, family => do
    let first ← operation.step I family
    let rest ← run I operations first.2
    return (first.1 :: rest.1, rest.2)

end Operation

variable {I : Scoping S} {J : Scoping T} {view : {α : Type} → S α → T α}

theorem map_commit {α : Type} (family : List (S α)) (scope : Nat)
    (r : Except ScopeError (Result α × S α)) :
    (commit family scope r).map id (List.map view) =
      commit (family.map view) scope (r.map (Prod.map id view)) := by
  cases r with
  | error error => rfl
  | ok r => simp [commit, Except.map]

/-- **One operation.** -/
theorem Refines.perform (h : Refines I J view) {α : Type} (operation : Operation α)
    (family : List (S α)) (s : S α) :
    (operation.perform I family s).map id (List.map view) =
      operation.perform J (family.map view) (view s) := by
  cases operation with
  | get i b => simp [Operation.perform, h.get]
  | contains i b => simp [Operation.perform, h.contains]
  | bindings i => simp [Operation.perform, h.bindings]
  | derive i => simp [Operation.perform, h.derive]
  | insert i b a =>
    rw [Operation.perform, map_commit, Operation.perform, ← h.insert]
    cases I.insert s b a <;> rfl
  | override i b value =>
    rw [Operation.perform, map_commit, Operation.perform, ← h.override]
    cases I.override s b value <;> rfl

theorem Refines.step (h : Refines I J view) {α : Type} (operation : Operation α)
    (family : List (S α)) :
    (operation.step I family).map (Prod.map id (List.map view)) =
      operation.step J (family.map view) := by
  unfold Operation.step
  rw [List.getElem?_map]
  cases family[operation.scope]? with
  | none => rfl
  | some s => exact congrArg some (h.perform operation family s)

/-- **All operations.** -/
theorem Refines.run (h : Refines I J view) {α : Type} (operations : List (Operation α))
    (family : List (S α)) :
    (Operation.run I operations family).map (Prod.map id (List.map view)) =
      Operation.run J operations (family.map view) := by
  induction operations generalizing family with
  | nil => rfl
  | cons operation operations ih =>
    rw [Operation.run, Operation.run, ← h.step]
    cases operation.step I family with
    | none => rfl
    | some first =>
      show _ = (Operation.run J operations (first.2.map view)).bind _
      rw [← ih first.2]
      show ((Operation.run I operations first.2).bind _).map _ = _
      cases Operation.run I operations first.2 <;> rfl

end Scoping

/-- **A scope chain is a table.** Take a family of scopes and any sequence of operations on them:
lookups, new bindings, definitions that are overridden, and scopes derived from scopes of the family,
to any depth. Every operation has the same answer as on the tables that the chains stand for, and
the chains stand for the tables that it leaves. In a table a lookup fails exactly if the table has no
entry, a new binding comes last or is refused, an overridden definition keeps its type and its
place, a refused operation changes nothing, and a derived scope starts as a copy. -/
theorem run_chains_eq_run_tables {α : Type} (operations : List (Scoping.Operation α))
    (family : List (Scope α)) :
    (Scoping.Operation.run .chains operations family).map (Prod.map id (List.map Scope.table)) =
      Scoping.Operation.run .tables operations (family.map Scope.table) :=
  Scoping.chains_refine_tables.run operations family

-- A child overrides `x` after it has bound `y`: `x` keeps its place there, and its value outside.
example :
    let x : Binding := ⟨0, "x"⟩
    let y : Binding := ⟨1, "y"⟩
    let yes : Definition := ⟨.bool true, .boolType⟩
    let no : Definition := ⟨.bool false, .boolType⟩
    (Scoping.Operation.run .chains [.insert 0 x yes, .derive 0, .insert 1 y yes,
        .override 1 x (.bool false), .bindings 1, .insert 1 x yes, .get 0 x, .get 0 y] [{}]).map
      Prod.fst = some [.ok .done, .ok .done, .ok .done, .ok (.replaced (.bool true)),
        .ok (.entries [(x, no), (y, yes)]), .error (.alreadyInScope x), .ok (.value yes),
        .error (.notInScope y)] := by
  rfl

end DepLang
