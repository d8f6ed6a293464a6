import DepLang.Proofs.Matching.Declarations
import Mathlib.Data.List.Nodup

/-!
# Every constructor is listed once

A signature keeps two vectors that point into each other, and a constructor is declared by writing
to both: its number goes into the list of its type before the constructor itself is stored. Whatever
is declared, in whatever order and with whatever refusals in between, the two agree.

* `Signature.declareAll` carries out declarations one after the other, the refused ones included.
* `Signature.Declared.listings_perm`: all lists of a signature together hold each constructor of it
  exactly once.
-/
namespace DepLang.Matching

/-! ## Sequences of declarations -/

/-- One thing to declare. -/
inductive Declaration where
  | indestructible (name : String)
  | destructible (name : String)
  | constructor (data : DataId) (name : String) (fields : List DataId)
deriving DecidableEq, Repr

namespace Signature

/-- The signature that a declaration leaves, accepted or not. -/
def declare (sig : Signature) : Declaration → Signature
  | .indestructible name => (sig.addIndestructible name).2
  | .destructible name => (sig.addDestructible name).2
  | .constructor data name fields =>
    match declareConstructor data name fields sig with
    | .ok _ sig' => sig'
    | .error _ sig' => sig'

/-- The signature that declarations leave, one after the other. -/
def declareAll (sig : Signature) (declarations : List Declaration) : Signature :=
  declarations.foldl declare sig

theorem declare_cases (sig : Signature) (declaration : Declaration) :
    (∃ name, sig.declare declaration = (sig.addIndestructible name).2) ∨
    (∃ name, sig.declare declaration = (sig.addDestructible name).2) ∨
    (∃ data name fields k,
      sig.addConstructor data name fields = .ok (k, sig.declare declaration)) ∨
    sig.declare declaration = sig := by
  cases declaration with
  | indestructible name => exact .inl ⟨name, rfl⟩
  | destructible name => exact .inr (.inl ⟨name, rfl⟩)
  | constructor data name fields =>
    cases h : declareConstructor data name fields sig with
    | ok k sig' =>
      have hleft : sig.declare (.constructor data name fields) = sig' := by rw [declare, h]
      exact .inr (.inr (.inl ⟨data, name, fields, k, hleft ▸ addConstructor_eq_ok_iff.2 h⟩))
    | error e sig' =>
      refine .inr (.inr (.inr ?_))
      rw [declare, h]
      exact eq_of_declareConstructor_eq_error h

theorem Declared.declare {sig : Signature} (h : sig.Declared) (declaration : Declaration) :
    (sig.declare declaration).Declared := by
  rcases sig.declare_cases declaration with ⟨name, he⟩ | ⟨name, he⟩ | ⟨_, _, _, _, he⟩ | he
  · exact he ▸ h.indestructible name
  · exact he ▸ h.destructible name
  · exact h.constructor he
  · exact he.symm ▸ h

/-- Whatever is declared, the signature is one that comes from accepted declarations alone. -/
theorem Declared.declareAll {sig : Signature} (h : sig.Declared) (declarations : List Declaration) :
    (sig.declareAll declarations).Declared := by
  induction declarations generalizing sig with
  | nil => exact h
  | cons declaration declarations ih => exact ih (h.declare declaration)

/-! ## All lists together -/

end Signature

/-- The constructors that a type lists. An indestructible one lists none. -/
def DataType.constructors (data : DataType) : List ConId :=
  match data.shape with
  | .indestructible => []
  | .destructible constructors => constructors

namespace Signature

/-- The lists of constructors, one for each data type. -/
def listings (sig : Signature) : List (List ConId) :=
  sig.dataTypes.toList.map DataType.constructors

theorem hasConstructors_of_mem_listings {sig : Signature} {ks : List ConId}
    (h : ks ∈ sig.listings) : ks = [] ∨ ∃ ty, sig.HasConstructors ty ks := by
  obtain ⟨data, hd, rfl⟩ := List.mem_map.1 h
  obtain ⟨i, hi, heq⟩ := List.getElem_of_mem hd
  cases hs : data.shape with
  | indestructible => exact .inl (by rw [DataType.constructors, hs])
  | destructible constructors =>
    refine .inr ⟨⟨i⟩, data, ?_, ?_⟩
    · rw [dataType?, ← heq]
      simp
    · rw [DataType.constructors, hs]

theorem flatten_set_perm {lists : List (List ConId)} {i : Nat} {ks : List ConId}
    (h : lists[i]? = some ks) (k : ConId) :
    (lists.set i (ks ++ [k])).flatten.Perm (lists.flatten ++ [k]) := by
  induction lists generalizing i with
  | nil => simp at h
  | cons first rest ih =>
    cases i with
    | zero =>
      obtain rfl : first = ks := by simpa using h
      simpa using List.Perm.append_left first (@List.perm_append_comm _ [k] _)
    | succ i => simpa using (ih (by simpa using h)).append_left first

/-- **Listed once.** The lists of all types together are the constructors, in some order. -/
theorem Declared.listings_perm {sig : Signature} (h : sig.Declared) :
    sig.listings.flatten.Perm ((List.range sig.constructors.size).map ConId.mk) := by
  induction h with
  | empty => simp [listings]
  | indestructible name _ ih =>
    simpa [listings, addIndestructible, addData, DataType.constructors] using ih
  | destructible name _ ih =>
    simpa [listings, addDestructible, addData, DataType.constructors] using ih
  | @constructor sig sig' data name fields k _ he ih =>
    obtain ⟨ty, ks, hty, hshape, -, hk, rfl⟩ := addConstructor_eq_ok he
    have hold : sig.listings[data.index]? = some ks := by
      have hget : sig.dataTypes.toList[data.index]? = some ty := by
        rw [Array.getElem?_toList]
        exact hty
      rw [listings, List.getElem?_map, hget, Option.map_some, DataType.constructors, hshape]
    have hnew := (flatten_set_perm hold k).trans (ih.append_right [k])
    simpa [listings, DataType.constructors, List.map_set, List.range_succ, ← hk] using hnew

/-- A constructor that is declared occurs once in all lists together, and no other number does. -/
theorem Declared.count_listings {sig : Signature} (h : sig.Declared) (k : ConId) :
    sig.listings.flatten.count k = if k.index < sig.constructors.size then 1 else 0 := by
  have hinjective : Function.Injective ConId.mk := fun i j e => congrArg ConId.index e
  rw [h.listings_perm.count_eq, (List.nodup_range.map hinjective).count]
  obtain ⟨i⟩ := k
  simp

theorem Declared.increasing_listings {sig : Signature} (h : sig.Declared) {ks : List ConId}
    (hks : ks ∈ sig.listings) : ks.Pairwise fun k l => k.index < l.index := by
  rcases hasConstructors_of_mem_listings hks with rfl | ⟨ty, hty⟩
  · exact .nil
  · exact h.increasing hty

theorem isSome_dataType?_iff {sig : Signature} {ty : DataId} :
    (sig.dataType? ty).isSome ↔ ty.index < sig.dataTypes.size := by
  simp [dataType?]

end Signature

/-- **Every constructor is listed once.** Declare types and constructors in any order, and let some
of the declarations be refused. Then a constructor occurs exactly once in the lists of all types
together, and a number that no constructor has does not occur; the list it occurs in is that of the
type it makes values of, and this type and those of its fields are declared. Every list is strictly
increasing. The next constructor, if it is refused, changes nothing. -/
theorem declarations_list_constructors_once (declarations : List Declaration) :
    let sig := Signature.declareAll {} declarations
    (∀ k : ConId, sig.listings.flatten.count k = if k.index < sig.constructors.size then 1 else 0) ∧
    (∀ k con, sig.constructor? k = some con → ∃ ks, sig.HasConstructors con.data ks ∧ k ∈ ks) ∧
    (∀ ks ∈ sig.listings, ks.Pairwise fun k l => k.index < l.index) ∧
    (∀ k con, sig.constructor? k = some con →
      ∀ ty ∈ con.data :: con.fields, ty.index < sig.dataTypes.size) ∧
    ∀ data name fields error sig',
      Signature.declareConstructor data name fields sig = .error error sig' → sig' = sig := by
  intro sig
  have hsig : sig.Declared := Signature.Declared.empty.declareAll declarations
  refine ⟨hsig.count_listings, hsig.wellFormed.listed, fun ks => hsig.increasing_listings, ?_, ?_⟩
  · intro k con hk ty hty
    rw [← Signature.isSome_dataType?_iff]
    rcases List.mem_cons.1 hty with rfl | hty
    · exact hsig.wellFormed.isSome_data hk
    · exact hsig.wellFormed.fields k con hk ty hty
  · intro data name fields error sig' h
    exact Signature.eq_of_declareConstructor_eq_error h

-- A type that contains itself through a type declared later, and two constructors that are refused.
example :
    let sig := Signature.declareAll {} [.destructible "Tree", .constructor ⟨0⟩ "node" [⟨1⟩],
      .destructible "Forest", .constructor ⟨1⟩ "nil" [], .constructor ⟨0⟩ "node" [⟨1⟩],
      .indestructible "Leaf", .constructor ⟨2⟩ "leaf" [], .constructor ⟨1⟩ "cons" [⟨0⟩, ⟨1⟩]]
    sig.listings = [[⟨1⟩], [⟨0⟩, ⟨2⟩], []] ∧ sig.constructors.size = 3 := by
  decide +kernel

end DepLang.Matching
