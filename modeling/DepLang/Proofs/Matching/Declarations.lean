import DepLang.Matching.Signature

/-!
# What declarations keep true of a signature

A signature is **declared** if it comes from the empty one by declarations. Every declared signature
is well formed (`Signature.Declared.wellFormed`): constructors and data types point at each other.

* `listed`: a constructor stands in the list of the type that it makes values of, so that type is
  destructible.
* `declared`: whatever stands in the list of a type is a constructor of that type.
* `fields`: the types of fields are declared.

Besides, every type lists its constructors in the order of their numbers
(`Signature.Declared.increasing`), and so none of them twice (`Signature.Declared.nodup`).

The step lemmas are `WellFormed.addData` and `WellFormed.addConstructor`, one for each way to change
a signature.
-/
namespace DepLang.Matching.Signature

/-- The signature comes from the empty one by declarations. A refused declaration changes nothing,
so only the accepted ones are steps. -/
inductive Declared : Signature → Prop where
  | empty : Declared {}
  | indestructible {sig : Signature} (name : String) :
      Declared sig → Declared (sig.addIndestructible name).2
  | destructible {sig : Signature} (name : String) :
      Declared sig → Declared (sig.addDestructible name).2
  | constructor {sig sig' : Signature} {data : DataId} {name : String} {fields : List DataId}
      {k : ConId} : Declared sig → sig.addConstructor data name fields = .ok (k, sig') →
      Declared sig'

/-- The type is declared with these constructors. -/
def HasConstructors (sig : Signature) (ty : DataId) (constructors : List ConId) : Prop :=
  ∃ data, sig.dataType? ty = some data ∧ data.shape = .destructible constructors

/-- Constructors and data types point at each other. -/
structure WellFormed (sig : Signature) : Prop where
  listed : ∀ k con, sig.constructor? k = some con → ∃ ks, sig.HasConstructors con.data ks ∧ k ∈ ks
  declared : ∀ ty ks, sig.HasConstructors ty ks → ∀ k ∈ ks,
    ∃ con, sig.constructor? k = some con ∧ con.data = ty
  fields : ∀ k con, sig.constructor? k = some con → ∀ ty ∈ con.fields, (sig.dataType? ty).isSome

theorem WellFormed.isSome_data {sig : Signature} (h : sig.WellFormed) {k : ConId}
    {con : Constructor} (hk : sig.constructor? k = some con) : (sig.dataType? con.data).isSome := by
  obtain ⟨ks, ⟨data, hdata, -⟩, -⟩ := h.listed k con hk
  rw [hdata]
  rfl

/-- The constructors that a type lists are all that make values of it. -/
theorem WellFormed.mem_constructors_iff {sig : Signature} (h : sig.WellFormed) {ty : DataId}
    {ks : List ConId} (hty : sig.HasConstructors ty ks) {k : ConId} :
    k ∈ ks ↔ ∃ con, sig.constructor? k = some con ∧ con.data = ty := by
  refine ⟨h.declared ty ks hty k, ?_⟩
  rintro ⟨con, hcon, rfl⟩
  obtain ⟨ls, ⟨data', hd', hshape'⟩, hk⟩ := h.listed k con hcon
  obtain ⟨data, hd, hshape⟩ := hty
  obtain rfl := Option.some.inj (hd.symm.trans hd')
  rw [hshape] at hshape'
  cases hshape'
  exact hk

/-! ## Required types -/

theorem constructor_eq_ok {sig : Signature} {id : ConId} {con : Constructor} :
    sig.constructor id = .ok con ↔ sig.constructor? id = some con := by
  unfold Signature.constructor; split <;> simp_all

theorem dataType_eq_ok {sig : Signature} {id : DataId} {data : DataType} :
    sig.dataType id = .ok data ↔ sig.dataType? id = some data := by
  unfold Signature.dataType; split <;> simp_all

theorem requireData_eq_ok {sig : Signature} {ids : List DataId} :
    sig.requireData ids = .ok () ↔ ∀ id ∈ ids, (sig.dataType? id).isSome := by
  induction ids with
  | nil => simp [requireData]
  | cons id ids ih =>
    cases h : sig.dataType? id with
    | none => simp [requireData, dataType, h, bind, Except.bind]
    | some data => simp [requireData, dataType, h, bind, Except.bind, ih]

/-! ## Declaring in place -/

namespace Declaring

variable {α β : Type} {x : Except MatchingError α} {f : α → Declaring β} {sig : Signature}

theorem bind_of_ok {a : α} (h : x = .ok a) : (ofExcept x >>= f : Declaring β) sig = f a sig := by
  subst h
  rfl

theorem bind_of_error {e : MatchingError} (h : x = .error e) :
    (ofExcept x >>= f : Declaring β) sig = .error e sig := by
  subst h
  rfl

end Declaring

section Constructor

variable {sig : Signature} (data : DataId) (name : String) (fields : List DataId)

/-- **A constructor.** Either the checks pass and both writes are made, or one of the checks fails
and nothing has been written. -/
theorem declareConstructor_cases :
    (∃ ty ks, sig.dataType? data = some ty ∧ ty.shape = .destructible ks ∧
      (∀ f ∈ fields, (sig.dataType? f).isSome) ∧
      declareConstructor data name fields sig = .ok ⟨sig.constructors.size⟩
        { dataTypes := sig.dataTypes.setIfInBounds data.index
            { ty with shape := .destructible (ks ++ [⟨sig.constructors.size⟩]) }
          constructors := sig.constructors.push ⟨name, data, fields⟩ }) ∨
    ∃ e, declareConstructor data name fields sig = .error e sig ∧
      (sig.dataType data = .error e ∨
        (∃ ty, sig.dataType data = .ok ty ∧ sig.requireData fields = .error e) ∨
        ∃ ty, sig.dataType data = .ok ty ∧ sig.requireData fields = .ok () ∧
          ty.shape = .indestructible ∧ e = .indestructibleData data name) := by
  cases hty : sig.dataType data with
  | error e => exact .inr ⟨e, Declaring.bind_of_error hty, .inl rfl⟩
  | ok ty =>
    have hchecked : declareConstructor data name fields sig =
        (ofExcept (sig.requireData fields) >>= _ : Declaring ConId) sig := Declaring.bind_of_ok hty
    cases hfields : sig.requireData fields with
    | error e =>
      exact .inr ⟨e, hchecked.trans (Declaring.bind_of_error hfields), .inr (.inl ⟨ty, rfl, rfl⟩)⟩
    | ok u =>
      rw [Declaring.bind_of_ok hfields] at hchecked
      cases hshape : ty.shape with
      | indestructible =>
        rw [hshape] at hchecked
        exact .inr ⟨_, hchecked, .inr (.inr ⟨ty, rfl, rfl, hshape, rfl⟩)⟩
      | destructible ks =>
        rw [hshape] at hchecked
        exact .inl ⟨ty, ks, dataType_eq_ok.1 hty, hshape, requireData_eq_ok.1 hfields, hchecked⟩

variable {data name fields}

theorem eq_of_declareConstructor_eq_error {sig' : Signature} {e : MatchingError}
    (h : declareConstructor data name fields sig = .error e sig') : sig' = sig := by
  rcases declareConstructor_cases data name fields with ⟨_, _, -, -, -, he⟩ | ⟨_, he, -⟩
  · rw [he] at h
    cases h
  · rw [he] at h
    cases h
    rfl

theorem addConstructor_eq_ok_iff {sig' : Signature} {k : ConId} :
    sig.addConstructor data name fields = .ok (k, sig') ↔
      declareConstructor data name fields sig = .ok k sig' := by
  unfold addConstructor
  cases declareConstructor data name fields sig <;> simp

theorem addConstructor_eq_ok {sig' : Signature} {k : ConId}
    (h : sig.addConstructor data name fields = .ok (k, sig')) :
    ∃ ty ks, sig.dataType? data = some ty ∧ ty.shape = .destructible ks ∧
      (∀ f ∈ fields, (sig.dataType? f).isSome) ∧ k = ⟨sig.constructors.size⟩ ∧
      sig' = { dataTypes := sig.dataTypes.setIfInBounds data.index
                 { ty with shape := .destructible (ks ++ [k]) }
               constructors := sig.constructors.push ⟨name, data, fields⟩ } := by
  rw [addConstructor_eq_ok_iff] at h
  rcases declareConstructor_cases data name fields with ⟨ty, ks, hty, hs, hf, he⟩ | ⟨_, he, -⟩
  · rw [he] at h
    cases h
    exact ⟨ty, ks, hty, hs, hf, rfl, rfl⟩
  · rw [he] at h
    cases h

theorem addConstructor_eq_error {e : MatchingError}
    (h : sig.addConstructor data name fields = .error e) :
    sig.dataType data = .error e ∨
    (∃ ty, sig.dataType data = .ok ty ∧ sig.requireData fields = .error e) ∨
    ∃ ty, sig.dataType data = .ok ty ∧ sig.requireData fields = .ok () ∧
      ty.shape = .indestructible ∧ e = .indestructibleData data name := by
  unfold addConstructor at h
  rcases declareConstructor_cases data name fields with ⟨_, _, -, -, -, he⟩ | ⟨_, he, hcause⟩
  · rw [he] at h
    cases h
  · rw [he] at h
    cases h
    exact hcause

end Constructor

/-! ## One declaration -/

theorem dataType?_addData {sig : Signature} {new : DataType} {id : DataId} :
    (sig.addData new).2.dataType? id =
      if id.index = sig.dataTypes.size then some new else sig.dataType? id := by
  simp [addData, dataType?, Array.getElem?_push]

theorem dataType?_set {sig : Signature} {data : DataId} {ty : DataType}
    (h : sig.dataType? data = some ty) (new : DataType) (constructors : Array Constructor)
    (id : DataId) :
    ({ dataTypes := sig.dataTypes.setIfInBounds data.index new
       constructors } : Signature).dataType? id =
      if id = data then some new else sig.dataType? id := by
  obtain ⟨hlt, -⟩ := Array.getElem?_eq_some_iff.1 h
  by_cases hid : id = data
  · simp [dataType?, hid, hlt]
  · have : data.index ≠ id.index := fun e => hid (by cases id; cases data; simp_all)
    simp [dataType?, hid, this]

theorem constructor?_push (sig : Signature) (dataTypes : Array DataType) (con : Constructor)
    (k : ConId) :
    ({ dataTypes, constructors := sig.constructors.push con } : Signature).constructor? k =
      if k = ⟨sig.constructors.size⟩ then some con else sig.constructor? k := by
  by_cases hk : k = ⟨sig.constructors.size⟩
  · simp [constructor?, hk]
  · have : k.index ≠ sig.constructors.size := fun e => hk (by cases k; simp_all)
    simp [constructor?, hk, Array.getElem?_push, this]

theorem WellFormed.addData {sig : Signature} (h : sig.WellFormed) (new : DataType)
    (hn : ∀ ks, new.shape = .destructible ks → ks = []) : (sig.addData new).2.WellFormed := by
  have old : ∀ id data, sig.dataType? id = some data →
      (sig.addData new).2.dataType? id = some data := by
    intro id data hd
    have hlt : id.index < sig.dataTypes.size := by
      obtain ⟨hlt, -⟩ := Array.getElem?_eq_some_iff.1 hd
      exact hlt
    rw [dataType?_addData, if_neg (by omega), hd]
  refine ⟨?_, ?_, ?_⟩
  · intro k con hk
    obtain ⟨ks, ⟨data, hd, hs⟩, hm⟩ := h.listed k con hk
    exact ⟨ks, ⟨data, old _ _ hd, hs⟩, hm⟩
  · rintro ty ks ⟨data, hd, hs⟩ k hk
    rw [dataType?_addData] at hd
    split at hd
    · cases hd
      rw [hn ks hs] at hk
      exact absurd hk List.not_mem_nil
    · exact h.declared ty ks ⟨data, hd, hs⟩ k hk
  · intro k con hk ty hty
    obtain ⟨data, hd⟩ := Option.isSome_iff_exists.1 (h.fields k con hk ty hty)
    rw [old _ _ hd]; rfl

/-- A new constructor is listed by its type, and the old ones stay where they were. -/
theorem WellFormed.addConstructor {sig sig' : Signature} (h : sig.WellFormed) {data : DataId}
    {name : String} {fields : List DataId} {k : ConId}
    (he : sig.addConstructor data name fields = .ok (k, sig')) : sig'.WellFormed := by
  obtain ⟨ty, ks, hty, hshape, hfields, hk, hsig'⟩ := addConstructor_eq_ok he
  have hdata := dataType?_set hty { ty with shape := .destructible (ks ++ [k]) }
    (sig.constructors.push ⟨name, data, fields⟩)
  have hcon := constructor?_push sig (sig.dataTypes.setIfInBounds data.index
    { ty with shape := .destructible (ks ++ [k]) }) ⟨name, data, fields⟩
  rw [← hsig'] at hdata hcon
  rw [← hk] at hcon
  refine ⟨?_, ?_, ?_⟩
  · intro l con hl
    rw [hcon] at hl
    split at hl
    · rename_i hlk
      cases hl
      exact ⟨ks ++ [k], ⟨_, by rw [hdata, if_pos rfl], rfl⟩, by simp [hlk]⟩
    · obtain ⟨ls, ⟨d, hd, hs⟩, hm⟩ := h.listed l con hl
      by_cases hc : con.data = data
      · rw [hc, hty] at hd
        cases hd
        rw [hshape] at hs
        cases hs
        exact ⟨ks ++ [k], ⟨_, by rw [hdata, if_pos hc], rfl⟩, List.mem_append_left _ hm⟩
      · exact ⟨ls, ⟨d, by rw [hdata, if_neg hc, hd], hs⟩, hm⟩
  · rintro id ls ⟨d, hd, hs⟩ l hl
    have old : ∀ ms, sig.HasConstructors id ms → l ∈ ms →
        ∃ con, sig'.constructor? l = some con ∧ con.data = id := by
      intro ms hms hm
      obtain ⟨con, hcl, hcd⟩ := h.declared id ms hms l hm
      have hne : l ≠ k := by
        rintro rfl
        subst hk
        simp [constructor?] at hcl
      exact ⟨con, by rw [hcon, if_neg hne, hcl], hcd⟩
    rw [hdata] at hd
    split at hd
    · rename_i hid
      cases hd
      cases hs
      rcases List.mem_append.1 hl with hm | hm
      · exact old ks ⟨ty, by rw [hid, hty], hshape⟩ hm
      · cases List.mem_singleton.1 hm
        exact ⟨_, by rw [hcon, if_pos rfl], hid.symm⟩
    · exact old ls ⟨d, hd, hs⟩ hl
  · intro l con hl f hf
    have old : (sig.dataType? f).isSome := by
      rw [hcon] at hl
      split at hl
      · cases hl; exact hfields f hf
      · exact h.fields l con hl f hf
    rw [hdata]
    split
    · rfl
    · exact old

/-- **Declarations.** Every signature that can be declared is well formed. -/
theorem Declared.wellFormed {sig : Signature} (h : sig.Declared) : sig.WellFormed := by
  induction h with
  | empty =>
    refine ⟨?_, ?_, ?_⟩
    · intro k con hk; simp [constructor?] at hk
    · rintro ty ks ⟨data, hd, -⟩; simp [dataType?] at hd
    · intro k con hk; simp [constructor?] at hk
  | indestructible name _ ih => exact ih.addData _ (fun ks hs => by cases hs)
  | destructible name _ ih => exact ih.addData _ (fun ks hs => by cases hs; rfl)
  | constructor _ he ih => exact ih.addConstructor he

/-- The number of a new constructor is above all others, so every type lists its constructors in the
order of their numbers. -/
theorem Declared.increasing {sig : Signature} (h : sig.Declared) {ty : DataId} {ks : List ConId}
    (hty : sig.HasConstructors ty ks) : ks.Pairwise fun k l => k.index < l.index := by
  induction h generalizing ty ks with
  | empty =>
    obtain ⟨data, hd, -⟩ := hty
    simp [dataType?] at hd
  | indestructible name _ ih =>
    obtain ⟨data, hd, hs⟩ := hty
    rw [addIndestructible, dataType?_addData] at hd
    split at hd
    · cases hd
      cases hs
    · exact ih ⟨data, hd, hs⟩
  | destructible name _ ih =>
    obtain ⟨data, hd, hs⟩ := hty
    rw [addDestructible, dataType?_addData] at hd
    split at hd
    · cases hd
      cases hs
      exact .nil
    · exact ih ⟨data, hd, hs⟩
  | @constructor sig sig' data name fields k hsig he ih =>
    obtain ⟨old, ls, hold, hshape, -, hk, rfl⟩ := addConstructor_eq_ok he
    obtain ⟨data', hd, hs⟩ := hty
    rw [dataType?_set hold] at hd
    split at hd
    · cases hd
      cases hs
      have hls : sig.HasConstructors data ls := ⟨old, hold, hshape⟩
      have hnew : ∀ l ∈ ls, l.index < k.index := by
        intro l hl
        obtain ⟨con, hcon, -⟩ := hsig.wellFormed.declared data ls hls l hl
        obtain ⟨hlt, -⟩ := Array.getElem?_eq_some_iff.1 hcon
        rw [hk]
        exact hlt
      exact List.pairwise_append.2 ⟨ih hls, List.pairwise_singleton _ _, fun l hl m hm =>
        List.mem_singleton.1 hm ▸ hnew l hl⟩
    · exact ih ⟨data', hd, hs⟩

theorem Declared.nodup {sig : Signature} (h : sig.Declared) {ty : DataId} {ks : List ConId}
    (hty : sig.HasConstructors ty ks) : ks.Nodup :=
  (h.increasing hty).imp fun hlt e => Nat.ne_of_lt hlt (congrArg ConId.index e)

end DepLang.Matching.Signature
