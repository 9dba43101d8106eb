import Mathlib.Data.List.AList
import Mathlib.Tactic

/-!
# The IRI registry

`IriRegistry` of `engine.rs`: the two hash maps between IRIs and their ids, and the next id.

* `register`, `registerId`, `resolve`, `lookup`, `export`, `import`, `Valid`;
* `Extends`: one registry knows every pair of another.
-/

namespace WildAgentOs.Engine

open Option AList

structure IriRegistry where
  iriToId : AList fun _ : String => UInt32
  idToIri : AList fun _ : UInt32 => String
  nextId : UInt32

namespace IriRegistry

/-- `new`: the first id is 1. -/
def new : IriRegistry := ⟨∅, ∅, 1⟩

def resolve (r : IriRegistry) (iri : String) : Option UInt32 := r.iriToId.lookup iri

def lookup (r : IriRegistry) (id : UInt32) : Option String := r.idToIri.lookup id

/-- `register`: the registry after it, and the id. -/
def register (r : IriRegistry) (iri : String) : IriRegistry × UInt32 :=
  match r.iriToId.lookup iri with
  | some id => (r, id)
  | none =>
    let id := r.nextId
    (⟨r.iriToId.insert iri id, r.idToIri.insert id iri, r.nextId + 1⟩, id)

def registerId (r : IriRegistry) (id : UInt32) (iri : String) : IriRegistry where
  iriToId := r.iriToId.insert iri id
  idToIri := r.idToIri.insert id iri
  nextId := if r.nextId ≤ id then id + 1 else r.nextId

/-- `export`: the entries of one of the maps, in the order `order` the map has them in. -/
def «export» (r : IriRegistry) (order : List (UInt32 × String) → List (UInt32 × String)) : List (UInt32 × String) :=
  order (r.idToIri.entries.map fun e => (e.1, e.2))

/-- `import`. -/
def «import» (r : IriRegistry) (entries : List (UInt32 × String)) : IriRegistry :=
  entries.foldl (fun r e => r.registerId e.1 e.2) r

variable {r r' s : IriRegistry} {iri iri' : String} {id id' : UInt32}

/-! ### What each operation does to the two maps -/

@[simp] theorem resolve_new (iri : String) : new.resolve iri = none := rfl

@[simp] theorem lookup_new (id : UInt32) : new.lookup id = none := rfl

/-- An IRI that is registered keeps its id and changes nothing. -/
theorem register_of_resolve (h : r.resolve iri = some id) : r.register iri = (r, id) := by
  unfold register
  rw [show r.iriToId.lookup iri = some id from h]

theorem register_of_none (h : r.resolve iri = none) :
    r.register iri = (⟨r.iriToId.insert iri r.nextId, r.idToIri.insert r.nextId iri, r.nextId + 1⟩, r.nextId) := by
  unfold register
  rw [show r.iriToId.lookup iri = none from h]

theorem resolve_registerId (r : IriRegistry) (id : UInt32) (iri iri' : String) :
    (r.registerId id iri).resolve iri' = if iri' = iri then some id else r.resolve iri' := by
  by_cases h : iri' = iri
  · rw [if_pos h, h]
    exact lookup_insert r.iriToId
  · rw [if_neg h]
    exact lookup_insert_ne h

theorem lookup_registerId (r : IriRegistry) (id : UInt32) (iri : String) (id' : UInt32) :
    (r.registerId id iri).lookup id' = if id' = id then some iri else r.lookup id' := by
  by_cases h : id' = id
  · rw [if_pos h, h]
    exact lookup_insert r.idToIri
  · rw [if_neg h]
    exact lookup_insert_ne h

theorem resolve_register (r : IriRegistry) (iri iri' : String) :
    (r.register iri).1.resolve iri' = if iri' = iri then some (r.register iri).2 else r.resolve iri' := by
  cases h : r.resolve iri with
  | some id =>
    rw [register_of_resolve h]
    split_ifs with heq
    · rw [heq, h]
    · rfl
  | none =>
    rw [register_of_none h]
    unfold resolve
    split_ifs with heq
    · rw [heq, lookup_insert]
    · exact lookup_insert_ne heq

/-- The id of a registered IRI is the one `register` returned. -/
theorem resolve_register_self (r : IriRegistry) (iri : String) :
    (r.register iri).1.resolve iri = some (r.register iri).2 := by
  rw [resolve_register, if_pos rfl]

theorem resolve_register_of_some (h : r.resolve iri' = some id) (iri : String) :
    (r.register iri).1.resolve iri' = some id := by
  rw [resolve_register]
  split_ifs with heq
  · subst heq
    rw [register_of_resolve h]
  · exact h

/-! ### Valid registries -/

/-- The maps are inverse to each other, and the ids lie below the next id. -/
structure Valid (r : IriRegistry) : Prop where
  lookup_iff : ∀ id iri, r.lookup id = some iri ↔ r.resolve iri = some id
  lt_nextId : ∀ id iri, r.lookup id = some iri → id < r.nextId

theorem valid_new : new.Valid where
  lookup_iff := by simp
  lt_nextId := by simp

/-- A registered id is below the last one. -/
theorem Valid.ne_max (h : r.Valid) (hlook : r.lookup id = some iri) : id ≠ 0xFFFFFFFF := by
  intro heq
  have hlt : id < r.nextId := h.lt_nextId id iri hlook
  have hnext : r.nextId.toNat < 2 ^ 32 := r.nextId.toNat_lt
  rw [heq, UInt32.lt_iff_toNat_lt] at hlt
  simp at hlt
  omega

/-- Two IRIs of a valid registry do not share an id. -/
theorem Valid.resolve_injective (h : r.Valid) (hiri : r.resolve iri = some id)
    (hiri' : r.resolve iri' = some id) : iri = iri' := by
  have hlook : r.lookup id = some iri := (h.lookup_iff id iri).2 hiri
  rw [(h.lookup_iff id iri').2 hiri'] at hlook
  exact (some.inj hlook).symm

/-- Every pair of `r` is one of `s`. -/
def Extends (s r : IriRegistry) : Prop := ∀ id iri, r.lookup id = some iri → s.lookup id = some iri

theorem lt_add_one (h : id ≠ 0xFFFFFFFF) : id < id + 1 := by
  have hlt : id.toNat < 2 ^ 32 := id.toNat_lt
  have hne : id.toNat ≠ 0xFFFFFFFF := fun heq => h (UInt32.toNat_inj.1 heq)
  rw [UInt32.lt_iff_toNat_lt, UInt32.toNat_add]
  simp
  omega

theorem lt_nextId_registerId (hmax : id ≠ 0xFFFFFFFF) : id < (r.registerId id iri).nextId := by
  unfold registerId
  show id < if r.nextId ≤ id then id + 1 else r.nextId
  split_ifs with h
  · exact lt_add_one hmax
  · exact UInt32.not_le.1 h

theorem nextId_le_registerId (hmax : id ≠ 0xFFFFFFFF) : r.nextId ≤ (r.registerId id iri).nextId := by
  unfold registerId
  show r.nextId ≤ if r.nextId ≤ id then id + 1 else r.nextId
  split_ifs with h
  · exact UInt32.le_trans h (UInt32.le_of_lt (lt_add_one hmax))
  · exact UInt32.le_refl _

/-- Restoring a pair that contradicts none keeps a registry valid. -/
theorem Valid.registerId (h : r.Valid) (hmax : id ≠ 0xFFFFFFFF) (hid : ∀ iri', r.lookup id = some iri' → iri' = iri)
    (hiri : ∀ id', r.resolve iri = some id' → id' = id) : (r.registerId id iri).Valid where
  lookup_iff := by
    intro j iri'
    rw [lookup_registerId, resolve_registerId]
    by_cases hj : j = id <;> by_cases hi : iri' = iri
    · simp [hj, hi]
    · rw [if_pos hj, if_neg hi, ← h.lookup_iff, hj]
      constructor
      · intro heq
        exact absurd (some.inj heq).symm hi
      · intro hlook
        exact absurd (hid iri' hlook) hi
    · rw [if_neg hj, if_pos hi, h.lookup_iff, hi]
      constructor
      · intro hres
        exact absurd (hiri j hres) hj
      · intro heq
        exact absurd (some.inj heq).symm hj
    · rw [if_neg hj, if_neg hi]
      exact h.lookup_iff j iri'
  lt_nextId := by
    intro j iri' hlook
    rw [lookup_registerId] at hlook
    by_cases hj : j = id
    · rw [hj]
      exact lt_nextId_registerId hmax
    · rw [if_neg hj] at hlook
      exact UInt32.lt_of_lt_of_le (h.lt_nextId j iri' hlook) (nextId_le_registerId hmax)

/-- `register` is `register_id` with the id it returns, on the two maps. -/
theorem register_eq_registerId (h : r.resolve iri = none) :
    (r.register iri).1 = { r.registerId r.nextId iri with nextId := r.nextId + 1 } := by
  rw [register_of_none h]
  rfl

theorem Valid.register (h : r.Valid) (hmax : r.resolve iri = none → r.nextId ≠ 0xFFFFFFFF) :
    (r.register iri).1.Valid := by
  cases hres : r.resolve iri with
  | some id =>
    rw [register_of_resolve hres]
    exact h
  | none =>
    have hnext : (r.registerId r.nextId iri).nextId = r.nextId + 1 := if_pos (UInt32.le_refl _)
    have hvalid : (r.registerId r.nextId iri).Valid := by
      refine h.registerId (hmax hres) ?_ ?_
      · intro iri' hlook
        exact absurd (h.lt_nextId _ _ hlook) (UInt32.lt_irrefl _)
      · intro id' hid'
        rw [hres] at hid'
        cases hid'
    rw [register_eq_registerId hres, ← hnext]
    exact hvalid

/-- A new IRI gets an id that no other IRI has. -/
theorem Valid.lookup_register (h : r.Valid) (iri : String) (id : UInt32) :
    (r.register iri).1.lookup id = if id = (r.register iri).2 then some iri else r.lookup id := by
  cases hres : r.resolve iri with
  | some id' =>
    rw [register_of_resolve hres]
    split_ifs with heq
    · rw [heq]
      exact (h.lookup_iff id' iri).2 hres
    · rfl
  | none =>
    rw [register_of_none hres]
    exact lookup_registerId r r.nextId iri id

theorem Valid.extends_register (h : r.Valid) (iri : String) : Extends (r.register iri).1 r := by
  intro id iri' hlook
  rw [h.lookup_register]
  split_ifs with heq
  · cases hres : r.resolve iri with
    | some id' =>
      rw [register_of_resolve hres] at heq
      rw [heq, (h.lookup_iff id' iri).2 hres] at hlook
      exact hlook
    | none =>
      rw [register_of_none hres] at heq
      rw [heq] at hlook
      exact absurd (h.lt_nextId _ _ hlook) (UInt32.lt_irrefl _)
  · exact hlook

/-! ### Import and export -/

theorem mem_export {order : List (UInt32 × String) → List (UInt32 × String)} (horder : ∀ l, (order l).Perm l) :
    (id, iri) ∈ r.export order ↔ r.lookup id = some iri := by
  unfold «export» lookup
  rw [(horder _).mem_iff, List.mem_map]
  constructor
  · rintro ⟨⟨i, t⟩, hmem, heq⟩
    cases heq
    exact mem_lookup_iff.2 hmem
  · intro hlook
    exact ⟨⟨id, iri⟩, mem_lookup_iff.1 hlook, rfl⟩

/-- The pairs of a registry are known to it, and no others are restored into one it extends. -/
theorem Valid.registerId_of_extends (hs : s.Valid) (h : r.Valid) (hext : Extends s r) (hpair : s.lookup id = some iri) :
    (r.registerId id iri).Valid ∧ Extends s (r.registerId id iri) := by
  have hmax : id ≠ 0xFFFFFFFF := hs.ne_max hpair
  refine ⟨h.registerId hmax ?_ ?_, ?_⟩
  · intro iri' hlook
    have hs' : s.lookup id = some iri' := hext id iri' hlook
    rw [hpair] at hs'
    exact (some.inj hs').symm
  · intro id' hres
    have hs' : s.resolve iri = some id' := (hs.lookup_iff id' iri).1 (hext id' iri ((h.lookup_iff id' iri).2 hres))
    rw [(hs.lookup_iff id iri).1 hpair] at hs'
    exact (some.inj hs').symm
  · intro j iri' hlook
    rw [lookup_registerId] at hlook
    split_ifs at hlook with hj
    · rw [hj, hpair]
      exact hlook
    · exact hext j iri' hlook

/-- Restoring pairs of a registry into one that it extends. -/
theorem Valid.import (hs : s.Valid) {entries : List (UInt32 × String)}
    (hentries : ∀ e ∈ entries, s.lookup e.1 = some e.2) (h : r.Valid) (hext : Extends s r) :
    (r.import entries).Valid ∧ Extends s (r.import entries) ∧
      ∀ id iri, (r.import entries).lookup id = some iri ↔ (id, iri) ∈ entries ∨ r.lookup id = some iri := by
  induction entries generalizing r with
  | nil => exact ⟨h, hext, fun id iri => by simp [«import»]⟩
  | cons e entries ih =>
    have he : s.lookup e.1 = some e.2 := hentries e List.mem_cons_self
    have hstep : (r.registerId e.1 e.2).Valid ∧ Extends s (r.registerId e.1 e.2) := hs.registerId_of_extends h hext he
    obtain ⟨hvalid, hext', hlook⟩ := ih (fun e' he' => hentries e' (List.mem_cons_of_mem e he')) hstep.1 hstep.2
    refine ⟨hvalid, hext', ?_⟩
    intro id iri
    refine (hlook id iri).trans ?_
    rw [lookup_registerId, List.mem_cons]
    by_cases hid : id = e.1
    · rw [if_pos hid]
      constructor
      · rintro (hmem | heq)
        · exact .inl (.inr hmem)
        · exact .inl (.inl (Prod.ext hid (some.inj heq).symm))
      · rintro ((heq | hmem) | hr)
        · exact .inr (congrArg (fun p => some p.2) heq.symm)
        · exact .inl hmem
        · have hs' : s.lookup e.1 = some iri := hext e.1 iri (hid ▸ hr)
          exact .inr (he.symm.trans hs')
    · rw [if_neg hid]
      constructor
      · rintro (hmem | hr)
        · exact .inl (.inr hmem)
        · exact .inr hr
      · rintro ((heq | hmem) | hr)
        · exact absurd (congrArg Prod.fst heq) hid
        · exact .inl hmem
        · exact .inr hr

end IriRegistry

end WildAgentOs.Engine
