import Mathlib.Data.List.AList
import Mathlib.Data.Finset.Basic
import Mathlib.Tactic

/-!
# Posting lists

A finite map from keys to non-empty finite sets of ids, on Mathlib's association lists: the
inverted index of a search engine.  `add` posts an id under a key, `dropId` takes an id out of
every posting and deletes the postings this empties.

* `mem_ids_add`, `mem_ids_addAll`, `mem_ids_dropId`: membership after each operation;
* `mem_union`: the union of the postings whose keys satisfy a test.
-/

namespace AList

open Option

variable {K V W : Type*} [DecidableEq K]

/-- Map the values of a finite map, deleting the keys whose value is mapped to `none`. -/
def filterMapValues (f : V → Option W) (m : AList fun _ : K => V) : AList fun _ : K => W where
  entries := m.entries.filterMap fun s => (f s.2).map (Sigma.mk s.1)
  nodupKeys := by
    have hsub : ∀ l : List (Σ _ : K, V),
        (l.filterMap fun s => (f s.2).map (Sigma.mk (β := fun _ => W) s.1)).keys.Sublist l.keys := by
      intro l
      induction l with
      | nil => exact .slnil
      | cons s l ih =>
        cases hf : f s.2 with
        | none => simpa [List.filterMap_cons, hf] using ih.cons s.1
        | some w => simpa [List.filterMap_cons, hf] using ih.cons_cons s.1
    exact (hsub m.entries).nodup m.nodupKeys

theorem lookup_filterMapValues (f : V → Option W) (m : AList fun _ : K => V) (k : K) :
    (m.filterMapValues f).lookup k = (m.lookup k).bind f := by
  ext w
  rw [← mem_def, mem_lookup_iff, bind_eq_some_iff]
  simp only [filterMapValues, List.mem_filterMap, map_eq_some_iff, Sigma.mk.injEq]
  constructor
  · rintro ⟨⟨k', v⟩, hv, w', hw, rfl, hww⟩
    exact ⟨v, mem_lookup_iff.2 hv, eq_of_heq hww ▸ hw⟩
  · rintro ⟨v, hv, hw⟩
    exact ⟨⟨k, v⟩, mem_lookup_iff.1 hv, w, hw, rfl, HEq.rfl⟩

end AList

/-- Keys with the ids posted under them. -/
abbrev Postings (K I : Type*) := AList fun _ : K => Finset I

namespace Postings

variable {K I : Type*} [DecidableEq K]

/-- The ids under a key; a key without a posting has none. -/
def ids (m : Postings K I) (k : K) : Finset I := (m.lookup k).getD ∅

@[simp] theorem ids_empty (k : K) : (∅ : Postings K I).ids k = ∅ := by simp [ids]

variable [DecidableEq I]

/-- Post an id under a key. -/
def add (m : Postings K I) (k : K) (i : I) : Postings K I := m.insert k (insert i (m.ids k))

/-- Post an id under several keys. -/
def addAll (m : Postings K I) (ks : List K) (i : I) : Postings K I := ks.foldl (fun m k => m.add k i) m

/-- The posting without an id, deleted if it held that id and no other. -/
def dropFrom (i : I) (s : Finset I) : Option (Finset I) :=
  if i ∈ s then if s.erase i = ∅ then none else some (s.erase i) else some s

/-- Take an id out of every posting, deleting the postings this empties. -/
def dropId (m : Postings K I) (i : I) : Postings K I := m.filterMapValues (dropFrom i)

variable {m : Postings K I} {i j : I}

theorem mem_ids_add {k k' : K} : j ∈ (m.add k i).ids k' ↔ (k' = k ∧ j = i) ∨ j ∈ m.ids k' := by
  by_cases h : k' = k
  · subst h
    simp [add, ids]
  · simp [add, ids, AList.lookup_insert_ne h, h]

theorem mem_ids_addAll {ks : List K} {k : K} : j ∈ (m.addAll ks i).ids k ↔ (k ∈ ks ∧ j = i) ∨ j ∈ m.ids k := by
  induction ks generalizing m with
  | nil => simp [addAll]
  | cons k' ks ih =>
    rw [addAll, List.foldl_cons, ← addAll, ih, mem_ids_add, List.mem_cons]
    tauto

theorem mem_ids_dropId {k : K} : j ∈ (m.dropId i).ids k ↔ j ≠ i ∧ j ∈ m.ids k := by
  simp only [ids, dropId, AList.lookup_filterMapValues]
  cases hs : m.lookup k with
  | none => simp
  | some s =>
    simp only [Option.bind_some, Option.getD_some, dropFrom]
    split_ifs with hi he
    · have : s = {i} := by
        rw [← Finset.insert_erase hi, he]
        rfl
      simp [this]
    · simp
    · simp only [Option.getD_some]
      exact ⟨fun hj => ⟨fun h => hi (h ▸ hj), hj⟩, And.right⟩

/-- The union of the postings whose keys satisfy a test. -/
def union (m : Postings K I) (test : K → Bool) : Finset I :=
  (m.entries.filter fun s => test s.1).foldl (fun result s => result ∪ s.2) ∅

omit [DecidableEq K] in
theorem mem_foldl_union {l : List (Σ _ : K, Finset I)} {s : Finset I} {i : I} :
    i ∈ l.foldl (fun result s => result ∪ s.2) s ↔ i ∈ s ∨ ∃ p ∈ l, i ∈ p.2 := by
  induction l generalizing s with
  | nil => simp
  | cons p l ih => simp [ih, or_assoc]

theorem mem_union {test : K → Bool} {i : I} : i ∈ m.union test ↔ ∃ k, test k = true ∧ i ∈ m.ids k := by
  rw [union, mem_foldl_union]
  simp only [Finset.notMem_empty, false_or, List.mem_filter]
  constructor
  · rintro ⟨⟨k, s⟩, ⟨hs, hk⟩, hi⟩
    exact ⟨k, hk, by rwa [ids, AList.mem_lookup_iff.2 hs]⟩
  · rintro ⟨k, hk, hi⟩
    cases hs : m.lookup k with
    | none => simp [ids, hs] at hi
    | some s =>
      rw [ids, hs] at hi
      exact ⟨⟨k, s⟩, ⟨AList.mem_lookup_iff.1 hs, hk⟩, hi⟩

end Postings
