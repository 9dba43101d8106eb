import Mathlib.Data.List.InsertIdx
import Mathlib.Data.List.Nodup
import Mathlib.Logic.Function.Basic

/-!
# Lists with an index of their keys

A list whose members have different keys, and a map from the keys to the positions. A member is appended, replaced at
its position, or taken out; what stands behind it moves up, and only that part of the index is written again.

* `Indexed`: the index agrees with the list;
* `Indexed.append`, `Indexed.set`, `Indexed.eraseIdx`.
-/

namespace WildAgentOs.IndexedList

open List Function

variable {α β κ : Type*}

/-! ### Maps written one entry after the other -/

section

variable {γ : Type*} [DecidableEq κ] {key : β → κ} {value : β → γ}

/-- The entries are written in their order. -/
def updateAll (key : β → κ) (value : β → γ) (entries : List β) (f : κ → γ) : κ → γ :=
  entries.foldl (fun f entry => update f (key entry) (value entry)) f

theorem updateAll_of_notMem {k : κ} (entries : List β) :
    ∀ f, k ∉ entries.map key → updateAll key value entries f k = f k := by
  induction entries with
  | nil => exact fun f _ => rfl
  | cons entry entries ih =>
    intro f h
    rw [map_cons, mem_cons, not_or] at h
    show updateAll key value entries (update f (key entry) (value entry)) k = f k
    rw [ih _ h.2, update_of_ne h.1]

theorem updateAll_of_mem {entry : β} (entries : List β) :
    ∀ f, (entries.map key).Nodup → entry ∈ entries → updateAll key value entries f (key entry) = value entry := by
  induction entries with
  | nil => exact fun f _ h => absurd h not_mem_nil
  | cons first entries ih =>
    intro f hnodup h
    rw [map_cons, nodup_cons] at hnodup
    show updateAll key value entries (update f (key first) (value first)) (key entry) = value entry
    rcases mem_cons.1 h with rfl | h
    · rw [updateAll_of_notMem entries _ hnodup.1, update_self]
    · exact ih _ hnodup.2 h

end

/-! ### The index -/

/-- The keys differ, and the index has their positions. -/
structure Indexed (key : α → κ) (items : List α) (index : κ → Option ℕ) : Prop where
  nodup : (items.map key).Nodup
  index_iff : ∀ k i, index k = some i ↔ (items.map key)[i]? = some k

variable {key : α → κ} {items : List α} {index : κ → Option ℕ} {pos i : ℕ} {k : κ} {item other : α}

namespace Indexed

theorem nil : Indexed key ([] : List α) fun _ => none where
  nodup := nodup_nil
  index_iff := fun _ _ => ⟨fun h => (nomatch h), fun h => (nomatch h)⟩

section

variable (h : Indexed key items index)

include h

theorem getElem?_inj {j : ℕ} (hi : (items.map key)[i]? = some k) (hj : (items.map key)[j]? = some k) : i = j :=
  (List.getElem?_inj (List.getElem?_eq_some_iff.1 hi).1 h.nodup).1 (hi.trans hj.symm)

theorem notMem_of_index (hindex : index k = none) : k ∉ items.map key := by
  intro hmem
  obtain ⟨i, hi⟩ := mem_iff_getElem?.1 hmem
  rw [(h.index_iff k i).2 hi] at hindex
  cases hindex

/-! #### A member is replaced -/

section

variable (hindex : index (key item) = some i)
include hindex

theorem map_set_self : (items.set i item).map key = items.map key := by
  rw [map_set]
  refine ext_getElem? fun j => ?_
  rw [getElem?_set]
  split_ifs with hij hlt
  · subst hij
    exact ((h.index_iff _ _).1 hindex).symm
  · subst hij
    exact (getElem?_eq_none (Nat.le_of_not_lt hlt)).symm
  · rfl

theorem set : Indexed key (items.set i item) index where
  nodup := by
    rw [h.map_set_self hindex]
    exact h.nodup
  index_iff := by
    rw [h.map_set_self hindex]
    exact h.index_iff

theorem mem_set :
    other ∈ items.set i item ↔ other = item ∨ other ∈ items ∧ key other ≠ key item := by
  have hposition := (h.index_iff _ _).1 hindex
  have hlt : i < items.length := by
    simpa using (List.getElem?_eq_some_iff.1 hposition).1
  rw [mem_iff_getElem?]
  constructor
  · rintro ⟨j, hj⟩
    rw [getElem?_set] at hj
    split_ifs at hj with hij
    · exact .inl (Option.some.inj hj).symm
    · refine .inr ⟨mem_of_getElem? hj, fun hkey => hij ?_⟩
      refine h.getElem?_inj hposition ?_
      rw [getElem?_map, hj, ← hkey]
      rfl
  · rintro (rfl | ⟨hmem, hkey⟩)
    · exact ⟨i, by rw [getElem?_set_self hlt]⟩
    · obtain ⟨j, hj⟩ := mem_iff_getElem?.1 hmem
      refine ⟨j, ?_⟩
      rw [getElem?_set_ne, hj]
      rintro rfl
      rw [getElem?_map, hj] at hposition
      exact hkey (Option.some.inj hposition)

end

/-! #### A member is taken out -/

theorem mem_eraseIdx (hindex : index k = some pos) : other ∈ items.eraseIdx pos ↔ other ∈ items ∧ key other ≠ k := by
  have hposition := (h.index_iff _ _).1 hindex
  rw [mem_eraseIdx_iff_getElem?]
  constructor
  · rintro ⟨i, hne, hi⟩
    refine ⟨mem_of_getElem? hi, fun hkey => hne ?_⟩
    refine h.getElem?_inj ?_ hposition
    rw [getElem?_map, hi, ← hkey]
    rfl
  · rintro ⟨hmem, hkey⟩
    obtain ⟨i, hi⟩ := mem_iff_getElem?.1 hmem
    refine ⟨i, ?_, hi⟩
    rintro rfl
    rw [getElem?_map, hi] at hposition
    exact hkey (Option.some.inj hposition)

end

end Indexed

/-! ### The index after a change -/

theorem map_drop_zipIdx : (items.zipIdx.drop pos).map (fun entry => key entry.1) = (items.map key).drop pos := by
  have hfst : items.zipIdx.map (fun entry => key entry.1) = (items.zipIdx.map Prod.fst).map key := map_map.symm
  rw [map_drop, hfst, zipIdx_map_fst]

variable [DecidableEq κ]

/-- The index with the positions from `pos` on written again. -/
def reindex (key : α → κ) (pos : ℕ) (items : List α) (index : κ → Option ℕ) : κ → Option ℕ :=
  updateAll (fun entry => key entry.1) (fun entry => some entry.2) (items.zipIdx.drop pos) index

theorem reindex_of_getElem? (hnodup : (items.map key).Nodup) (hpos : pos ≤ i)
    (h : (items.map key)[i]? = some k) : reindex key pos items index k = some i := by
  rw [getElem?_map, Option.map_eq_some_iff] at h
  obtain ⟨item, hitem, rfl⟩ := h
  have hmem : (item, i) ∈ items.zipIdx.drop pos := by
    rw [mem_iff_getElem?]
    refine ⟨i - pos, ?_⟩
    rw [getElem?_drop, Nat.add_sub_cancel' hpos, getElem?_zipIdx, hitem]
    simp
  have htail : ((items.zipIdx.drop pos).map fun entry => key entry.1).Nodup := by
    rw [map_drop_zipIdx]
    exact hnodup.sublist (drop_sublist pos _)
  exact updateAll_of_mem _ index htail hmem

theorem reindex_of_forall_ne (h : ∀ i, pos ≤ i → (items.map key)[i]? ≠ some k) :
    reindex key pos items index k = index k := by
  refine updateAll_of_notMem _ index fun hmem => ?_
  rw [map_drop_zipIdx, mem_iff_getElem?] at hmem
  obtain ⟨i, hi⟩ := hmem
  rw [getElem?_drop] at hi
  exact h (pos + i) (Nat.le_add_right pos i) hi

namespace Indexed

variable (h : Indexed key items index)

include h

theorem append (hindex : index (key item) = none) :
    Indexed key (items ++ [item]) (update index (key item) (some items.length)) := by
  have hnew := h.notMem_of_index hindex
  refine ⟨?_, fun k i => ?_⟩
  · rw [map_append, map_singleton]
    exact h.nodup.append (nodup_singleton _) (disjoint_singleton.2 hnew)
  · rw [map_append, map_singleton, getElem?_append]
    by_cases hk : k = key item
    · subst hk
      rw [update_self]
      constructor
      · rintro ⟨⟩
        rw [if_neg (by simp), length_map, Nat.sub_self]
        rfl
      · intro hi
        split_ifs at hi with hlt
        · exact absurd (mem_of_getElem? hi) hnew
        · have hlast := (List.getElem?_eq_some_iff.1 hi).1
          rw [length_map] at hlt hlast
          rw [length_singleton] at hlast
          exact congrArg some (by omega)
    · rw [update_of_ne hk, h.index_iff]
      split_ifs with hlt
      · exact Iff.rfl
      · have hnone : (items.map key)[i]? = none := getElem?_eq_none (Nat.le_of_not_lt hlt)
        rw [hnone]
        refine ⟨fun hi => (nomatch hi), fun hi => ?_⟩
        exact absurd (mem_singleton.1 (mem_of_getElem? hi)) hk

/-- Behind the member that is taken out every position is written again. -/
theorem eraseIdx (hindex : index k = some pos) :
    Indexed key (items.eraseIdx pos) (reindex key pos (items.eraseIdx pos) (Function.update index k none)) := by
  have hposition := (h.index_iff _ _).1 hindex
  have hmap : (items.eraseIdx pos).map key = (items.map key).eraseIdx pos := (List.eraseIdx_map key items pos).symm
  have hnodup : ((items.eraseIdx pos).map key).Nodup := by
    rw [hmap]
    exact h.nodup.sublist (List.eraseIdx_sublist _ pos)
  refine ⟨hnodup, fun k' i => ?_⟩
  by_cases htail : ∃ j, pos ≤ j ∧ ((items.eraseIdx pos).map key)[j]? = some k'
  · obtain ⟨j, hj, hkey⟩ := htail
    rw [reindex_of_getElem? hnodup hj hkey]
    constructor
    · rintro ⟨⟩
      exact hkey
    · intro hi
      exact congrArg some ((List.getElem?_inj (List.getElem?_eq_some_iff.1 hkey).1 hnodup).1 (hkey.trans hi.symm))
  · have hfront : ∀ j, pos ≤ j → ((items.eraseIdx pos).map key)[j]? ≠ some k' := fun j hj hkey => htail ⟨j, hj, hkey⟩
    rw [reindex_of_forall_ne hfront]
    rw [hmap] at hfront ⊢
    by_cases hk : k' = k
    · subst hk
      rw [Function.update_self]
      refine ⟨fun hi => (nomatch hi), fun hi => ?_⟩
      obtain ⟨j, hne, hj⟩ := List.mem_eraseIdx_iff_getElem?.1 (List.mem_of_getElem? hi)
      exact absurd (h.getElem?_inj hj hposition) hne
    · rw [Function.update_of_ne hk, h.index_iff]
      by_cases hlt : i < pos
      · rw [List.getElem?_eraseIdx_of_lt hlt]
      · refine ⟨fun hi => ?_, fun hi => absurd hi (hfront i (Nat.le_of_not_lt hlt))⟩
        have hne : i ≠ pos := by
          rintro rfl
          exact hk (Option.some.inj (hi.symm.trans hposition))
        have hmoved : ((items.map key).eraseIdx pos)[i - 1]? = some k' := by
          rw [List.getElem?_eraseIdx_of_ge (by omega), Nat.sub_add_cancel (by omega)]
          exact hi
        exact absurd hmoved (hfront (i - 1) (by omega))

end Indexed

end WildAgentOs.IndexedList
