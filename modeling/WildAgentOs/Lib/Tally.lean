import Mathlib.Algebra.BigOperators.Group.List.Basic
import Mathlib.Data.List.AList
import Mathlib.Tactic

/-!
# Sums over association lists

The sum of the sizes of the values of an association list, and what an insertion or an erasure does to it.

* `total`, `sizeAt`, `total_erase_add`, `total_insert_add`.
-/

namespace Tally

open List

variable {α β : Type*} (size : β → ℕ)

/-- The sum of the sizes. -/
def total (l : AList fun _ : α => β) : ℕ := (l.entries.map fun entry => size entry.2).sum

/-- The size of the value of a key, or nothing. -/
def sizeAt [DecidableEq α] (l : AList fun _ : α => β) (k : α) : ℕ := ((l.lookup k).map size).getD 0

variable [DecidableEq α] {size} {l : AList fun _ : α => β} {k : α} {v : β}

theorem sizeAt_of_lookup (h : l.lookup k = some v) : sizeAt size l k = size v := by
  unfold sizeAt
  rw [h]
  rfl

theorem sizeAt_of_lookup_eq_none (h : l.lookup k = none) : sizeAt size l k = 0 := by
  unfold sizeAt
  rw [h]
  rfl

variable (size)

/-- **An erasure takes the size of the key away.** -/
theorem total_erase_add (l : AList fun _ : α => β) (k : α) :
    total size (l.erase k) + sizeAt size l k = total size l := by
  by_cases hkey : k ∈ l
  · obtain ⟨v, before, after, hbefore, hentries, herase⟩ := exists_of_kerase (AList.mem_keys.1 hkey)
    have hlookup : l.lookup k = some v := by
      rw [AList.lookup, hentries, dlookup_append, dlookup_eq_none.2 hbefore, Option.none_or, dlookup_cons_eq]
    have hsum : ((List.kerase k l.entries).map fun entry => size entry.2).sum + size v =
        (l.entries.map fun entry => size entry.2).sum := by
      rw [herase, hentries]
      simp only [map_append, map_cons, sum_append, sum_cons]
      omega
    rw [sizeAt_of_lookup hlookup]
    exact hsum
  · rw [sizeAt_of_lookup_eq_none (AList.lookup_eq_none.2 hkey), add_zero]
    have hentries : (l.erase k).entries = l.entries := kerase_of_notMem_keys (mt AList.mem_keys.2 hkey)
    unfold total
    rw [hentries]

/-- **An insertion replaces the size of the key.** -/
theorem total_insert_add (l : AList fun _ : α => β) (k : α) (v : β) :
    total size (l.insert k v) + sizeAt size l k = total size l + size v := by
  have hentries : (l.insert k v).entries = ⟨k, v⟩ :: (l.erase k).entries := rfl
  have herase := total_erase_add size l k
  have hcons : total size (l.insert k v) = size v + total size (l.erase k) := by
    unfold total
    rw [hentries, map_cons, sum_cons]
  omega

/-- A value of the same size in its place changes nothing. -/
theorem total_insert_of_size_eq {v' : β} (h : l.lookup k = some v) (hsize : size v' = size v) :
    total size (l.insert k v') = total size l := by
  have hinsert := total_insert_add size l k v'
  rw [sizeAt_of_lookup h, hsize] at hinsert
  omega

end Tally
