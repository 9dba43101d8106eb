import Mathlib.Data.List.MinMax
import Mathlib.Tactic

/-!
# Tables with quotas

A table of entries, every one with a key, a group and a number of its own.  Eviction takes the entry with the
smallest number: out of a group while the group holds more than its quota, and out of the whole table while that
holds more than its capacity.

* `Fields`, `Finder`: what is read off an entry, and which of the groups over their quota is found first;
* `evictOverQuota`, `evictOverCapacity`;
* `count_evictOverQuota_le`, `length_evictOverCapacity_le`: what they end with;
* `mem_evictOverQuota_of_count_le`, `mem_evictOverQuota_of_newest`, `mem_evictOverCapacity_of_newest`.
-/

namespace Eviction

open List

structure Fields (α κ τ : Type*) where
  key : α → κ
  group : α → τ
  seq : α → ℕ

/-- Which group a search through a hash map comes to first. -/
structure Finder (α τ : Type*) where
  find : List α → List τ → Option τ
  mem_of_find : ∀ entries groups group, find entries groups = some group → group ∈ groups
  find_ne_none : ∀ entries groups, groups ≠ [] → find entries groups ≠ none

/-- The search that takes the first group of the list. -/
def Finder.first {α τ : Type*} : Finder α τ where
  find _ groups := groups.head?
  mem_of_find _ _ _ h := mem_of_mem_head? h
  find_ne_none _ _ h hnone := h (head?_eq_none_iff.1 hnone)

variable {α κ τ : Type*} (fields : Fields α κ τ)

/-! ### Entries by their keys -/

section Keys

variable [DecidableEq κ]

/-- The entries without a key. -/
def remove (key : κ) (entries : List α) : List α := entries.filter fun entry => decide (fields.key entry ≠ key)

variable {fields} {entries : List α} {entry oldest : α}

theorem mem_remove {key : κ} : entry ∈ remove fields key entries ↔ entry ∈ entries ∧ fields.key entry ≠ key := by
  rw [remove, mem_filter, decide_eq_true_eq]

theorem remove_sublist (key : κ) : (remove fields key entries).Sublist entries := filter_sublist

theorem nodup_remove (key : κ) (h : (entries.map fields.key).Nodup) :
    ((remove fields key entries).map fields.key).Nodup :=
  h.sublist ((remove_sublist key).map fields.key)

/-- An entry that is not the one that is taken away stays. -/
theorem mem_remove_key (h : (entries.map fields.key).Nodup) (hentry : entry ∈ entries) (holdest : oldest ∈ entries)
    (hne : entry ≠ oldest) : entry ∈ remove fields (fields.key oldest) entries :=
  mem_remove.2 ⟨hentry, fun hkey => hne (inj_on_of_nodup_map h hentry holdest hkey)⟩

theorem length_remove_lt (holdest : oldest ∈ entries) :
    (remove fields (fields.key oldest) entries).length < entries.length := by
  refine lt_of_le_of_ne (remove_sublist _).length_le fun heq => ?_
  have hall := length_filter_eq_length_iff.1 heq oldest holdest
  simp at hall

end Keys

/-! ### Entries by their groups -/

section Groups

variable [DecidableEq τ]

/-- The entries of a group. -/
def ofGroup (group : τ) (entries : List α) : List α := entries.filter fun entry => decide (fields.group entry = group)

/-- How many entries a group has. -/
def count (group : τ) (entries : List α) : ℕ := (ofGroup fields group entries).length

/-- The groups that hold more than the quota. -/
def overQuota (quota : ℕ) (entries : List α) : List τ :=
  (entries.map fields.group).filter fun group => decide (quota < count fields group entries)

variable {fields} {entries : List α} {entry : α} {group : τ} {quota : ℕ}

theorem mem_ofGroup : entry ∈ ofGroup fields group entries ↔ entry ∈ entries ∧ fields.group entry = group := by
  rw [ofGroup, mem_filter, decide_eq_true_eq]

theorem count_le_of_sublist {fewer : List α} (h : fewer.Sublist entries) :
    count fields group fewer ≤ count fields group entries := (h.filter _).length_le

theorem mem_overQuota : group ∈ overQuota fields quota entries ↔ quota < count fields group entries := by
  rw [overQuota, mem_filter, decide_eq_true_eq, and_iff_right_iff_imp]
  intro h
  obtain ⟨entry, hentry⟩ := exists_mem_of_length_pos (Nat.zero_lt_of_lt h)
  obtain ⟨hmem, hgroup⟩ := mem_ofGroup.1 hentry
  exact mem_map.2 ⟨entry, hmem, hgroup⟩

end Groups

/-- An entry that is the oldest and the newest is the only one. -/
theorem length_le_one_of_newest {fields : Fields α κ τ} {entries : List α} {entry : α} (hnodup : entries.Nodup)
    (hnewest : ∀ other ∈ entries, other ≠ entry → fields.seq other < fields.seq entry)
    (holdest : ∀ other ∈ entries, fields.seq entry ≤ fields.seq other) : entries.length ≤ 1 := by
  have hall : ∀ other ∈ entries, other = entry := fun other hother => by
    by_contra hne
    exact absurd (holdest other hother) (not_le.2 (hnewest other hother hne))
  rw [eq_replicate_of_mem hall] at hnodup
  exact nodup_replicate.1 hnodup

/-! ### The loops -/

section Loops

variable [DecidableEq κ] [DecidableEq τ]

/-- The loop over the groups; every turn takes one entry away. -/
def evictOverQuota (finder : Finder α τ) (quota : ℕ) : ℕ → List α → List α
  | 0, entries => entries
  | turns + 1, entries =>
    match finder.find entries (overQuota fields quota entries) with
    | none => entries
    | some group =>
      match (ofGroup fields group entries).argmin fields.seq with
      | none => entries
      | some oldest => evictOverQuota finder quota turns (remove fields (fields.key oldest) entries)

variable {quota turns : ℕ} {entries : List α} {entry : α}

/-- **What a turn of the loop can do**: it ends with no group over its quota, or the oldest entry of such a group is
taken away. -/
theorem evictOverQuota_succ (finder : Finder α τ) (quota turns : ℕ) (entries : List α) :
    (evictOverQuota fields finder quota (turns + 1) entries = entries ∧ ∀ group, count fields group entries ≤ quota) ∨
      ∃ oldest ∈ entries, quota < count fields (fields.group oldest) entries ∧
        (∀ entry ∈ ofGroup fields (fields.group oldest) entries, fields.seq oldest ≤ fields.seq entry) ∧
        evictOverQuota fields finder quota (turns + 1) entries =
          evictOverQuota fields finder quota turns (remove fields (fields.key oldest) entries) := by
  rw [evictOverQuota]
  cases hfind : finder.find entries (overQuota fields quota entries) with
  | none =>
    refine .inl ⟨rfl, fun group => ?_⟩
    by_contra hover
    refine finder.find_ne_none entries (overQuota fields quota entries) (fun hnil => ?_) hfind
    exact absurd (hnil ▸ mem_overQuota.2 (not_le.1 hover)) not_mem_nil
  | some group =>
    have hover : quota < count fields group entries := mem_overQuota.1 (finder.mem_of_find _ _ _ hfind)
    simp only
    cases hargmin : (ofGroup fields group entries).argmin fields.seq with
    | none =>
      have hnil : ofGroup fields group entries = [] := argmin_eq_none.1 hargmin
      rw [count, hnil] at hover
      exact absurd hover (Nat.not_lt_zero quota)
    | some oldest =>
      obtain ⟨hmem, rfl⟩ := mem_ofGroup.1 (argmin_mem hargmin)
      exact .inr ⟨oldest, hmem, hover, fun entry hentry => le_of_mem_argmin hentry hargmin, rfl⟩

variable {fields} {finder : Finder α τ}

theorem evictOverQuota_sublist : (evictOverQuota fields finder quota turns entries).Sublist entries := by
  induction turns generalizing entries with
  | zero => exact Sublist.refl entries
  | succ turns ih =>
    rcases evictOverQuota_succ fields finder quota turns entries with ⟨heq, -⟩ | ⟨oldest, -, -, -, heq⟩
    · rw [heq]
    · exact heq ▸ ih.trans (remove_sublist _)

/-- Enough turns bring every group within its quota. -/
theorem count_evictOverQuota_le (h : entries.length ≤ turns) (group : τ) :
    count fields group (evictOverQuota fields finder quota turns entries) ≤ quota := by
  induction turns generalizing entries with
  | zero =>
    rw [length_eq_zero_iff.1 (Nat.le_zero.1 h)]
    exact Nat.zero_le quota
  | succ turns ih =>
    rcases evictOverQuota_succ fields finder quota turns entries with ⟨heq, hquota⟩ | ⟨oldest, hmem, -, -, heq⟩
    · rw [heq]
      exact hquota group
    · exact heq ▸ ih (Nat.le_of_lt_succ ((length_remove_lt hmem).trans_le h))

/-- A group within its quota loses nothing. -/
theorem mem_evictOverQuota_of_count_le (hkeys : (entries.map fields.key).Nodup) (hentry : entry ∈ entries)
    (hcount : count fields (fields.group entry) entries ≤ quota) :
    entry ∈ evictOverQuota fields finder quota turns entries := by
  induction turns generalizing entries with
  | zero => exact hentry
  | succ turns ih =>
    rcases evictOverQuota_succ fields finder quota turns entries with ⟨heq, -⟩ | ⟨oldest, hmem, hover, -, heq⟩
    · rw [heq]
      exact hentry
    · rw [heq]
      refine ih (nodup_remove _ hkeys) (mem_remove_key hkeys hentry hmem ?_)
        ((count_le_of_sublist (remove_sublist _)).trans hcount)
      rintro rfl
      exact absurd hcount (not_le.2 hover)

/-- The newest entry stays, as a group over its quota has an older one. -/
theorem mem_evictOverQuota_of_newest (hquota : 0 < quota) (hkeys : (entries.map fields.key).Nodup)
    (hentry : entry ∈ entries) (hnewest : ∀ other ∈ entries, other ≠ entry → fields.seq other < fields.seq entry) :
    entry ∈ evictOverQuota fields finder quota turns entries := by
  induction turns generalizing entries with
  | zero => exact hentry
  | succ turns ih =>
    rcases evictOverQuota_succ fields finder quota turns entries with ⟨heq, -⟩ | ⟨oldest, hmem, hover, hleast, heq⟩
    · rw [heq]
      exact hentry
    · rw [heq]
      refine ih (nodup_remove _ hkeys) (mem_remove_key hkeys hentry hmem ?_) fun other hother =>
        hnewest other (mem_remove.1 hother).1
      rintro rfl
      have hgroup : count fields (fields.group entry) entries ≤ 1 :=
        length_le_one_of_newest (hkeys.of_map.sublist filter_sublist)
          (fun other hother => hnewest other (mem_ofGroup.1 hother).1) hleast
      exact absurd (hover.trans_le hgroup) (not_lt.2 hquota)

end Loops

section Capacity

variable [DecidableEq κ]

/-- The loop over the whole table. -/
def evictOverCapacity (capacity : ℕ) : ℕ → List α → List α
  | 0, entries => entries
  | turns + 1, entries =>
    if capacity < entries.length then
      match entries.argmin fields.seq with
      | none => entries
      | some oldest => evictOverCapacity capacity turns (remove fields (fields.key oldest) entries)
    else entries

variable {capacity turns : ℕ} {entries : List α} {entry : α}

/-- What a turn of the loop can do: it ends within the capacity, or the oldest entry is taken away. -/
theorem evictOverCapacity_succ (capacity turns : ℕ) (entries : List α) :
    (evictOverCapacity fields capacity (turns + 1) entries = entries ∧ entries.length ≤ capacity) ∨
      ∃ oldest ∈ entries, capacity < entries.length ∧ (∀ entry ∈ entries, fields.seq oldest ≤ fields.seq entry) ∧
        evictOverCapacity fields capacity (turns + 1) entries =
          evictOverCapacity fields capacity turns (remove fields (fields.key oldest) entries) := by
  rw [evictOverCapacity]
  split_ifs with hover
  · cases hargmin : entries.argmin fields.seq with
    | none =>
      rw [argmin_eq_none.1 hargmin] at hover
      exact absurd hover (Nat.not_lt_zero capacity)
    | some oldest =>
      exact .inr ⟨oldest, argmin_mem hargmin, hover, fun entry hentry => le_of_mem_argmin hentry hargmin, rfl⟩
  · exact .inl ⟨rfl, not_lt.1 hover⟩

variable {fields}

theorem evictOverCapacity_sublist : (evictOverCapacity fields capacity turns entries).Sublist entries := by
  induction turns generalizing entries with
  | zero => exact Sublist.refl entries
  | succ turns ih =>
    rcases evictOverCapacity_succ fields capacity turns entries with ⟨heq, -⟩ | ⟨oldest, -, -, -, heq⟩
    · rw [heq]
    · exact heq ▸ ih.trans (remove_sublist _)

/-- Enough turns bring the table within its capacity. -/
theorem length_evictOverCapacity_le (h : entries.length ≤ turns) :
    (evictOverCapacity fields capacity turns entries).length ≤ capacity := by
  induction turns generalizing entries with
  | zero =>
    rw [length_eq_zero_iff.1 (Nat.le_zero.1 h)]
    exact Nat.zero_le capacity
  | succ turns ih =>
    rcases evictOverCapacity_succ fields capacity turns entries with ⟨heq, hlength⟩ | ⟨oldest, hmem, -, -, heq⟩
    · rw [heq]
      exact hlength
    · exact heq ▸ ih (Nat.le_of_lt_succ ((length_remove_lt hmem).trans_le h))

/-- A table within its capacity stays as it is. -/
theorem evictOverCapacity_of_length_le (h : entries.length ≤ capacity) :
    evictOverCapacity fields capacity turns entries = entries := by
  cases turns with
  | zero => rfl
  | succ turns => rw [evictOverCapacity, if_neg (not_lt.2 h)]

/-- The newest entry stays, as a table over its capacity has an older one. -/
theorem mem_evictOverCapacity_of_newest (hcapacity : 0 < capacity) (hkeys : (entries.map fields.key).Nodup)
    (hentry : entry ∈ entries) (hnewest : ∀ other ∈ entries, other ≠ entry → fields.seq other < fields.seq entry) :
    entry ∈ evictOverCapacity fields capacity turns entries := by
  induction turns generalizing entries with
  | zero => exact hentry
  | succ turns ih =>
    rcases evictOverCapacity_succ fields capacity turns entries with ⟨heq, -⟩ | ⟨oldest, hmem, hover, hleast, heq⟩
    · rw [heq]
      exact hentry
    · rw [heq]
      refine ih (nodup_remove _ hkeys) (mem_remove_key hkeys hentry hmem ?_) fun other hother =>
        hnewest other (mem_remove.1 hother).1
      rintro rfl
      have hlength := length_le_one_of_newest hkeys.of_map hnewest hleast
      exact absurd (hover.trans_le hlength) (not_lt.2 hcapacity)

end Capacity

end Eviction
