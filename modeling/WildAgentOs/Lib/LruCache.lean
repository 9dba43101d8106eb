import Mathlib.Data.List.Basic
import Mathlib.Tactic

/-!
# A cache of the values that were used last

The entries of a cache in the order of their use, the last one used first.  What does not fit is dropped from the
end; what a cache still holds under a key is what was put there last.
-/

structure LruCache (κ ν : Type*) where
  capacity : ℕ
  entries : List (κ × ν)

namespace LruCache

open List

variable {κ ν : Type*}

def empty (capacity : ℕ) : LruCache κ ν := ⟨capacity, []⟩

def clear (cache : LruCache κ ν) : LruCache κ ν := { cache with entries := [] }

variable [DecidableEq κ]

/-- The value under a key, without a use of it. -/
def peek (cache : LruCache κ ν) (key : κ) : Option ν := cache.entries.lookup key

/-- The cache after a use of a key. -/
def touch (cache : LruCache κ ν) (key : κ) : LruCache κ ν :=
  match cache.peek key with
  | some value => { cache with entries := (key, value) :: cache.entries.filter (·.1 ≠ key) }
  | none => cache

def put (cache : LruCache κ ν) (key : κ) (value : ν) : LruCache κ ν :=
  { cache with entries := ((key, value) :: cache.entries.filter (·.1 ≠ key)).take cache.capacity }

def pop (cache : LruCache κ ν) (key : κ) : LruCache κ ν := { cache with entries := cache.entries.filter (·.1 ≠ key) }

variable {cache : LruCache κ ν} {key other : κ} {value : ν}

theorem lookup_filter_ne (entries : List (κ × ν)) :
    (entries.filter (·.1 ≠ key)).lookup other = if other = key then none else entries.lookup other := by
  induction entries with
  | nil => simp
  | cons entry entries ih =>
    obtain ⟨first, value⟩ := entry
    by_cases hfirst : first = key
    · rw [filter_cons_of_neg (by simpa using hfirst), ih]
      split_ifs with hother
      · rfl
      · rw [lookup_cons, beq_false_of_ne (hfirst ▸ hother)]
    · rw [filter_cons_of_pos (by simpa using hfirst), lookup_cons, lookup_cons, ih]
      by_cases hother : other = key
      · rw [if_pos hother, if_pos hother, beq_false_of_ne (hother ▸ Ne.symm hfirst)]
      · rw [if_neg hother, if_neg hother]

@[simp] theorem peek_pop : (cache.pop key).peek other = if other = key then none else cache.peek other :=
  lookup_filter_ne cache.entries

@[simp] theorem peek_touch : (cache.touch key).peek other = cache.peek other := by
  unfold touch
  cases hvalue : cache.peek key with
  | none => rfl
  | some value =>
    show List.lookup other (_ :: _) = _
    rw [lookup_cons, lookup_filter_ne]
    by_cases hother : other = key
    · rw [hother, beq_self_eq_true, hvalue]
    · rw [beq_false_of_ne hother, if_neg hother]
      rfl

/-- What is there after a value was put: that value, or what was there under another key. -/
theorem peek_put_cases {found : ν} (h : (cache.put key value).peek other = some found) :
    other = key ∧ found = value ∨ other ≠ key ∧ cache.peek other = some found := by
  obtain ⟨before, after, hsplit, hbefore⟩ := lookup_eq_some_iff.1 h
  have hall : ((key, value) :: cache.entries.filter (·.1 ≠ key)).lookup other = some found := by
    obtain ⟨rest, hrest⟩ := take_prefix cache.capacity ((key, value) :: cache.entries.filter (·.1 ≠ key))
    refine lookup_eq_some_iff.2 ⟨before, after ++ rest, ?_, hbefore⟩
    rw [← hrest, show List.take _ _ = _ from hsplit, append_assoc, cons_append]
  rw [lookup_cons, lookup_filter_ne] at hall
  by_cases hother : other = key
  · rw [hother, beq_self_eq_true] at hall
    exact .inl ⟨hother, (Option.some.inj hall).symm⟩
  · rw [beq_false_of_ne hother, if_neg hother] at hall
    exact .inr ⟨hother, hall⟩

end LruCache
