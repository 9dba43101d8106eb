import WildAgentOs.Engine.HyperVector
import WildAgentOs.Engine.Wal
import WildAgentOs.Lib.Result

/-!
# Vector bytes and the vector store

`EmbeddingVector::as_bytes` and `from_bytes` of `hyper_vector.rs`, and the slots of
`storage.rs` that hold such bytes by id.

* `fromBytes_asBytes`;
* `VectorStore.set`, `get`, `remove` and what each does to every slot.
-/

namespace WildAgentOs.Engine

open LittleEndian List

/-! ### The bytes of a vector -/

/-- `metric as u32`. -/
def MetricKind.tag : MetricKind → ℕ
  | cosine => 0
  | poincare => 1
  | lorentz => 2
  | euclidean => 3

def MetricKind.ofTag : ℕ → Option MetricKind
  | 0 => some cosine
  | 1 => some poincare
  | 2 => some lorentz
  | 3 => some euclidean
  | _ => none

@[simp] theorem MetricKind.ofTag_tag (kind : MetricKind) : ofTag kind.tag = some kind := by
  cases kind <;> rfl

def f64Bytes (x : F64) : Bytes := leBytes 8 x.bits.toNat

def ofF64Bytes (bs : Bytes) : F64 := ⟨UInt64.ofNat (ofLe bs)⟩

@[simp] theorem length_f64Bytes (x : F64) : (f64Bytes x).length = 8 := length_leBytes 8 _

@[simp] theorem ofF64Bytes_f64Bytes (x : F64) : ofF64Bytes (f64Bytes x) = x := by
  have hlt : x.bits.toNat % 256 ^ 8 = x.bits.toNat := Nat.mod_eq_of_lt x.bits.toNat_lt
  unfold ofF64Bytes f64Bytes
  rw [ofLe_leBytes, hlt]
  simp

namespace EmbeddingVector

/-- `new_unchecked`.  For the two ball models the float arithmetic of `alpha` is a parameter. -/
def newUnchecked (ballAlpha : List F64 → F64) (coords : List F64) (metric : MetricKind) : EmbeddingVector :=
  match metric with
  | .poincare | .lorentz => ⟨coords, metric, ballAlpha coords⟩
  | _ => ⟨coords, metric, ⟨0⟩⟩

def asBytes (v : EmbeddingVector) : Bytes := leBytes 4 v.metric.tag ++ f64Bytes v.alpha ++ v.coords.flatMap f64Bytes

def elementSize (dim : ℕ) : ℕ := dim * 8 + 12

/-- The coordinates of `from_bytes`, after the twelve bytes of the head. -/
def coordsFrom : ℕ → Bytes → Except EngineError (List F64)
  | 0, _ => .ok []
  | dim + 1, bs =>
    match readExact 8 bs with
    | none => .error (.invalidVector "Truncated vector data")
    | some (c, bs) => do
      let coords ← coordsFrom dim bs
      return ofF64Bytes c :: coords

def fromBytes (bs : Bytes) (dim : ℕ) : Except EngineError EmbeddingVector :=
  if bs.length < 12 then .error (.invalidVector "Too short")
  else
    let metricInt := ofLe (bs.take 4)
    match MetricKind.ofTag metricInt with
    | none => .error (.invalidVector s!"Unknown metric kind: {metricInt}")
    | some metric => do
      let coords ← coordsFrom dim (bs.drop 12)
      return ⟨coords, metric, ofF64Bytes ((bs.drop 4).take 8)⟩

theorem length_flatMap_f64Bytes (coords : List F64) : (coords.flatMap f64Bytes).length = coords.length * 8 := by
  induction coords with
  | nil => rfl
  | cons c coords ih =>
    rw [flatMap_cons, length_append, length_f64Bytes, ih, length_cons]
    omega

@[simp] theorem length_asBytes (v : EmbeddingVector) : v.asBytes.length = elementSize v.coords.length := by
  simp only [asBytes, elementSize, length_append, length_leBytes, length_f64Bytes, length_flatMap_f64Bytes]
  omega

theorem coordsFrom_flatMap (coords : List F64) : coordsFrom coords.length (coords.flatMap f64Bytes) = .ok coords := by
  induction coords with
  | nil => rfl
  | cons c coords ih =>
    rw [length_cons, flatMap_cons, coordsFrom, readExact_append (length_f64Bytes c)]
    show (coordsFrom coords.length (coords.flatMap f64Bytes)).bind _ = _
    rw [ih, ofF64Bytes_f64Bytes]
    rfl

/-- **The bytes of a vector read back as the vector.** -/
theorem fromBytes_asBytes (v : EmbeddingVector) : fromBytes v.asBytes v.coords.length = .ok v := by
  have hshort : ¬ v.asBytes.length < 12 := by
    rw [length_asBytes]
    unfold elementSize
    omega
  have htag : ofLe (v.asBytes.take 4) = v.metric.tag := by
    have htake : v.asBytes.take 4 = leBytes 4 v.metric.tag := by simp [asBytes]
    rw [htake, ofLe_leBytes]
    cases v.metric <;> rfl
  have halpha : (v.asBytes.drop 4).take 8 = f64Bytes v.alpha := by
    simp [asBytes, append_assoc]
  have hcoords : v.asBytes.drop 12 = v.coords.flatMap f64Bytes := by
    have hhead : (leBytes 4 v.metric.tag ++ f64Bytes v.alpha).length = 12 := by simp
    rw [asBytes, ← hhead, drop_left]
  unfold fromBytes
  rw [if_neg hshort]
  simp only [htag, MetricKind.ofTag_tag, hcoords, halpha, coordsFrom_flatMap, ofF64Bytes_f64Bytes]
  rfl

/-- The dimension recovery reads off the length of the bytes. -/
theorem dim_asBytes (v : EmbeddingVector) : (v.asBytes.length - 12) / 8 = v.coords.length := by
  rw [length_asBytes]
  unfold elementSize
  omega

end EmbeddingVector

/-! ### The store -/

structure VectorStore where
  slots : List (Option Bytes)
  nextId : UInt32
  elementSize : ℕ
  deriving DecidableEq

namespace VectorStore

def new (elementSize : ℕ) : VectorStore := ⟨[], 0, elementSize⟩

def set (s : VectorStore) (id : UInt32) (bytes : Bytes) : Except EngineError VectorStore :=
  if bytes.length ≠ s.elementSize then
    .error (.invalidVector s!"Vector size mismatch: expected {s.elementSize} got {bytes.length}")
  else
    let slots := s.slots ++ List.replicate (id.toNat + 1 - s.slots.length) none
    .ok { s with
      slots := slots.set id.toNat (some bytes)
      nextId := if s.nextId ≤ id then id + 1 else s.nextId }

def get (s : VectorStore) (id : UInt32) : Option Bytes := (s.slots[id.toNat]?).join

def remove (s : VectorStore) (id : UInt32) : VectorStore := { s with slots := s.slots.set id.toNat none }

/-- `active_count`, a `u32`. -/
def activeCount (s : VectorStore) : UInt32 := UInt32.ofNat (s.slots.filter Option.isSome).length

/-- The ids of `iter_active`. -/
def activeIds (s : VectorStore) : List UInt32 := s.slots.zipIdx.filterMap fun p => p.1.map fun _ => UInt32.ofNat p.2

variable {s s' : VectorStore} {id : UInt32} {bytes : Bytes}

@[simp] theorem get_new (size : ℕ) (id : UInt32) : (new size).get id = none := rfl

/-- A vector of the wrong length is the one thing `set` refuses. -/
theorem set_ok (h : bytes.length = s.elementSize) (id : UInt32) : ∃ s', s.set id bytes = .ok s' :=
  ⟨_, if_neg (not_not.2 h)⟩

theorem set_error (h : bytes.length ≠ s.elementSize) (id : UInt32) : s.set id bytes = .error (.invalidVector
      s!"Vector size mismatch: expected {s.elementSize} got {bytes.length}") := if_pos h

theorem length_of_set (h : s.set id bytes = .ok s') : bytes.length = s.elementSize := by
  by_contra hne
  rw [set_error hne] at h
  cases h

/-- A successful `set`, with its slots. -/
theorem eq_of_set (h : s.set id bytes = .ok s') : s'.elementSize = s.elementSize ∧
      s'.slots = (s.slots ++ List.replicate (id.toNat + 1 - s.slots.length) none).set id.toNat
        (some bytes) := by
  rw [set, if_neg (not_not.2 (length_of_set h))] at h
  cases h
  exact ⟨rfl, rfl⟩

/-- What `set` leaves in every slot. -/
theorem get_set (h : s.set id bytes = .ok s') (j : UInt32) : s'.get j = if j = id then some bytes else s.get j := by
  unfold get
  rw [(eq_of_set h).2]
  by_cases hj : j = id
  · subst hj
    have hlt : j.toNat < (s.slots ++ List.replicate (j.toNat + 1 - s.slots.length) none).length := by
      rw [length_append, length_replicate]
      omega
    simp [getElem?_set_self hlt]
  · have hne : id.toNat ≠ j.toNat := fun h => hj (UInt32.toNat_inj.1 h).symm
    rw [getElem?_set_ne hne, if_neg hj]
    by_cases hlt : j.toNat < s.slots.length
    · rw [getElem?_append_left hlt]
    · rw [getElem?_append_right (not_lt.1 hlt), getElem?_eq_none (not_lt.1 hlt), getElem?_replicate]
      split_ifs <;> rfl

theorem get_remove (s : VectorStore) (id j : UInt32) : (s.remove id).get j = if j = id then none else s.get j := by
  by_cases hj : j = id
  · subst hj
    by_cases hlt : j.toNat < s.slots.length
    · simp [get, remove, hlt]
    · have hnone : (s.slots.set j.toNat none)[j.toNat]? = none := by
        rw [getElem?_eq_none]
        rw [length_set]
        exact not_lt.1 hlt
      simp [get, remove, hnone]
  · have hne : id.toNat ≠ j.toNat := fun h => hj (UInt32.toNat_inj.1 h).symm
    simp only [get, remove, getElem?_set_ne hne, if_neg hj]

end VectorStore

end WildAgentOs.Engine
