import WildAgentOs.Engine.VacuumRace

/-!
# Runs of the metadata index

The public operations of the metadata index, in any order.  An index represents its payloads if every id is posted
where its payload puts it, and nowhere if it has none.

* `MetadataOp`, `stateAt`: the runs;
* `Represents`, `represents_vacuum_iff`: `vacuum` clears neither graphs nor contexts;
* `represents_iff_clears`.
-/

namespace WildAgentOs.Engine

open Json List

namespace JsonLdMetadataIndex

variable {fa : FloatArith} {m : JsonLdMetadataIndex} {id : UInt32}

/-- **Every id is posted under exactly the keys of its payload.** -/
def Represents (fa : FloatArith) (m : JsonLdMetadataIndex) : Prop := ∀ id, Reflects fa m id (m.getPayload id)

theorem represents_new : Represents fa new := fun id => reflects_new id

theorem Represents.index (h : Represents fa m) (id : UInt32) (jsonld : Value) :
    Represents fa (m.index fa id jsonld) := by
  intro j
  rw [getPayload_index]
  by_cases hj : j = id
  · rw [if_pos hj, hj]
    exact reflects_index m id jsonld
  · rw [if_neg hj]
    exact (h j).index_of_ne hj jsonld

theorem Represents.remove (h : Represents fa m) (id : UInt32) : Represents fa (m.remove id) := by
  intro j
  rw [getPayload_remove]
  by_cases hj : j = id
  · rw [if_pos hj, hj]
    exact reflects_remove m id
  · rw [if_neg hj]
    exact (h j).remove_of_ne hj

theorem Represents.undelete (h : Represents fa m) (id : UInt32) : Represents fa (m.undelete id) :=
  fun j => (h j).with_deleted _

/-! ### Vacuum -/

/-- The first loop clears the postings of the ids, but for graphs and contexts. -/
theorem foldl_vacuumIndexes (ids : List UInt32) (m : JsonLdMetadataIndex) :
    (∀ t, id ∈ (ids.foldl vacuumIndexes m).inverted.ids t ↔ id ∉ ids ∧ id ∈ m.inverted.ids t) ∧
      (∀ t, id ∈ (ids.foldl vacuumIndexes m).typeIndex.ids t ↔ id ∉ ids ∧ id ∈ m.typeIndex.ids t) ∧
      (∀ key b, id ∈ (ids.foldl vacuumIndexes m).bucketIds key b ↔ id ∉ ids ∧ id ∈ m.bucketIds key b) ∧
      (ids.foldl vacuumIndexes m).graphIndex = m.graphIndex ∧
      (ids.foldl vacuumIndexes m).contextIndex = m.contextIndex := by
  induction ids generalizing m with
  | nil => simp
  | cons first ids ih =>
    obtain ⟨hinverted, htype, hnumeric, hgraph, hcontext⟩ := ih (m.vacuumIndexes first)
    rw [foldl_cons]
    refine ⟨?_, ?_, ?_, hgraph, hcontext⟩
    · intro t
      rw [hinverted, vacuumIndexes, Postings.mem_ids_dropId, mem_cons]
      tauto
    · intro t
      rw [htype, vacuumIndexes, Postings.mem_ids_dropId, mem_cons]
      tauto
    · intro key b
      rw [hnumeric, vacuumIndexes, bucketIds, mem_dropBuckets, mem_cons, bucketIds]
      tauto

/-- The second loop touches no posting. -/
theorem foldl_vacuumForward (ids : List UInt32) (m : JsonLdMetadataIndex) :
    (ids.foldl vacuumForward m) = { m with forward := (ids.foldl vacuumForward m).forward } := by
  induction ids generalizing m with
  | nil => rfl
  | cons first ids ih => exact ih (m.vacuumForward first)

/-- What `vacuum` does to the postings. -/
theorem mem_vacuum (m : JsonLdMetadataIndex) :
    (∀ t, id ∈ m.vacuum.1.inverted.ids t ↔ id ∉ m.deleted ∧ id ∈ m.inverted.ids t) ∧
      (∀ t, id ∈ m.vacuum.1.typeIndex.ids t ↔ id ∉ m.deleted ∧ id ∈ m.typeIndex.ids t) ∧
      (∀ key b, id ∈ m.vacuum.1.bucketIds key b ↔ id ∉ m.deleted ∧ id ∈ m.bucketIds key b) ∧
      m.vacuum.1.graphIndex = m.graphIndex ∧ m.vacuum.1.contextIndex = m.contextIndex := by
  have hcleared := @foldl_vacuumIndexes id (m.deleted.sort (· ≤ ·)) m
  have hvacuum : m.vacuum.1 =
      { (m.deleted.sort (· ≤ ·)).foldl vacuumIndexes m with
        forward := ((m.deleted.sort (· ≤ ·)).foldl vacuumForward
          ((m.deleted.sort (· ≤ ·)).foldl vacuumIndexes m)).forward
        deleted := ∅ } := by
    unfold vacuum clearDeleted
    simp only
    rw [foldl_vacuumForward]
  simp only [Finset.mem_sort] at hcleared
  rw [hvacuum]
  exact hcleared

variable {payload : Option Value}

/-- An id that is not deleted is left as it is. -/
theorem Reflects.vacuum_of_live (h : Reflects fa m id payload) (hlive : id ∉ m.deleted) :
    Reflects fa m.vacuum.1 id payload := by
  obtain ⟨hinverted, htype, hnumeric, hgraph, hcontext⟩ := @mem_vacuum id m
  constructor
  · have hpayload := getPayload_vacuum m id
    rw [if_neg hlive] at hpayload
    exact hpayload.trans h.forward
  · simpa [hinverted, hlive] using h.inverted
  · simpa [htype, hlive] using h.typeIndex
  · simpa [hgraph] using h.graphIndex
  · simpa [hcontext] using h.contextIndex
  · simpa [hnumeric, hlive] using h.numeric

/-- **A deleted id keeps the graphs and contexts of its payload.** -/
theorem Reflects.vacuum_of_deleted (h : Reflects fa m id payload) (hdeleted : id ∈ m.deleted) :
    Reflects fa m.vacuum.1 id none ↔ ∀ p ∈ payload, graphNames p = [] ∧ contextNames p = [] := by
  obtain ⟨hinverted, htype, hnumeric, hgraph, hcontext⟩ := @mem_vacuum id m
  constructor
  · intro hreflects p hp
    have hnoGraph : ∀ t, id ∉ m.graphIndex.ids t := fun t => by
      rw [← hgraph, hreflects.graphIndex]
      simp
    have hnoContext : ∀ t, id ∉ m.contextIndex.ids t := fun t => by
      rw [← hcontext, hreflects.contextIndex]
      simp
    refine ⟨eq_nil_iff_forall_not_mem.2 fun t ht => ?_, eq_nil_iff_forall_not_mem.2 fun t ht => ?_⟩
    · exact hnoGraph t ((h.graphIndex t).2 ⟨p, hp, ht⟩)
    · exact hnoContext t ((h.contextIndex t).2 ⟨p, hp, ht⟩)
  · intro hclear
    constructor
    · have hpayload := getPayload_vacuum m id
      rwa [if_pos hdeleted] at hpayload
    · simp [hinverted, hdeleted]
    · simp [htype, hdeleted]
    · intro t
      rw [hgraph, h.graphIndex]
      refine iff_of_false ?_ (by simp)
      rintro ⟨p, hp, ht⟩
      rw [(hclear p hp).1] at ht
      exact absurd ht not_mem_nil
    · intro t
      rw [hcontext, h.contextIndex]
      refine iff_of_false ?_ (by simp)
      rintro ⟨p, hp, ht⟩
      rw [(hclear p hp).2] at ht
      exact absurd ht not_mem_nil
    · simp [hnumeric, hdeleted]

/-- No deleted id has a payload that names a graph or a context. -/
def ClearsAll (m : JsonLdMetadataIndex) : Prop :=
  ∀ id ∈ m.deleted, ∀ p ∈ m.getPayload id, graphNames p = [] ∧ contextNames p = []

/-- **When `vacuum` leaves an index that represents its payloads.** -/
theorem represents_vacuum_iff (h : Represents fa m) : Represents fa m.vacuum.1 ↔ m.ClearsAll := by
  refine forall_congr' fun id => ?_
  rw [getPayload_vacuum]
  by_cases hdeleted : id ∈ m.deleted
  · rw [if_pos hdeleted, (h id).vacuum_of_deleted hdeleted]
    exact ⟨fun hclear _ => hclear, fun hclear => hclear hdeleted⟩
  · rw [if_neg hdeleted]
    exact iff_of_true ((h id).vacuum_of_live hdeleted) fun hmem => absurd hmem hdeleted

end JsonLdMetadataIndex

/-! ### Runs -/

open JsonLdMetadataIndex

inductive MetadataOp
  | index (id : UInt32) (jsonld : Value)
  | remove (id : UInt32)
  | undelete (id : UInt32)
  | vacuum

namespace MetadataOp

def apply (fa : FloatArith) (m : JsonLdMetadataIndex) : MetadataOp → JsonLdMetadataIndex
  | index id jsonld => m.index fa id jsonld
  | remove id => m.remove id
  | undelete id => m.undelete id
  | vacuum => m.vacuum.1

/-- A `vacuum` that clears all postings of the ids it drops. -/
def Clears (m : JsonLdMetadataIndex) : MetadataOp → Prop
  | vacuum => m.ClearsAll
  | _ => True

variable {fa : FloatArith} {m : JsonLdMetadataIndex}

/-- **One operation.** -/
theorem represents_apply_iff (h : Represents fa m) (op : MetadataOp) : Represents fa (op.apply fa m) ↔ op.Clears m := by
  cases op with
  | index id jsonld => exact iff_of_true (h.index id jsonld) trivial
  | remove id => exact iff_of_true (h.remove id) trivial
  | undelete id => exact iff_of_true (h.undelete id) trivial
  | vacuum => exact represents_vacuum_iff h

end MetadataOp

/-- The index after the first `n` operations. -/
def stateAt (fa : FloatArith) (ops : List MetadataOp) (n : ℕ) : JsonLdMetadataIndex :=
  (ops.take n).foldl (MetadataOp.apply fa) new

theorem stateAt_succ {fa : FloatArith} {ops : List MetadataOp} {n : ℕ} {op : MetadataOp} (h : ops[n]? = some op) :
    stateAt fa ops (n + 1) = op.apply fa (stateAt fa ops n) := by
  unfold stateAt
  rw [take_add_one, h, Option.toList_some, foldl_append]
  rfl

/-- **The postings represent the payloads in every state of a run exactly if every `vacuum` of the run meets no deleted
id with a graph or a context.** -/
theorem represents_iff_clears (fa : FloatArith) (ops : List MetadataOp) : (∀ n, Represents fa (stateAt fa ops n)) ↔
      ∀ (n : ℕ) (op : MetadataOp), ops[n]? = some op → op.Clears (stateAt fa ops n) := by
  constructor
  · intro h n op hop
    have hnext := h (n + 1)
    rw [stateAt_succ hop] at hnext
    exact (op.represents_apply_iff (h n)).1 hnext
  · intro h n
    induction n with
    | zero => exact represents_new
    | succ n ih =>
      cases hop : ops[n]? with
      | none =>
        have hsame : stateAt fa ops (n + 1) = stateAt fa ops n := by
          unfold stateAt
          rw [take_add_one, hop, Option.toList_none, append_nil]
        rw [hsame]
        exact ih
      | some op =>
        rw [stateAt_succ hop]
        exact (op.represents_apply_iff ih).2 (h n op hop)

/-- A payload is put back under a deleted id, which is then vacuumed. -/
def reindexed : List MetadataOp :=
  [.index 1 (.object [("named_graph", .string "g")]), .remove 1, .index 1 (.object [("named_graph", .string "g")]),
    .vacuum]

theorem not_represents_reindexed :
    ¬∀ (fa : FloatArith) (ops : List MetadataOp), Represents fa (ops.foldl (MetadataOp.apply fa) new) := by
  intro h
  have hbefore := h ⟨fun _ => none, fun _ => 0⟩ (reindexed.take 3)
  have hclears := (represents_vacuum_iff hbefore).1 (h _ reindexed)
  have hnone := (hclears 1 (by decide) _ rfl).1
  exact absurd hnone (by decide)

end WildAgentOs.Engine
