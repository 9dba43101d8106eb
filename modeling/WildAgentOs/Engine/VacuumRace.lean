import WildAgentOs.Engine.Filter
import WildAgentOs.Engine.HyperspaceEngine

/-!
# Vacuum among other calls

`vacuum` does not take the lock of the engine, so its atomic steps fall between whole calls of
`insert`, `upsert` and `delete`.  A run of `VacuumEvent`s is such an interleaving, with any
number of passes at a time.

* `step`, `runFrom`: the interleavings; `runFrom_vacuum`: a pass that nobody disturbs is `vacuum`;
* `Kept`, `kept_of_cleanRun`.
-/

namespace WildAgentOs.Engine

open Json JsonLdMetadataIndex HyperspaceEngine List Function Option

/-! ### One vacuum step against one id -/

namespace JsonLdMetadataIndex

variable {fa : FloatArith} {m : JsonLdMetadataIndex} {id j : UInt32} {payload : Option Value}

theorem Reflects.vacuumIndexes_of_ne (h : Reflects fa m j payload) (hne : j ≠ id) :
    Reflects fa (m.vacuumIndexes id) j payload := by
  constructor <;>
    simp [vacuumIndexes, Postings.mem_ids_dropId, bucketIds, mem_dropBuckets, hne, h.forward,
      h.inverted, h.typeIndex, h.graphIndex, h.contextIndex, h.numeric_ids]

theorem Reflects.vacuumForward_of_ne (h : Reflects fa m j payload) (hne : j ≠ id) :
    Reflects fa (m.vacuumForward id) j payload where
  forward := by
    rw [← h.forward]
    exact AList.lookup_erase_ne hne
  inverted := h.inverted
  typeIndex := h.typeIndex
  graphIndex := h.graphIndex
  contextIndex := h.contextIndex
  numeric := h.numeric

end JsonLdMetadataIndex

/-! ### Interleavings -/

/-- A running `vacuum`: the ids its two loops have yet to visit. -/
structure VacuumPass where
  toClear : List UInt32
  toDrop : List UInt32
  deriving DecidableEq

/-- The engine, the passes that run, and the payload of the last write of every IRI; `none` for
an IRI never written or deleted since. -/
structure VacuumRun where
  engine : HyperspaceEngine
  passes : List VacuumPass
  lastWrite : String → Option Value

/-- Whole calls, and the steps of the `k`-th running pass. -/
inductive VacuumEvent
  | insert (iri : String) (vector : EmbeddingVector) (jsonld : Value) (io : Io)
  | upsert (iri : String) (vector : EmbeddingVector) (jsonld : Value) (io : Io)
  | delete (iri : String) (io : Io)
  | readDeleted
  | clearIndexes (k : ℕ)
  | dropPayload (k : ℕ)
  | clearDeleted (k : ℕ)

namespace VacuumRun

/-- Before any event. -/
def start (e : HyperspaceEngine) : VacuumRun := ⟨e, [], fun _ => none⟩

def withMetadata (s : VacuumRun) (m : JsonLdMetadataIndex) : VacuumRun :=
  { s with engine := { s.engine with metadata := m } }

/-- The record of a write that has returned. -/
def wrote (s : VacuumRun) (iri : String) (jsonld : Value) : HyperspaceEngine × Except EngineError UInt32 → VacuumRun
  | (engine, .ok _) =>
    { s with engine, lastWrite := update s.lastWrite iri (some jsonld) }
  | (engine, .error _) => { s with engine }

/-- The record of a delete that has returned. -/
def erased (s : VacuumRun) (iri : String) : HyperspaceEngine × Except EngineError Unit → VacuumRun
  | (engine, .ok _) => { s with engine, lastWrite := update s.lastWrite iri none }
  | (engine, .error _) => { s with engine }

section
variable (env : EngineEnv)

/-- One event; `none` where a call panics or a pass has no such step to take. -/
def step (s : VacuumRun) : VacuumEvent → Option VacuumRun
  | .insert iri vector jsonld io =>
    (insert env s.engine iri vector jsonld io).map (s.wrote iri jsonld)
  | .upsert iri vector jsonld io =>
    (upsert env s.engine iri vector jsonld io).map (s.wrote iri jsonld)
  | .delete iri io => some (s.erased iri (delete env s.engine iri io))
  | .readDeleted =>
    let ids := s.engine.metadata.deleted.sort (· ≤ ·)
    some { s with passes := s.passes ++ [⟨ids, ids⟩] }
  | .clearIndexes k =>
    match s.passes[k]? with
    | some ⟨id :: toClear, toDrop⟩ =>
      some { s.withMetadata (s.engine.metadata.vacuumIndexes id) with
        passes := s.passes.set k ⟨toClear, toDrop⟩ }
    | _ => none
  | .dropPayload k =>
    match s.passes[k]? with
    | some ⟨[], id :: toDrop⟩ =>
      some { s.withMetadata (s.engine.metadata.vacuumForward id) with
        passes := s.passes.set k ⟨[], toDrop⟩ }
    | _ => none
  | .clearDeleted k =>
    match s.passes[k]? with
    | some ⟨[], []⟩ =>
      some { s.withMetadata s.engine.metadata.clearDeleted with passes := s.passes.eraseIdx k }
    | _ => none

def runFrom (s : VacuumRun) (events : List VacuumEvent) : Option VacuumRun := events.foldlM (step env) s

/-! ### A pass without interference -/

theorem runFrom_clearIndexes (s : VacuumRun) (toClear toDrop : List UInt32) (hpasses : s.passes = [⟨toClear, toDrop⟩]) :
    runFrom env s (List.replicate toClear.length (.clearIndexes 0)) =
      some { s.withMetadata (toClear.foldl vacuumIndexes s.engine.metadata) with
        passes := [⟨[], toDrop⟩] } := by
  induction toClear generalizing s with
  | nil => exact congrArg some (by rw [← hpasses]; rfl)
  | cons id toClear ih =>
    have hstep : step env s (.clearIndexes 0) =
        some { s.withMetadata (s.engine.metadata.vacuumIndexes id) with
          passes := [⟨toClear, toDrop⟩] } := by
      simp [step, hpasses]
    simp only [length_cons, replicate_succ, runFrom, foldlM_cons, hstep]
    exact ih _ rfl

theorem runFrom_dropPayload (s : VacuumRun) (toDrop : List UInt32) (hpasses : s.passes = [⟨[], toDrop⟩]) :
    runFrom env s (List.replicate toDrop.length (.dropPayload 0)) =
      some { s.withMetadata (toDrop.foldl vacuumForward s.engine.metadata) with
        passes := [⟨[], []⟩] } := by
  induction toDrop generalizing s with
  | nil => exact congrArg some (by rw [← hpasses]; rfl)
  | cons id toDrop ih =>
    have hstep : step env s (.dropPayload 0) =
        some { s.withMetadata (s.engine.metadata.vacuumForward id) with
          passes := [⟨[], toDrop⟩] } := by
      simp [step, hpasses]
    simp only [length_cons, replicate_succ, runFrom, foldlM_cons, hstep]
    exact ih _ rfl

/-- The events of a whole pass over `n` deleted ids. -/
def wholePass (n : ℕ) : List VacuumEvent :=
  .readDeleted :: (List.replicate n (.clearIndexes 0) ++ (List.replicate n (.dropPayload 0) ++ [.clearDeleted 0]))

/-- A write gets an id that no running pass has yet to drop the payload of, and there is an id
left if its IRI is new. -/
def CleanWrite (s : VacuumRun) (iri : String) : Prop :=
  (s.engine.registry.resolve iri = none → s.engine.registry.nextId ≠ 0xFFFFFFFF) ∧
    ∀ p ∈ s.passes, (s.engine.registry.register iri).2 ∉ p.toDrop

def CleanEvent (s : VacuumRun) : VacuumEvent → Prop
  | .insert iri .. | .upsert iri .. => CleanWrite s iri
  | _ => True

/-- Every event of the run is clean in the state it finds. -/
def CleanVacuumRun : VacuumRun → List VacuumEvent → Prop
  | _, [] => True
  | s, event :: events =>
    CleanEvent s event ∧ match step env s event with
      | some s' => CleanVacuumRun s' events
      | none => True

instance (s : VacuumRun) (iri : String) : Decidable (CleanWrite s iri) := inferInstanceAs (Decidable (_ ∧ _))

instance (s : VacuumRun) (event : VacuumEvent) : Decidable (CleanEvent s event) := by
  cases event <;> unfold CleanEvent <;> infer_instance

instance decidableCleanVacuumRun (env : EngineEnv) :
    ∀ (events : List VacuumEvent) (s : VacuumRun), Decidable (CleanVacuumRun env s events)
  | [], _ => isTrue trivial
  | event :: events, s => by
    have := decidableCleanVacuumRun env events
    unfold CleanVacuumRun
    cases step env s event <;> infer_instance

/-- **Every IRI whose last write was an insert or upsert has the payload of that write, and is
found by exactly the filters that accept it.** -/
def Kept (s : VacuumRun) : Prop :=
  ∀ iri payload, s.lastWrite iri = some payload →
    ∃ id, s.engine.registry.resolve iri = some id ∧ s.engine.metadata.getPayload id = some payload ∧
      ∀ f : CompiledFilter, f.RangesOrdered env.fa → (f.Finds env.fa s.engine.metadata id ↔ f.accepts env.fa payload)

/-- What every clean event preserves. -/
structure VacuumInv (s : VacuumRun) : Prop where
  registry : s.engine.registry.Valid
  passes : ∀ p ∈ s.passes, p.toClear ⊆ p.toDrop
  live : ∀ iri payload, s.lastWrite iri = some payload →
    ∃ id, s.engine.registry.resolve iri = some id ∧ Reflects env.fa s.engine.metadata id (some payload) ∧
      id ∉ s.engine.metadata.deleted ∧ ∀ p ∈ s.passes, id ∉ p.toDrop

variable {env} {s s' : VacuumRun}

theorem VacuumInv.kept (h : VacuumInv env s) : Kept env s := by
  intro iri payload hlast
  obtain ⟨id, hres, hrefl, hlive, -⟩ := h.live iri payload hlast
  exact ⟨id, hres, hrefl.forward, fun f hf => CompiledFilter.finds_iff hrefl hlive hf⟩

variable {e : HyperspaceEngine}

theorem vacuumInv_start (h : e.registry.Valid) : VacuumInv env (start e) where
  registry := h
  passes := by simp [start]
  live := by simp [start]

variable {iri : String}

/-- A write that fails registers its IRI and leaves the metadata alone. -/
theorem VacuumInv.stopped (h : VacuumInv env s) (hclean : CleanWrite s iri)
    (wal : EngineWal) : VacuumInv env { s with engine := s.engine.stopped iri wal } where
  registry := h.registry.register hclean.1
  passes := h.passes
  live := by
    intro iri' payload hlast
    obtain ⟨id, hres, hrefl, hlive, hpass⟩ := h.live iri' payload hlast
    exact ⟨id, IriRegistry.resolve_register_of_some hres iri, hrefl, hlive, hpass⟩

/-- A write that succeeds is the last one of its IRI, and touches no other id. -/
theorem VacuumInv.written (h : VacuumInv env s) (hclean : CleanWrite s iri) (jsonld : Value)
    (hregistry : e.registry = (s.engine.registry.register iri).1)
    (hmetadata : e.metadata =
      (s.engine.metadata.index env.fa (s.engine.registry.register iri).2 jsonld).undelete
        (s.engine.registry.register iri).2) :
    VacuumInv env { s with
      engine := e, lastWrite := update s.lastWrite iri (some jsonld) } where
  registry := by
    rw [hregistry]
    exact h.registry.register hclean.1
  passes := h.passes
  live := by
    intro iri' payload hlast
    simp only [hregistry, hmetadata]
    by_cases hiri : iri' = iri
    · subst hiri
      simp only [update_self, some.injEq] at hlast
      subst hlast
      exact ⟨_, IriRegistry.resolve_register_self _ _, (reflects_index _ _ _).with_deleted _,
        Finset.notMem_erase _ _, hclean.2⟩
    · simp only [update_of_ne hiri] at hlast
      obtain ⟨id, hres, hrefl, hlive, hpass⟩ := h.live iri' payload hlast
      have hres' : (s.engine.registry.register iri).1.resolve iri' = some id :=
        IriRegistry.resolve_register_of_some hres iri
      have hne : id ≠ (s.engine.registry.register iri).2 := by
        intro heq
        have hself := IriRegistry.resolve_register_self s.engine.registry iri
        rw [← heq] at hself
        exact hiri ((h.registry.register hclean.1).resolve_injective hres' hself)
      refine ⟨id, hres', (hrefl.index_of_ne hne jsonld).with_deleted _, ?_, hpass⟩
      show id ∉ (s.engine.metadata.index env.fa _ jsonld).deleted.erase _
      rw [deleted_index]
      exact fun hmem => hlive (Finset.mem_of_mem_erase hmem)

theorem VacuumInv.write (h : VacuumInv env s) {op : UInt32 → String → WalOp} (hclean : CleanWrite s iri)
    {vector : EmbeddingVector} {jsonld : Value} {io : Io} {out : HyperspaceEngine × Except EngineError UInt32}
    (hout : write env op s.engine iri vector jsonld io = some out) : VacuumInv env (s.wrote iri jsonld out) := by
  obtain ⟨e', r⟩ := out
  obtain ⟨wal, res, -, ⟨err, -, rfl, rfl⟩ | ⟨err, -, -, rfl, rfl⟩ | hok⟩ := write_cases env hout
  · exact h.stopped hclean wal
  · exact h.stopped hclean wal
  · obtain ⟨store, index, health, -, -, -, rfl, rfl⟩ := hok
    exact h.written hclean jsonld rfl rfl

theorem VacuumInv.delete (h : VacuumInv env s) (iri : String) (io : Io) :
    VacuumInv env (s.erased iri (delete env s.engine iri io)) := by
  cases hout : HyperspaceEngine.delete env s.engine iri io with
  | mk e' r =>
    rcases delete_cases env hout with ⟨-, rfl, rfl⟩ | ⟨id, wal, res, hres, -, herr | hok⟩
    · exact ⟨h.registry, h.passes, h.live⟩
    · obtain ⟨err, -, rfl, rfl⟩ := herr
      exact ⟨h.registry, h.passes, h.live⟩
    · obtain ⟨health, -, rfl, rfl⟩ := hok
      refine ⟨h.registry, h.passes, ?_⟩
      intro iri' payload hlast
      by_cases hiri : iri' = iri
      · subst hiri
        simp [erased] at hlast
      · simp only [erased, update_of_ne hiri] at hlast
        obtain ⟨id', hres', hrefl, hlive, hpass⟩ := h.live iri' payload hlast
        have hne : id' ≠ id := by
          rintro rfl
          exact hiri (h.registry.resolve_injective hres' hres)
        refine ⟨id', hres', hrefl.remove_of_ne hne, ?_, hpass⟩
        show id' ∉ insert id s.engine.metadata.deleted
        rw [Finset.mem_insert]
        exact not_or.2 ⟨hne, hlive⟩

variable {passes : List VacuumPass}

/-- A step of a pass that takes nothing from a live id. -/
theorem VacuumInv.pass_step (h : VacuumInv env s) {m : JsonLdMetadataIndex}
    (hpasses : ∀ p ∈ passes, p.toClear ⊆ p.toDrop)
    (hsub : ∀ p ∈ passes, ∃ p' ∈ s.passes, p.toDrop ⊆ p'.toDrop)
    (hm : ∀ id payload, (∀ p ∈ s.passes, id ∉ p.toDrop) → id ∉ s.engine.metadata.deleted →
      Reflects env.fa s.engine.metadata id (some payload) →
      Reflects env.fa m id (some payload) ∧ id ∉ m.deleted) :
    VacuumInv env { s.withMetadata m with passes } where
  registry := h.registry
  passes := hpasses
  live := by
    intro iri payload hlast
    obtain ⟨id, hres, hrefl, hlive, hpass⟩ := h.live iri payload hlast
    obtain ⟨hrefl', hlive'⟩ := hm id payload hpass hlive hrefl
    refine ⟨id, hres, hrefl', hlive', ?_⟩
    intro p hp hid
    obtain ⟨p', hp', hdrop⟩ := hsub p hp
    exact hpass p' hp' (hdrop hid)

/-- The ids a pass has left only get fewer. -/
theorem toDrop_set {k : ℕ} {p q : VacuumPass} (hk : passes[k]? = some p)
    (hq : q.toDrop ⊆ p.toDrop) : ∀ r ∈ passes.set k q, ∃ p' ∈ passes, r.toDrop ⊆ p'.toDrop := by
  intro r hr
  rcases mem_or_eq_of_mem_set hr with hmem | rfl
  · exact ⟨r, hmem, List.Subset.refl _⟩
  · exact ⟨p, mem_of_getElem? hk, hq⟩

theorem VacuumInv.step (h : VacuumInv env s) {event : VacuumEvent} (hclean : CleanEvent s event)
    (hstep : step env s event = some s') : VacuumInv env s' := by
  cases event with
  | insert iri vector jsonld io =>
    obtain ⟨out, hout, rfl⟩ := map_eq_some_iff.1 hstep
    exact h.write hclean hout
  | upsert iri vector jsonld io =>
    obtain ⟨out, hout, rfl⟩ := map_eq_some_iff.1 hstep
    exact h.write hclean hout
  | delete iri io =>
    cases hstep
    exact h.delete iri io
  | readDeleted =>
    cases hstep
    refine ⟨h.registry, ?_, ?_⟩
    · intro p hp
      rcases mem_append.1 hp with hp | hp
      · exact h.passes p hp
      · rw [mem_singleton.1 hp]
        exact List.Subset.refl _
    · intro iri payload hlast
      obtain ⟨id, hres, hrefl, hlive, hpass⟩ := h.live iri payload hlast
      refine ⟨id, hres, hrefl, hlive, ?_⟩
      intro p hp
      rcases mem_append.1 hp with hp | hp
      · exact hpass p hp
      · rw [mem_singleton.1 hp]
        simpa using hlive
  | clearIndexes k =>
    simp only [VacuumRun.step] at hstep
    split at hstep
    · next id toClear toDrop hk =>
      cases hstep
      have hmem : ⟨id :: toClear, toDrop⟩ ∈ s.passes := mem_of_getElem? hk
      obtain ⟨hid, hclear⟩ := cons_subset.1 (h.passes _ hmem)
      refine h.pass_step ?_ (toDrop_set hk (List.Subset.refl _)) ?_
      · intro p hp
        rcases mem_or_eq_of_mem_set hp with hp | rfl
        · exact h.passes p hp
        · exact hclear
      · intro j payload hpass hlive hrefl
        have hne : j ≠ id := by
          rintro rfl
          exact hpass _ hmem hid
        exact ⟨hrefl.vacuumIndexes_of_ne hne, hlive⟩
    · cases hstep
  | dropPayload k =>
    simp only [VacuumRun.step] at hstep
    split at hstep
    · next id toDrop hk =>
      cases hstep
      have hmem : ⟨[], id :: toDrop⟩ ∈ s.passes := mem_of_getElem? hk
      refine h.pass_step ?_ (toDrop_set hk (subset_cons_self id toDrop)) ?_
      · intro p hp
        rcases mem_or_eq_of_mem_set hp with hp | rfl
        · exact h.passes p hp
        · exact nil_subset _
      · intro j payload hpass hlive hrefl
        have hne : j ≠ id := by
          rintro rfl
          exact hpass _ hmem mem_cons_self
        exact ⟨hrefl.vacuumForward_of_ne hne, hlive⟩
    · cases hstep
  | clearDeleted k =>
    simp only [VacuumRun.step] at hstep
    split at hstep
    · cases hstep
      refine h.pass_step ?_ ?_ ?_
      · exact fun p hp => h.passes p (mem_of_mem_eraseIdx hp)
      · exact fun p hp => ⟨p, mem_of_mem_eraseIdx hp, List.Subset.refl _⟩
      · exact fun j payload _ _ hrefl => ⟨hrefl.with_deleted ∅, Finset.notMem_empty j⟩
    · cases hstep

theorem VacuumInv.runFrom (h : VacuumInv env s) {events : List VacuumEvent} (hclean : CleanVacuumRun env s events)
    (hrun : runFrom env s events = some s') : VacuumInv env s' := by
  induction events generalizing s with
  | nil =>
    cases hrun
    exact h
  | cons event events ih =>
    obtain ⟨s₁, hstep, hrun⟩ := bind_eq_some_iff.1 hrun
    obtain ⟨hevent, hrest⟩ := hclean
    rw [hstep] at hrest
    exact ih (h.step hevent hstep) hrest hrun

end

/-- A deleted IRI is inserted again after a pass has read the set of deleted ids. -/
def reinserted : List VacuumEvent :=
  [.insert "a" unitX (.object []) (quiet 0), .delete "a" (quiet 0), .readDeleted,
    .insert "a" unitX (.object []) (quiet 0), .clearIndexes 0, .dropPayload 0, .clearDeleted 0]

end VacuumRun

end WildAgentOs.Engine
