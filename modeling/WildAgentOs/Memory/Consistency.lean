import WildAgentOs.Memory.Projection
import WildAgentOs.Memory.Scheduler

/-!
# The consistency engine

`memory/consistency_engine.rs` keeps three copies of a node: the entry in L0, the node of the blackboard and
the views.  An update of L0 is announced, but no step puts a node of the blackboard into the state that makes a
read fetch it again.

* `Caches`, `onL2WriteFor`, `onL2Read`, `onL0Update`, `Update`, `Run`, `Coherent`, `coherent_iff`.
-/

namespace WildAgentOs.Memory

open Core Json List Function Option AList Blackboard

/-- The copies that the engine joins.  Store `0` is its own, the others are those of tenants. -/
structure Caches where
  l2 : Blackboard
  l0 : ℕ → L0Store
  l3 : ProjectionCache
  criticalTags : List String

namespace Caches

variable (env : BlackboardEnv) (l0env : L0Env)

inductive WriteStrategy
  | writeThrough
  | writeBack
  deriving DecidableEq

def determineWriteStrategy (sys : Caches) (tags : List String) : WriteStrategy :=
  if tags.any (· ∈ sys.criticalTags) then .writeThrough else .writeBack

/-- `memory_bus.publish_invalidate`, which no copy listens to, and `projection.invalidate_by_node`. -/
def invalidate (sys : Caches) (nodeIri : String) : Caches := { sys with l3 := sys.l3.invalidateByNode nodeIri }

def onL2WriteFor (sys : Caches) (now : ℤ) (nodeIri : String) (tags : List String) (tenantL0 : Option ℕ) :
    Caches × Except BlackboardError Unit :=
  let sys' := { sys with l2 := sys.l2.markDirty nodeIri }
  match sys.determineWriteStrategy tags with
  | .writeBack => (sys'.invalidate nodeIri, .ok ())
  | .writeThrough =>
    match tenantL0 with
    | none =>
      (sys', .error (.core (.permissionDenied "l0_store" "l0" "write L0 data without verified claims")))
    | some handle =>
      match sys'.l2.flushNode l0env now (sys'.l0 handle) nodeIri with
      | ((l2, l0), result) =>
        let sys' := { sys' with l2, l0 := update sys'.l0 handle l0 }
        match result with
        | .error e => (sys', .error e)
        | .ok () => (sys'.invalidate nodeIri, .ok ())

/-- `CoreConfig::default`. -/
def defaultMaxNodeSize : ℕ := 5242880

def onL2Read (sys : Caches) (now : ℤ) (nodeIri : String) : Caches × Except BlackboardError Unit :=
  match sys.l2.readNode env now nodeIri with
  | (l2, none) => ({ sys with l2 }, .ok ())
  | (l2, some node) =>
    match node.mesiState with
    | .modified | .exclusive | .shared => ({ sys with l2 }, .ok ())
    | .invalid =>
      let sys := { sys with l2 := l2.deleteNode env nodeIri }
      match (sys.l0 0).retrieve l0env now nodeIri with
      | .error e => (sys, .error (.core e))
      | .ok (none, l0) => ({ sys with l0 := update sys.l0 0 l0 }, .ok ())
      | .ok (some entry, l0) =>
        match sys.l2.writeNode { env with maxNodeSize := defaultMaxNodeSize } now nodeIri entry.content with
        | (l2, result) => ({ sys with l2, l0 := update sys.l0 0 l0 }, result)

def onL0Update (sys : Caches) (now : ℤ) (iri : String) : Caches × Except CoreError Unit :=
  match (sys.l0 0).updateMesiState l0env now iri .modified with
  | .error e => (sys, .error e)
  | .ok l0 => ({ sys with l0 := update sys.l0 0 l0 }.invalidate iri, .ok ())

end Caches

/-! ### Updates and reads -/

/-- A store of a content in L0. -/
inductive L0Write
  | store (iri content : String)
  | storeEntry (entry : L0Entry)
  | storeJsonldNode (node : Value)

/-- The IRI and the content that are stored. -/
def L0Write.apply (l0env : L0Env) (toJson : Value → String) (now : ℤ) (l0 : L0Store) :
    L0Write → Except CoreError (String × String × L0Store)
  | .store iri content => do
    let l0 ← l0.store l0env now iri content
    return (iri, content, l0)
  | .storeEntry entry => do
    let l0 ← l0.storeEntry l0env now entry
    return (entry.iri, entry.content, l0)
  | .storeJsonldNode node => do
    let (iri, l0) ← l0.storeJsonldNode l0env toJson now node
    return (iri, toJson node, l0)

/-- An update and the call that follows it, a read, or a sync thread that comes to its end. -/
inductive Update
  | l0Store (now : ℤ) (write : L0Write)
  | l2Write (now : ℤ) (nodeIri jsonLd : String) (tags : List String) (tenantL0 : Option ℕ)
  | l2WriteToGraph (now : ℤ) (nodeIri jsonLd graphName : String) (tags : List String) (tenantL0 : Option ℕ)
  | l2Read (now : ℤ) (nodeIri : String)
  | runSync (i : ℕ)

/-- The copies, and the contents of each IRI that are not older than the last one announced. -/
structure Run where
  sys : Caches
  fresh : String → List String

namespace Run

variable (env : BlackboardEnv) (l0env : L0Env)

/-- An update is announced. -/
def announce (r : Run) (iri content : String) : Run := { r with fresh := update r.fresh iri [content] }

/-- An update that is not announced: its call failed. -/
def put (r : Run) (iri content : String) : Run :=
  if r.fresh iri = [] then r else { r with fresh := update r.fresh iri (r.fresh iri ++ [content]) }

/-- A write of the blackboard, with `on_l2_write_for` if it was taken. -/
def written (r : Run) (now : ℤ) (nodeIri jsonLd : String) (tags : List String) (tenantL0 : Option ℕ) :
    Blackboard × Except BlackboardError Unit → Run
  | (l2, .ok ()) =>
    match { r.sys with l2 }.onL2WriteFor l0env now nodeIri tags tenantL0 with
    | (sys, .ok ()) => { r with sys }.announce nodeIri jsonLd
    | (sys, .error _) => { r with sys }.put nodeIri jsonLd
  -- The node is in the cache, and its record could not be stored.
  | (l2, .error (.sparqlError _)) => { r with sys := { r.sys with l2 } }.put nodeIri jsonLd
  | (l2, .error _) => { r with sys := { r.sys with l2 } }

def step (r : Run) : Update → Run
  | .l0Store now write =>
    match write.apply l0env env.toString now (r.sys.l0 0) with
    | .error _ => r
    | .ok (iri, content, l0) =>
      match { r.sys with l0 := update r.sys.l0 0 l0 }.onL0Update l0env now iri with
      | (sys, .ok ()) => { r with sys }.announce iri content
      | (sys, .error _) => { r with sys }.put iri content
  | .l2Write now nodeIri jsonLd tags tenantL0 =>
    r.written l0env now nodeIri jsonLd tags tenantL0 (r.sys.l2.writeNode env now nodeIri jsonLd)
  | .l2WriteToGraph now nodeIri jsonLd graphName tags tenantL0 =>
    r.written l0env now nodeIri jsonLd tags tenantL0
      (r.sys.l2.writeNodeToGraph env now nodeIri jsonLd graphName)
  | .l2Read now nodeIri => { r with sys := (r.sys.onL2Read env l0env now nodeIri).1 }
  | .runSync i => { r with sys := { r.sys with l2 := r.sys.l2.runSync env i } }

/-- **A read after `on_l2_read` gives nothing that is older** than the last update that was announced. -/
def Coherent (r : Run) : Prop :=
  ∀ now now' iri node, r.fresh iri ≠ [] →
    ((r.sys.onL2Read env l0env now iri).1.l2.readNode env now' iri).2 = some node → node.jsonLd ∈ r.fresh iri

/-- Nothing has been announced yet. -/
def start (store : Option String → String → List Value) (l0 : ℕ → L0Store) (l3 : ProjectionCache)
    (criticalTags : List String) : Run where
  sys := { l2 := Blackboard.withStore store, l0, l3, criticalTags }
  fresh _ := []

end Run

/-- **An update of L0 finds no other copy** in the blackboard. -/
def Update.FindsNoOther (env : BlackboardEnv) (l0env : L0Env) (r : Run) : Update → Prop
  | .l0Store now write => ∀ iri content l0 l0', write.apply l0env env.toString now (r.sys.l0 0) = .ok (iri, content, l0) →
    l0.updateMesiState l0env now iri .modified = .ok l0' → ∀ text, r.sys.l2.copy env iri = some text → text = content
  | _ => True

/-! ### What the calls do to the copies of the blackboard -/

variable {iri text : String}

section Copies

variable {env : BlackboardEnv} {l0env : L0Env} {s s' : Blackboard}

open Blackboard

/-- No node is in the state that a read fetches again, and a sync under way is one of a cached node. -/
structure Settled (s : Blackboard) : Prop where
  valid : ∀ iri node, s.nodeCache.lookup iri = some node → node.mesiState ≠ .invalid
  cached : ∀ pending ∈ s.pendingSyncs, s.nodeCache.lookup pending.nodeIri ≠ none

/-- A text is put under an IRI, and nothing else changes but the graph at that subject. -/
structure PutsText (iri text : String) (s s' : Blackboard) : Prop where
  put : ∃ node, s'.nodeCache.lookup iri = some node ∧ node.jsonLd = text ∧ node.mesiState ≠ .invalid
  other : ∀ iri', iri' ≠ iri → s'.nodeCache.lookup iri' = s.nodeCache.lookup iri'
  store : ∀ graph iri', iri' ≠ iri → s'.store graph iri' = s.store graph iri'
  pending : ∀ pending ∈ s'.pendingSyncs, pending ∈ s.pendingSyncs ∨ pending.nodeIri = iri

/-- Flags are set, and the graph is left as it is. -/
structure SetsFlags (s s' : Blackboard) : Prop where
  texts : ∀ iri, (s'.nodeCache.lookup iri).map Node.jsonLd = (s.nodeCache.lookup iri).map Node.jsonLd
  valid : ∀ iri node', s'.nodeCache.lookup iri = some node' → node'.mesiState = .invalid →
    ∃ node, s.nodeCache.lookup iri = some node ∧ node.mesiState = .invalid
  store : s'.store = s.store
  pending : s'.pendingSyncs = s.pendingSyncs

theorem nodeOf_mesiState_ne (s : Blackboard) (now : ℤ) (nodeIri jsonLd : String) (parsed : Value)
    (graph : Option String) : (s.nodeOf now nodeIri jsonLd parsed graph).mesiState ≠ .invalid := by
  unfold nodeOf
  simp only
  split_ifs <;> exact fun h => (nomatch h)

/-- A node is cached, and its graph synced. -/
theorem putsText_cacheNode {node : Node} (hvalid : node.mesiState ≠ .invalid)
    (h : SyncsAt node.iri (s.cacheNode node) s') : PutsText node.iri node.jsonLd s s' where
  put := ⟨node, by rw [h.cache]; exact lookup_insert _, rfl, hvalid⟩
  other iri' hne := by
    rw [h.cache]
    exact lookup_insert_ne hne
  store := h.store
  pending := h.pending

theorem checkDocument_ne_sparqlError {jsonLd context message : String} :
    checkDocument env jsonLd context ≠ .error (.sparqlError message) := by
  unfold checkDocument
  split_ifs
  · exact fun h => (nomatch h)
  · cases hparse : env.fromStr jsonLd <;> exact fun h => (nomatch h)

/-- `write_node` refuses, or puts its text; then it may still fail at the graph. -/
theorem writeNode_cases (s : Blackboard) (now : ℤ) (nodeIri jsonLd : String) :
    (∃ e, s.writeNode env now nodeIri jsonLd = (s, .error e) ∧ ∀ message, e ≠ .sparqlError message) ∨
      ∃ s' result, s.writeNode env now nodeIri jsonLd = (s', result) ∧ PutsText nodeIri jsonLd s s' ∧
        ∀ e, result = .error e → ∃ message, e = .sparqlError message := by
  unfold writeNode
  cases hcheck : checkDocument env jsonLd "JSON parse error: " with
  | error e =>
    exact .inl ⟨e, rfl, fun message heq => checkDocument_ne_sparqlError (heq ▸ hcheck)⟩
  | ok parsed =>
    simp only
    cases hguard : (guardedTaskIri nodeIri).filter fun owner => s.taskRecordIsClosed env owner with
    | some owner => exact .inl ⟨_, rfl, fun message h => (nomatch h)⟩
    | none =>
      simp only
      refine .inr ?_
      have hputs {s' : Blackboard} (h : SyncsAt nodeIri (s.cacheNode (s.nodeOf now nodeIri jsonLd parsed
          (textMember parsed "named_graph"))) s') : PutsText nodeIri jsonLd s s' :=
        putsText_cacheNode (nodeOf_mesiState_ne s now nodeIri jsonLd parsed _) h
      have hsyncs := (@syncsAt_writeSync env (s.cacheNode (s.nodeOf now nodeIri jsonLd parsed
        (textMember parsed "named_graph"))) none nodeIri parsed).trans (syncsAt_trackIndexed _ nodeIri parsed)
      split_ifs
      · rcases @syncsAt_persistServerTaskRecord env _ nodeIri parsed with ⟨s', hpersist, hsyncs'⟩ | ⟨message, hpersist⟩
        · rw [hpersist]
          exact ⟨_, _, rfl, hputs (hsyncs.trans hsyncs'), fun e h => (nomatch h)⟩
        · rw [hpersist]
          exact ⟨_, _, rfl, hputs hsyncs, fun e h => ⟨message, (Except.error.inj h).symm⟩⟩
      · exact ⟨_, _, rfl, hputs hsyncs, fun e h => (nomatch h)⟩

theorem writeNodeToGraph_cases (s : Blackboard) (now : ℤ) (nodeIri jsonLd graphName : String) :
    (∃ e, s.writeNodeToGraph env now nodeIri jsonLd graphName = (s, .error e) ∧ ∀ message, e ≠ .sparqlError message) ∨
      ∃ s' result, s.writeNodeToGraph env now nodeIri jsonLd graphName = (s', result) ∧
        PutsText nodeIri jsonLd s s' ∧ ∀ e, result = .error e → ∃ message, e = .sparqlError message := by
  unfold writeNodeToGraph
  cases hcheck : checkDocument env jsonLd "JSON parse error: " with
  | error e =>
    exact .inl ⟨e, rfl, fun message heq => checkDocument_ne_sparqlError (heq ▸ hcheck)⟩
  | ok parsed =>
    refine .inr ⟨_, _, rfl, ?_, fun e h => (nomatch h)⟩
    exact putsText_cacheNode (nodeOf_mesiState_ne s now nodeIri jsonLd parsed (some graphName))
      ((syncsAt_writeSync _ (some graphName) nodeIri parsed).trans (syncsAt_trackIndexed _ nodeIri parsed))

theorem setsFlags_insert {iri : String} {node node' : Node} (h : s.nodeCache.lookup iri = some node)
    (htext : node'.jsonLd = node.jsonLd) (hvalid : node'.mesiState ≠ .invalid) :
    SetsFlags s { s with nodeCache := s.nodeCache.insert iri node' } where
  texts iri' := by
    by_cases heq : iri' = iri
    · rw [heq, lookup_insert, h, map_some, map_some, htext]
    · rw [lookup_insert_ne heq]
  valid iri' node'' hnode hinvalid := by
    by_cases heq : iri' = iri
    · rw [heq, lookup_insert] at hnode
      exact absurd (some.inj hnode ▸ hinvalid) hvalid
    · rw [lookup_insert_ne heq] at hnode
      exact ⟨node'', hnode, hinvalid⟩
  store := rfl
  pending := rfl

theorem SetsFlags.refl (s : Blackboard) : SetsFlags s s := ⟨fun _ => rfl, fun _ node h h' => ⟨node, h, h'⟩, rfl, rfl⟩

theorem SetsFlags.trans {s₁ s₂ s₃ : Blackboard} (h : SetsFlags s₁ s₂) (h' : SetsFlags s₂ s₃) : SetsFlags s₁ s₃ where
  texts iri := (h'.texts iri).trans (h.texts iri)
  valid iri node₃ hnode hinvalid := by
    obtain ⟨node₂, hnode, hinvalid⟩ := h'.valid iri node₃ hnode hinvalid
    exact h.valid iri node₂ hnode hinvalid
  store := h'.store.trans h.store
  pending := h'.pending.trans h.pending

theorem setsFlags_markDirty (s : Blackboard) (nodeIri : String) : SetsFlags s (s.markDirty nodeIri) := by
  unfold markDirty
  cases hnode : s.nodeCache.lookup nodeIri with
  | none => exact .refl s
  | some node => exact setsFlags_insert hnode rfl fun h => (nomatch h)

theorem setsFlags_flushNodes (now : ℤ) (s : Blackboard) (l0 : L0Store) (iris : List String) :
    SetsFlags s (s.flushNodes l0env now l0 iris).1.1 :=
  flushNodes_rel .refl .trans (fun hnode => setsFlags_insert hnode rfl fun h => (nomatch h)) l0env now s l0 iris

theorem SetsFlags.copy (h : SetsFlags s s') (iri : String) : s'.copy env iri = s.copy env iri :=
  copy_congr (h.texts iri) fun graph _ => by rw [h.store]

theorem SetsFlags.settled (h : SetsFlags s s') (hs : Settled s) : Settled s' where
  valid iri node' hnode' hinvalid := by
    obtain ⟨node, hnode, hinvalid⟩ := h.valid iri node' hnode' hinvalid
    exact hs.valid iri node hnode hinvalid
  cached pending hin hnone := by
    have htexts := h.texts pending.nodeIri
    rw [hnone, map_none, eq_comm, map_eq_none_iff] at htexts
    exact hs.cached pending (h.pending ▸ hin) htexts

theorem PutsText.copy (h : PutsText iri text s s') : s'.copy env iri = some text := by
  obtain ⟨node, hnode, rfl, -⟩ := h.put
  unfold copy
  rw [hnode]

theorem PutsText.copy_ne {iri text iri' : String} (h : PutsText iri text s s') (hne : iri' ≠ iri) :
    s'.copy env iri' = s.copy env iri' :=
  copy_congr (by rw [h.other iri' hne]) fun graph _ => h.store (some graph) iri' hne

theorem PutsText.settled (h : PutsText iri text s s') (hs : Settled s) : Settled s' where
  valid iri' node' hnode' := by
    by_cases heq : iri' = iri
    · obtain ⟨node, hnode, -, hvalid⟩ := h.put
      rw [heq, hnode] at hnode'
      exact some.inj hnode' ▸ hvalid
    · exact hs.valid iri' node' (h.other iri' heq ▸ hnode')
  cached pending hin := by
    by_cases heq : pending.nodeIri = iri
    · obtain ⟨node, hnode, -⟩ := h.put
      rw [heq, hnode]
      exact some_ne_none node
    · rw [h.other _ heq]
      exact hs.cached pending ((h.pending pending hin).resolve_right heq)

/-- A sync thread writes the graph at a subject that is cached. -/
theorem Settled.runSync (h : Settled s) (i : ℕ) :
    Settled (s.runSync env i) ∧ ∀ iri, (s.runSync env i).copy env iri = s.copy env iri := by
  unfold Blackboard.runSync
  cases hpending : s.pendingSyncs[i]? with
  | none => exact ⟨h, fun iri => rfl⟩
  | some pending =>
    simp only
    have hcached := h.cached pending (mem_of_getElem? hpending)
    have hsettled {s' : Blackboard}
        (hsyncs : SyncsAt pending.nodeIri { s with pendingSyncs := s.pendingSyncs.eraseIdx i } s') :
        Settled s' ∧ ∀ iri, s'.copy env iri = s.copy env iri := by
      refine ⟨⟨fun iri node hnode => h.valid iri node (hsyncs.cache ▸ hnode), fun sync hin => ?_⟩, fun iri => ?_⟩
      · rw [hsyncs.cache]
        rcases hsyncs.pending sync hin with hin | heq
        · exact h.cached sync ((eraseIdx_sublist s.pendingSyncs i).subset hin)
        · exact heq ▸ hcached
      · by_cases heq : iri = pending.nodeIri
        · obtain ⟨node, hnode⟩ := ne_none_iff_exists'.1 hcached
          unfold Blackboard.copy
          rw [hsyncs.cache, heq]
          simp only [hnode]
        · exact copy_congr (by rw [hsyncs.cache]) fun graph _ => hsyncs.store (some graph) iri heq
    cases hsync : sync env { s with pendingSyncs := s.pendingSyncs.eraseIdx i } pending.graph pending.nodeIri
      pending.doc with
    | error e => exact hsettled (.refl _ _)
    | ok s' => exact hsettled (syncsAt_sync hsync)

/-- A read leaves the copies, and gives a valid node. -/
theorem Settled.readNode (h : Settled s) (now : ℤ) (iri : String) :
    Settled (s.readNode env now iri).1 ∧ (∀ iri', (s.readNode env now iri).1.copy env iri' = s.copy env iri') ∧
      ∀ node, (s.readNode env now iri).2 = some node → node.mesiState ≠ .invalid := by
  unfold Blackboard.readNode
  cases hnode : s.nodeCache.lookup iri with
  | some node => exact ⟨h, fun iri' => rfl, fun node' heq => some.inj heq ▸ h.valid iri node hnode⟩
  | none =>
    simp only
    cases hdoc : s.persistedTaskDocument env iri with
    | none => exact ⟨h, fun iri' => rfl, fun node' heq => (nomatch heq)⟩
    | some doc =>
      simp only
      unfold rememberTaskDocument
      split_ifs with htask
      · simp only [hnode]
        have hcopy : s.copy env iri = some (env.toString doc) := by
          unfold copy
          simp only [hnode, hdoc, filter_some, htask, if_true, map_some]
        have hcache : SyncsAt iri (cacheNode { s with serverTaskIris := s.serverTaskIris.insert iri }
            (nodeFromDocument env now iri doc)) ((cacheNode
            { s with serverTaskIris := s.serverTaskIris.insert iri }
            (nodeFromDocument env now iri doc)).trackTaskIndexes iri doc) := by
          unfold trackTaskIndexes
          cases extractTaskIri iri with
          | none => exact .refl iri _
          | some task =>
            unfold completeTask
            simp only
            split <;> exact ⟨rfl, fun _ _ _ => rfl, fun _ h => .inl h⟩
        have hputs : PutsText iri (env.toString doc) s ((cacheNode
            { s with serverTaskIris := s.serverTaskIris.insert iri }
            (nodeFromDocument env now iri doc)).trackTaskIndexes iri doc) :=
          ⟨⟨nodeFromDocument env now iri doc, by rw [hcache.cache]; exact lookup_insert _, rfl,
              fun h => (nomatch h)⟩, fun iri' hne => by rw [hcache.cache]; exact lookup_insert_ne hne,
            hcache.store, hcache.pending⟩
        refine ⟨hputs.settled h, fun iri' => ?_, fun node' heq => ?_⟩
        · by_cases heq : iri' = iri
          · rw [heq, hputs.copy, hcopy]
          · exact hputs.copy_ne heq
        · rw [← some.inj heq]
          exact fun h => (nomatch h)
      · exact ⟨h, fun iri' => rfl, fun node' heq => (nomatch heq)⟩

end Copies

/-! ### Runs -/

namespace Run

variable {env : BlackboardEnv} {l0env : L0Env} {r : Run}

/-- What the blackboard has of an IRI is not older than its last announced update. -/
def Holds (env : BlackboardEnv) (r : Run) : Prop :=
  ∀ iri text, r.fresh iri ≠ [] → r.sys.l2.copy env iri = some text → text ∈ r.fresh iri

/-- Where no node is invalid, `on_l2_read` only reads. -/
theorem onL2Read_l2 (h : Settled r.sys.l2) (now : ℤ) (iri : String) :
    (r.sys.onL2Read env l0env now iri).1.l2 = (r.sys.l2.readNode env now iri).1 := by
  obtain ⟨-, -, hvalid⟩ := @Settled.readNode env r.sys.l2 h now iri
  unfold Caches.onL2Read
  cases hread : r.sys.l2.readNode env now iri with
  | mk l2 found =>
    cases found with
    | none => rfl
    | some node =>
      simp only
      cases hstate : node.mesiState with
      | invalid => exact absurd hstate (hvalid node (by rw [hread]))
      | _ => rfl

theorem coherent_iff_holds (h : Settled r.sys.l2) : r.Coherent env l0env ↔ r.Holds env := by
  have hread : ∀ now now' iri, (((r.sys.onL2Read env l0env now iri).1.l2.readNode env now' iri).2.map
      Node.jsonLd) = r.sys.l2.copy env iri := by
    intro now now' iri
    rw [onL2Read_l2 h, map_readNode, (h.readNode now iri).2.1]
  constructor
  · intro hcoherent iri text hfresh hcopy
    rw [← hread 0 0 iri] at hcopy
    obtain ⟨node, hnode, rfl⟩ := map_eq_some_iff.1 hcopy
    exact hcoherent 0 0 iri node hfresh hnode
  · intro hholds now now' iri node hfresh hnode
    refine hholds iri node.jsonLd hfresh ?_
    rw [← hread now now' iri, hnode]
    rfl

variable {iri iri' content : String}

theorem fresh_announce_ne (h : iri' ≠ iri) : (r.announce iri content).fresh iri' = r.fresh iri' := update_of_ne h _ _

theorem fresh_put_ne (h : iri' ≠ iri) : (r.put iri content).fresh iri' = r.fresh iri' := by
  unfold put
  split_ifs
  · rfl
  · exact update_of_ne h _ _

theorem mem_fresh_put {iri content : String} (h : (r.put iri content).fresh iri ≠ []) :
    content ∈ (r.put iri content).fresh iri := by
  unfold put at h ⊢
  split_ifs at h ⊢ with hempty
  · exact absurd hempty h
  · simp

theorem sys_put (iri content : String) : (r.put iri content).sys = r.sys := by
  unfold put
  split_ifs <;> rfl

theorem flags_onL2WriteFor (sys : Caches) (now : ℤ) (nodeIri : String) (tags : List String)
    (tenantL0 : Option ℕ) : SetsFlags sys.l2 (sys.onL2WriteFor l0env now nodeIri tags tenantL0).1.l2 := by
  have hmark := setsFlags_markDirty sys.l2 nodeIri
  unfold Caches.onL2WriteFor
  cases sys.determineWriteStrategy tags with
  | writeBack => exact hmark
  | writeThrough =>
    cases tenantL0 with
    | none => exact hmark
    | some handle =>
      have hflush := hmark.trans (@setsFlags_flushNodes l0env now (sys.l2.markDirty nodeIri) (sys.l0 handle)
        ((sys.l2.markDirty nodeIri).dirtyIris [nodeIri]))
      simp only
      cases hresult : (sys.l2.markDirty nodeIri).flushNode l0env now (sys.l0 handle) nodeIri with
      | mk result outcome =>
        have heq : result.1 = ((sys.l2.markDirty nodeIri).flushNode l0env now (sys.l0 handle) nodeIri).1.1 := by
          rw [hresult]
        unfold flushNode at heq
        rw [← heq] at hflush
        cases outcome <;> exact hflush

/-- The text of one IRI is put, and counts as one that is not older. -/
theorem Holds.puts {r' : Run} (h : r.Holds env) (hcopy : r'.sys.l2.copy env iri = some text)
    (hother : ∀ iri', iri' ≠ iri → r'.sys.l2.copy env iri' = r.sys.l2.copy env iri')
    (hfresh : ∀ iri', iri' ≠ iri → r'.fresh iri' = r.fresh iri') (hin : r'.fresh iri ≠ [] → text ∈ r'.fresh iri) :
    r'.Holds env := by
  intro iri' text' hne hcopy'
  by_cases heq : iri' = iri
  · rw [heq] at hne hcopy' ⊢
    obtain rfl := some.inj (hcopy.symm.trans hcopy')
    exact hin hne
  · rw [hfresh iri' heq] at hne ⊢
    exact h iri' text' hne (hother iri' heq ▸ hcopy')

/-- A write, with the call that follows it. -/
theorem settled_written (h : Settled r.sys.l2) {nodeIri jsonLd : String}
    {outcome : Blackboard × Except BlackboardError Unit}
    (hwrite : (∃ e, outcome = (r.sys.l2, .error e) ∧ ∀ message, e ≠ .sparqlError message) ∨
      ∃ s' result, outcome = (s', result) ∧ PutsText nodeIri jsonLd r.sys.l2 s' ∧
        ∀ e, result = .error e → ∃ message, e = .sparqlError message)
    (now : ℤ) (tags : List String) (tenantL0 : Option ℕ) :
    Settled (r.written l0env now nodeIri jsonLd tags tenantL0 outcome).sys.l2 ∧
      (r.Holds env → (r.written l0env now nodeIri jsonLd tags tenantL0 outcome).Holds env) := by
  rcases hwrite with ⟨e, rfl, hne⟩ | ⟨s', result, rfl, hputs, herror⟩
  · have hsame : r.written l0env now nodeIri jsonLd tags tenantL0 (r.sys.l2, .error e) = r := by
      cases e with
      | sparqlError message => exact absurd rfl (hne message)
      | _ => rfl
    rw [hsame]
    exact ⟨h, id⟩
  · cases result with
    | error e =>
      obtain ⟨message, rfl⟩ := herror e rfl
      have hl2 : (r.written l0env now nodeIri jsonLd tags tenantL0 (s', .error (.sparqlError message))).sys.l2 =
          s' := by
        unfold written
        rw [sys_put]
      rw [hl2]
      refine ⟨hputs.settled h, fun hr => hr.puts (by rw [hl2]; exact hputs.copy)
        (fun iri' hne => by rw [hl2]; exact hputs.copy_ne hne) (fun iri' hne => ?_) ?_⟩
      · exact fresh_put_ne hne
      · exact mem_fresh_put
    | ok =>
      have hflags := @flags_onL2WriteFor l0env { r.sys with l2 := s' } now nodeIri tags tenantL0
      unfold written
      simp only
      cases hcall : Caches.onL2WriteFor l0env { r.sys with l2 := s' } now nodeIri tags tenantL0 with
      | mk sys outcome =>
        rw [hcall] at hflags
        have hcopy : sys.l2.copy env nodeIri = some jsonLd := (hflags.copy nodeIri).trans hputs.copy
        have hother : ∀ iri', iri' ≠ nodeIri → sys.l2.copy env iri' = r.sys.l2.copy env iri' := fun iri' hne =>
          (hflags.copy iri').trans (hputs.copy_ne hne)
        cases outcome with
        | ok =>
          refine ⟨hflags.settled (hputs.settled h), fun hr => hr.puts hcopy hother
            (fun iri' hne => fresh_announce_ne hne) fun _ => ?_⟩
          show jsonLd ∈ update r.fresh nodeIri [jsonLd] nodeIri
          rw [update_self]
          exact mem_singleton_self jsonLd
        | error e =>
          simp only
          rw [sys_put]
          refine ⟨hflags.settled (hputs.settled h), fun hr => hr.puts (by rw [sys_put]; exact hcopy)
            (fun iri' hne => by rw [sys_put]; exact hother iri' hne) (fun iri' hne => fresh_put_ne hne) mem_fresh_put⟩

/-- An update of L0, and the blackboard as it was. -/
theorem l2_l0Store (r : Run) (now : ℤ) (write : L0Write) :
    (r.step env l0env (.l0Store now write)).sys.l2 = r.sys.l2 := by
  rw [step]
  cases hwrite : write.apply l0env env.toString now (r.sys.l0 0) with
  | error e => rfl
  | ok outcome =>
    obtain ⟨iri, content, l0⟩ := outcome
    simp only
    unfold Caches.onL0Update
    simp only [update_self]
    cases hmesi : l0.updateMesiState l0env now iri .modified with
    | error e => simp only [sys_put]
    | ok l0' => rfl

theorem settled_step (h : Settled r.sys.l2) (u : Update) : Settled (r.step env l0env u).sys.l2 := by
  cases u with
  | l0Store now write => exact (l2_l0Store r now write).symm ▸ h
  | l2Write now nodeIri jsonLd tags tenantL0 =>
    exact (@settled_written env l0env r h _ _ _ (writeNode_cases r.sys.l2 now nodeIri jsonLd) now tags tenantL0).1
  | l2WriteToGraph now nodeIri jsonLd graphName tags tenantL0 =>
    exact (@settled_written env l0env r h _ _ _ (writeNodeToGraph_cases r.sys.l2 now nodeIri jsonLd graphName) now tags
      tenantL0).1
  | l2Read now nodeIri =>
    show Settled (r.sys.onL2Read env l0env now nodeIri).1.l2
    rw [onL2Read_l2 h]
    exact (h.readNode now nodeIri).1
  | runSync i => exact (h.runSync i).1

/-- **One step** keeps what holds iff it finds no other copy. -/
theorem holds_step_iff (h : Settled r.sys.l2) (hr : r.Holds env) (u : Update) :
    (r.step env l0env u).Holds env ↔ u.FindsNoOther env l0env r := by
  cases u with
  | l0Store now write =>
    have hl2 := @l2_l0Store env l0env r now write
    cases hwrite : write.apply l0env env.toString now (r.sys.l0 0) with
    | error e =>
      have hstep : r.step env l0env (.l0Store now write) = r := by
        rw [step, hwrite]
      rw [hstep]
      exact ⟨fun _ iri content l0 l0' happly => (nomatch hwrite.symm.trans happly), fun _ => hr⟩
    | ok outcome =>
      obtain ⟨iri, content, l0⟩ := outcome
      cases hmesi : l0.updateMesiState l0env now iri .modified with
      | error e =>
        -- The update is not announced.
        have hfresh : (r.step env l0env (.l0Store now write)).fresh = (r.put iri content).fresh := by
          rw [step, hwrite]
          simp only [Caches.onL0Update, update_self, hmesi]
          unfold put
          split_ifs <;> rfl
        refine ⟨fun _ iri' content' l0' l0'' happly hupdate => ?_, fun _ iri' text hne hcopy => ?_⟩
        · obtain ⟨rfl, hrest⟩ := Prod.mk.inj (Except.ok.inj (hwrite.symm.trans happly))
          cases hrest
          cases hmesi.symm.trans hupdate
        · rw [hl2] at hcopy
          rw [hfresh] at hne ⊢
          unfold put at hne ⊢
          split_ifs at hne ⊢ with hempty
          · exact hr iri' text hne hcopy
          · by_cases heq : iri' = iri
            · subst heq
              simp only [update_self]
              exact mem_append_left _ (hr iri' text hempty hcopy)
            · simp only [update_of_ne heq] at hne ⊢
              exact hr iri' text hne hcopy
      | ok l0' =>
        have hfresh : (r.step env l0env (.l0Store now write)).fresh = update r.fresh iri [content] := by
          rw [step, hwrite]
          simp only [Caches.onL0Update, update_self, hmesi]
          rfl
        constructor
        · intro hholds iri' content' l0₁ l0₂ happly hupdate text hcopy
          obtain ⟨rfl, hrest⟩ := Prod.mk.inj (Except.ok.inj (hwrite.symm.trans happly))
          cases hrest
          have hin := hholds iri text
          rw [hfresh, hl2, update_self] at hin
          exact mem_singleton.1 (hin (cons_ne_nil _ _) hcopy)
        · intro hfinds iri' text hne hcopy
          rw [hl2] at hcopy
          rw [hfresh] at hne ⊢
          by_cases heq : iri' = iri
          · subst heq
            rw [update_self]
            exact mem_singleton.2 (hfinds iri' content l0 l0' hwrite hmesi text hcopy)
          · rw [update_of_ne heq] at hne ⊢
            exact hr iri' text hne hcopy
  | l2Write now nodeIri jsonLd tags tenantL0 =>
    exact iff_of_true ((@settled_written env l0env r h _ _ _
      (writeNode_cases r.sys.l2 now nodeIri jsonLd) now tags tenantL0).2 hr) trivial
  | l2WriteToGraph now nodeIri jsonLd graphName tags tenantL0 =>
    exact iff_of_true ((@settled_written env l0env r h _ _ _
      (writeNodeToGraph_cases r.sys.l2 now nodeIri jsonLd graphName) now tags tenantL0).2 hr) trivial
  | l2Read now nodeIri =>
    refine iff_of_true (fun iri text hne hcopy => hr iri text hne ?_) trivial
    rw [step] at hcopy
    simp only [onL2Read_l2 h] at hcopy
    rwa [(h.readNode now nodeIri).2.1] at hcopy
  | runSync i =>
    refine iff_of_true (fun iri text hne hcopy => hr iri text hne ?_) trivial
    rwa [← (h.runSync i).2 iri]

/-- Updates and reads one after the other. -/
def steps (env : BlackboardEnv) (l0env : L0Env) (r : Run) (updates : List Update) : Run :=
  updates.foldl (step env l0env) r

theorem settled_withStore (store : Option String → String → List Value) : Settled (withStore store) :=
  ⟨fun _ _ h => (nomatch h), fun _ h => (nomatch h)⟩

variable {store : Option String → String → List Value} {l0 : ℕ → L0Store} {l3 : ProjectionCache}
  {criticalTags : List String}

theorem settled_steps (h : Settled r.sys.l2) (updates : List Update) : Settled (r.steps env l0env updates).sys.l2 := by
  induction updates generalizing r with
  | nil => exact h
  | cons u updates ih => exact ih (settled_step h u)

/-- **Every read after `on_l2_read` is coherent iff no update of L0 finds another copy in the blackboard.** -/
theorem coherent_iff {updates : List Update} :
    (∀ before, before <+: updates → ((start store l0 l3 criticalTags).steps env l0env before).Coherent env l0env) ↔
      ∀ before u, before ++ [u] <+: updates →
        u.FindsNoOther env l0env ((start store l0 l3 criticalTags).steps env l0env before) := by
  have hsettled : ∀ before, Settled ((start store l0 l3 criticalTags).steps env l0env before).sys.l2 := fun before =>
    settled_steps (settled_withStore store) before
  have hconcat : ∀ before u, (start store l0 l3 criticalTags).steps env l0env (before ++ [u]) =
      ((start store l0 l3 criticalTags).steps env l0env before).step env l0env u := fun before u => by
    rw [steps, foldl_append]
    rfl
  simp only [coherent_iff_holds (hsettled _)]
  constructor
  · intro hholds before u hwithin
    have hnext := hholds _ hwithin
    rw [hconcat] at hnext
    exact (holds_step_iff (hsettled before) (hholds before ((prefix_append before [u]).trans hwithin)) u).1 hnext
  · intro hfinds before hwithin
    induction before using reverseRecOn with
    | nil => exact fun iri text hne => absurd rfl hne
    | append_singleton before u ih =>
      rw [hconcat]
      exact (holds_step_iff (hsettled before) (ih ((prefix_append before [u]).trans hwithin)) u).2
        (hfinds before u hwithin)

/-! ### An announced update -/

/-- A node is written, and its IRI then updated in L0. -/
def updated : List Update := [.l2Write 0 "iri://m1" "1" [] none, .l0Store 1 (.store "iri://m1" "2")]

/-- The read gives the node as it was before the update. -/
theorem not_coherent_updated : ¬((start (fun _ _ => []) (fun _ => L0Store.new true) .new []).steps
    Blackboard.sampleBoard L0Store.sampleEnv updated).Coherent Blackboard.sampleBoard L0Store.sampleEnv := by
  intro h
  have hin := h 0 0 "iri://m1" _ (by decide) rfl
  revert hin
  decide

end Run

end WildAgentOs.Memory
