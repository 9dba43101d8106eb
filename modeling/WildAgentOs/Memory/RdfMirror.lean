import WildAgentOs.Memory.NodeQueries

/-!
# The mirror of the blackboard in the graph

Outside of tests every write leaves the sync of its triples to a thread of its own.  The threads come in any order,
a deletion does not wait for them, and it deletes in the graph that the document names, which need not be the one
the node was written to.

* `Last`, `mirrorRun`, `Mirrors`;
* `Op.Follows`: a write or a deletion that comes after the syncs of its node, and reaches its triples;
* `mirrors_of_run`.
-/

namespace WildAgentOs.Memory.Blackboard

open Json List Function

variable {env : BlackboardEnv} {s s' : Blackboard}

/-- What was last done to a node. -/
inductive Last
  | untouched
  | written (graph : Option String) (doc : Value)
  | deleted

/-- The graphs in which the records of tasks are kept. -/
def taskGraphs : List (Option String) := [some taskRecordGraph, some taskArchiveGraph]

/-- **The graph follows the last write**: the triples of a node are those of its last document, in the graph that it
was written to, or none. -/
def Mirrors (s : Blackboard) (iri : String) : Last → Prop
  | .untouched => True
  | .written graph doc => s.store graph iri = (if hasTriples iri doc then [doc] else []) ∧
      ∀ graph', graph' ≠ graph → graph' ∉ taskGraphs → s.store graph' iri = []
  | .deleted => ∀ graph, s.store graph iri = []

/-- The writes and deletions, and the threads. -/
def Op.IsMirrored : Op → Prop
  | .writeNode _ _ _ | .writeNodeToGraph _ _ _ _ | .deleteNode _ | .runSync _ | .flushOxigraph _ => True
  | _ => False

/-- What was last done, after a call. -/
def Op.mark (env : BlackboardEnv) (s : Blackboard) (op : Op) (last : String → Last) : String → Last :=
  match op with
  | .writeNode _ _ _ => (op.docs env s).foldl (fun last put => update last put.1 (.written none put.2)) last
  | .writeNodeToGraph _ _ _ graphName =>
    (op.docs env s).foldl (fun last put => update last put.1 (.written (some graphName) put.2)) last
  | .deleteNode nodeIri => update last nodeIri .deleted
  | _ => last

/-- A call, and what was last done. -/
def mirrorStep (env : BlackboardEnv) (r : Blackboard × (String → Last)) (op : Op) :
    Option (Blackboard × (String → Last)) :=
  (op.step env r.1).map fun s' => (s', op.mark env r.1 r.2)

def mirrorRun (env : BlackboardEnv) (r : Blackboard × (String → Last)) (ops : List Op) :
    Option (Blackboard × (String → Last)) :=
  ops.foldlM (mirrorStep env) r

/-- No sync of the node is under way. -/
def SyncIdle (s : Blackboard) (iri : String) : Prop := ∀ pending ∈ s.pendingSyncs, pending.nodeIri ≠ iri

/-- A write whose node is idle and has no triples elsewhere; the store takes its triples, or there are none and none
to replace. -/
structure WritesAlone (env : BlackboardEnv) (s : Blackboard) (graph : Option String) (iri : String) (doc : Value) :
    Prop where
  idle : SyncIdle s iri
  alone : ∀ graph', graph' ≠ graph → graph' ∉ taskGraphs → s.store graph' iri = []
  taken : hasTriples iri doc = true → env.update graph iri doc = .ok ()
  bare : hasTriples iri doc = false → s.store graph iri = []

/-- The graphs that a deletion reaches. -/
def DeleteReaches (env : BlackboardEnv) (s : Blackboard) (iri : String) (graph : Option String) : Prop :=
  ∃ node, s.nodeCache.lookup iri = some node ∧ env.deletes graph iri = true ∧
    (graph = node.namedGraph ∨ graph ∈ taskGraphs ∧ isSparqlSubject env iri = true)

/-- **A call that the graph can follow.** -/
def Op.Follows (env : BlackboardEnv) (s : Blackboard) (op : Op) : Prop :=
  match op with
  | .writeNode _ _ _ => ∀ iri doc, (iri, doc) ∈ op.docs env s → WritesAlone env s none iri doc
  | .writeNodeToGraph _ _ _ graphName => ∀ iri doc, (iri, doc) ∈ op.docs env s → WritesAlone env s (some graphName) iri doc
  | .deleteNode iri => SyncIdle s iri ∧ ∀ graph, s.store graph iri ≠ [] → DeleteReaches env s iri graph
  | _ => True

/-! ### What the calls do to the graph -/

/-- A write: a thread is spawned, and the record of a task may be stored. -/
structure Spawns (graph : Option String) (iri : String) (doc : Value) (s s' : Blackboard) : Prop where
  pending : s'.pendingSyncs = s.pendingSyncs ++ [⟨graph, iri, doc⟩]
  store : ∀ graph' iri', ¬(iri' = iri ∧ graph' = some taskRecordGraph) → s'.store graph' iri' = s.store graph' iri'

theorem spawns_trackIndexed (htest : env.testMode = false) (graph : Option String) (iri : String) (doc : Value)
    {node : Node} : Spawns graph iri doc s (((s.cacheNode node).writeSync env graph iri doc).trackIndexed iri doc) := by
  unfold writeSync
  rw [htest, if_neg Bool.false_ne_true]
  unfold trackIndexed
  cases extractTaskIri iri with
  | none => exact ⟨rfl, fun _ _ _ => rfl⟩
  | some task => exact ⟨rfl, fun _ _ _ => rfl⟩

variable {iri : String} {doc : Value}

theorem persistServerTaskRecord_store
    (h : s.persistServerTaskRecord env iri doc = .ok s') : s'.pendingSyncs = s.pendingSyncs ∧
      ∀ graph' iri', ¬(iri' = iri ∧ graph' = some taskRecordGraph) → s'.store graph' iri' = s.store graph' iri' := by
  unfold persistServerTaskRecord at h
  split_ifs at h
  · obtain ⟨s₁, hsync, h⟩ := Except.bind_eq_ok_iff.1 h
    cases h
    unfold syncNamedTaskGraph sync at hsync
    split_ifs at hsync
    · cases hupdate : env.update (some taskRecordGraph) iri doc with
      | error e => simp [hupdate] at hsync
      | ok =>
        simp only [hupdate, Except.ok.injEq] at hsync
        subst hsync
        refine ⟨rfl, fun graph' iri' hne => ?_⟩
        simp only [setStore_store]
        rw [if_neg fun heq => hne heq.symm]
    · cases hsync
      exact ⟨rfl, fun _ _ _ => rfl⟩
  · cases h
    exact ⟨rfl, fun _ _ _ => rfl⟩

theorem spawns_writeNode (htest : env.testMode = false) (s : Blackboard) (now : ℤ) (iri jsonLd : String) :
    (Op.docs env s (.writeNode now iri jsonLd) = [] ∧ (s.writeNode env now iri jsonLd).1 = s) ∨
      ∃ doc, Op.docs env s (.writeNode now iri jsonLd) = [(iri, doc)] ∧
        Spawns none iri doc s (s.writeNode env now iri jsonLd).1 := by
  rw [Op.docs, writeNode]
  cases hcheck : checkDocument env jsonLd "JSON parse error: " with
  | error e => exact .inl ⟨rfl, rfl⟩
  | ok parsed =>
    simp only
    cases hguard : (guardedTaskIri iri).filter fun owner => s.taskRecordIsClosed env owner with
    | some owner => exact .inl ⟨rfl, rfl⟩
    | none =>
      simp only
      refine .inr ⟨parsed, rfl, ?_⟩
      have hspawns := @spawns_trackIndexed env s htest none iri parsed
        (s.nodeOf now iri jsonLd parsed (textMember parsed "named_graph"))
      split_ifs
      · cases hpersist : persistServerTaskRecord env _ iri parsed with
        | error e => exact hspawns
        | ok s'' =>
          obtain ⟨hpending, hstore⟩ := persistServerTaskRecord_store hpersist
          exact ⟨hpending.trans hspawns.pending, fun graph' iri' hne =>
            (hstore graph' iri' hne).trans (hspawns.store graph' iri' hne)⟩
      · exact hspawns

theorem spawns_writeNodeToGraph (htest : env.testMode = false) (s : Blackboard) (now : ℤ)
    (iri jsonLd graphName : String) :
    (Op.docs env s (.writeNodeToGraph now iri jsonLd graphName) = [] ∧
        (s.writeNodeToGraph env now iri jsonLd graphName).1 = s) ∨
      ∃ doc, Op.docs env s (.writeNodeToGraph now iri jsonLd graphName) = [(iri, doc)] ∧
        Spawns (some graphName) iri doc s (s.writeNodeToGraph env now iri jsonLd graphName).1 ∧
          (s.writeNodeToGraph env now iri jsonLd graphName).1.store = s.store := by
  rw [Op.docs, writeNodeToGraph]
  cases hcheck : checkDocument env jsonLd "JSON parse error: " with
  | error e => exact .inl ⟨rfl, rfl⟩
  | ok parsed =>
    refine .inr ⟨parsed, rfl, spawns_trackIndexed htest (some graphName) iri parsed, ?_⟩
    simp only [writeSync, htest, Bool.false_eq_true, if_false, trackIndexed]
    cases extractTaskIri iri <;> rfl

theorem dropStore_store (s : Blackboard) (graph graph' : Option String) (iri iri' : String) :
    (s.dropStore env graph iri).store graph' iri' =
      if env.deletes graph iri = true ∧ graph' = graph ∧ iri' = iri then [] else s.store graph' iri' := by
  unfold dropStore
  by_cases hdeletes : env.deletes graph iri = true
  · simp only [hdeletes, if_true, setStore_store, true_and]
  · simp only [hdeletes, Bool.false_eq_true, if_false, false_and]

/-- A deletion leaves other nodes, and the triples of its own node where it does not reach them. -/
theorem deleteNode_store (s : Blackboard) (iri : String) : (s.deleteNode env iri).pendingSyncs = s.pendingSyncs ∧
      (∀ graph iri', iri' ≠ iri → (s.deleteNode env iri).store graph iri' = s.store graph iri') ∧
        ∀ graph, (s.store graph iri ≠ [] → DeleteReaches env s iri graph) → (s.deleteNode env iri).store graph iri = [] := by
  unfold deleteNode
  cases hnode : s.nodeCache.lookup iri with
  | none =>
    refine ⟨rfl, fun _ _ _ => rfl, fun graph hreaches => ?_⟩
    by_contra hne
    obtain ⟨node, hlookup, -⟩ := hreaches hne
    cases hnode.symm.trans hlookup
  | some node =>
    simp only
    have hunindex : ∀ t : Blackboard, (t.unindexNode env iri node).pendingSyncs = t.pendingSyncs ∧
        (t.unindexNode env iri node).store = t.store := by
      intro t
      unfold unindexNode
      cases extractTaskIri iri with
      | none => exact ⟨rfl, rfl⟩
      | some task =>
        simp only
        cases t.taskNodes.lookup task <;> cases env.fromStr node.jsonLd <;> exact ⟨rfl, rfl⟩
    have hpending : ∀ (t : Blackboard) (graph : Option String), (t.dropStore env graph iri).pendingSyncs =
        t.pendingSyncs := by
      intro t graph
      unfold dropStore
      split_ifs <;> rfl
    rw [(hunindex _).1, (hunindex _).2]
    unfold dropTriples
    simp only
    refine ⟨?_, fun graph iri' hne => ?_, fun graph hreaches => ?_⟩
    · split_ifs <;> simp only [hpending]
    · split_ifs <;> simp only [dropStore_store, hne, and_false, if_false]
    · by_cases hempty : s.store graph iri = []
      · split_ifs <;> simp only [dropStore_store, hempty, ite_self]
      · obtain ⟨node', hlookup, hdeletes, hwhere⟩ := hreaches hempty
        obtain rfl := Option.some.inj (hnode.symm.trans hlookup)
        rcases hwhere with rfl | ⟨hin, hsubject⟩
        · split_ifs <;> simp [dropStore_store, hdeletes]
        · rw [if_pos hsubject]
          simp only [taskGraphs, mem_cons, not_mem_nil, or_false] at hin
          rcases hin with rfl | rfl
          · simp [dropStore_store, hdeletes]
          · simp [dropStore_store, hdeletes]

/-- A thread that ends: its sync is done, if the store takes it. -/
theorem runSync_of_pending {i : ℕ} {pending : PendingSync} (hpending : s.pendingSyncs[i]? = some pending) :
    (s.runSync env i).pendingSyncs = s.pendingSyncs.eraseIdx i ∧
      (∀ graph iri, ¬(graph = pending.graph ∧ iri = pending.nodeIri) →
        (s.runSync env i).store graph iri = s.store graph iri) ∧
      (hasTriples pending.nodeIri pending.doc = false → (s.runSync env i).store = s.store) ∧
      (hasTriples pending.nodeIri pending.doc = true → env.update pending.graph pending.nodeIri pending.doc = .ok () →
        (s.runSync env i).store pending.graph pending.nodeIri = [pending.doc]) := by
  unfold runSync
  simp only [hpending]
  unfold sync
  by_cases htriples : hasTriples pending.nodeIri pending.doc = true
  · rw [if_pos htriples]
    cases hupdate : env.update pending.graph pending.nodeIri pending.doc with
    | error e => simp [htriples]
    | ok =>
      refine ⟨rfl, fun graph iri hne => ?_, fun hfalse => ?_, fun _ _ => ?_⟩
      · simp only [setStore_store, if_neg hne]
      · rw [htriples] at hfalse
        cases hfalse
      · simp only [setStore_store, and_self, if_true]
  · rw [if_neg htriples]
    exact ⟨rfl, fun _ _ _ => rfl, fun _ => rfl, fun h => absurd h htriples⟩

theorem runSync_of_none {i : ℕ} (hpending : s.pendingSyncs[i]? = none) : s.runSync env i = s := by
  unfold runSync
  rw [hpending]

theorem pendingSyncs_runSync (s : Blackboard) (i : ℕ) : (s.runSync env i).pendingSyncs = s.pendingSyncs.eraseIdx i := by
  cases hpending : s.pendingSyncs[i]? with
  | none => rw [runSync_of_none hpending, eraseIdx_of_length_le (List.getElem?_eq_none_iff.1 hpending)]
  | some pending => exact (runSync_of_pending hpending).1

/-- After `flush_oxigraph` no sync is under way. -/
theorem pendingSyncs_flushOxigraph (s : Blackboard) (order : List ℕ) :
    (s.flushOxigraph env order).pendingSyncs = [] := by
  have hall : ∀ (n : ℕ) (s : Blackboard), s.pendingSyncs.length = n →
      ((List.replicate n 0).foldl (runSync env) s).pendingSyncs = [] := by
    intro n
    induction n with
    | zero => exact fun s hlength => length_eq_zero_iff.1 hlength
    | succ n ih =>
      intro s hlength
      refine ih (s.runSync env 0) ?_
      rw [pendingSyncs_runSync, length_eraseIdx, if_pos (by omega)]
      omega
  unfold flushOxigraph
  exact hall _ _ rfl

/-! ### The invariant -/

/-- What holds of a node until its syncs are done. -/
def Upholds (env : BlackboardEnv) (s : Blackboard) (iri : String) : Last → Prop
  | .untouched => SyncIdle s iri
  | .deleted => SyncIdle s iri ∧ ∀ graph, s.store graph iri = []
  | .written graph doc =>
    (∀ pending ∈ s.pendingSyncs, pending.nodeIri = iri → pending = ⟨graph, iri, doc⟩) ∧
      (∀ graph', graph' ≠ graph → graph' ∉ taskGraphs → s.store graph' iri = []) ∧
      (hasTriples iri doc = true → env.update graph iri doc = .ok ()) ∧
      (hasTriples iri doc = false → s.store graph iri = []) ∧
      (SyncIdle s iri → s.store graph iri = if hasTriples iri doc then [doc] else [])

variable {last : Last}

/-- The node that a thread has synced, or another one. -/
theorem Upholds.runSync (h : Upholds env s iri last) (i : ℕ) : Upholds env (s.runSync env i) iri last := by
  cases hpending : s.pendingSyncs[i]? with
  | none => rwa [runSync_of_none hpending]
  | some pending =>
    obtain ⟨hrest, hother, hbare, hdone⟩ := @runSync_of_pending env s i pending hpending
    have hsubset : (s.runSync env i).pendingSyncs ⊆ s.pendingSyncs := by
      rw [hrest]
      exact (eraseIdx_sublist s.pendingSyncs i).subset
    have hin : pending ∈ s.pendingSyncs := mem_of_getElem? hpending
    have hidle (h : SyncIdle s iri) : SyncIdle (s.runSync env i) iri := fun p hp => h p (hsubset hp)
    cases last with
    | untouched => exact hidle h
    | deleted =>
      refine ⟨hidle h.1, fun graph => ?_⟩
      rw [hother graph iri fun heq => h.1 pending hin heq.2.symm]
      exact h.2 graph
    | written graph doc =>
      obtain ⟨hsyncs, halone, htaken, hempty, hcurrent⟩ := h
      by_cases heq : pending.nodeIri = iri
      · obtain rfl := hsyncs pending hin heq
        have hdone' : (s.runSync env i).store graph iri = if hasTriples iri doc then [doc] else [] := by
          split_ifs with htriples
          · exact hdone htriples (htaken htriples)
          · rw [Bool.not_eq_true] at htriples
            rw [hbare htriples]
            exact hempty htriples
        refine ⟨fun p hp => hsyncs p (hsubset hp), fun graph' hne hout => ?_, htaken, fun htriples => ?_, fun _ => hdone'⟩
        · rw [hother graph' iri fun h => hne h.1]
          exact halone graph' hne hout
        · rw [hdone', htriples]
          rfl
      · have hstore : ∀ graph, (s.runSync env i).store graph iri = s.store graph iri := fun graph =>
          hother graph iri fun h => heq h.2.symm
        refine ⟨fun p hp => hsyncs p (hsubset hp), fun graph' => hstore graph' ▸ halone graph', htaken,
          hstore graph ▸ hempty, fun hidle' => ?_⟩
        rw [hstore]
        refine hcurrent fun p hp => ?_
        obtain ⟨j, hj⟩ := mem_iff_getElem?.1 hp
        by_cases hji : j = i
        · subst hji
          exact Option.some.inj (hpending.symm.trans hj) ▸ heq
        · refine hidle' p ?_
          rw [hrest]
          exact mem_eraseIdx_iff_getElem?.2 ⟨j, hji, hj⟩

theorem Upholds.flushOxigraph (h : Upholds env s iri last) (order : List ℕ) :
    Upholds env (s.flushOxigraph env order) iri last := by
  have hfold : ∀ (order : List ℕ) (s : Blackboard), Upholds env s iri last →
      Upholds env (order.foldl (Blackboard.runSync env) s) iri last := by
    intro order
    induction order with
    | nil => exact fun s h => h
    | cons i order ih => exact fun s h => ih _ (h.runSync i)
  exact hfold _ _ (hfold order s h)

/-- A write or a deletion of another node. -/
theorem Upholds.other (h : Upholds env s iri last)
    (hpending : ∀ pending ∈ s'.pendingSyncs, pending ∈ s.pendingSyncs ∨ pending.nodeIri ≠ iri)
    (hsubset : s.pendingSyncs ⊆ s'.pendingSyncs) (hstore : ∀ graph, s'.store graph iri = s.store graph iri) :
    Upholds env s' iri last := by
  have hidle : SyncIdle s' iri ↔ SyncIdle s iri := by
    refine ⟨fun h p hp => h p (hsubset hp), fun h p hp => ?_⟩
    rcases hpending p hp with hp | hne
    · exact h p hp
    · exact hne
  cases last with
  | untouched => exact hidle.2 h
  | deleted => exact ⟨hidle.2 h.1, fun graph => (hstore graph).trans (h.2 graph)⟩
  | written graph doc =>
    obtain ⟨hsyncs, halone, htaken, hempty, hcurrent⟩ := h
    refine ⟨fun p hp heq => ?_, fun graph' => hstore graph' ▸ halone graph', htaken, hstore graph ▸ hempty,
      fun h => (hstore graph).trans (hcurrent (hidle.1 h))⟩
    rcases hpending p hp with hp | hne
    · exact hsyncs p hp heq
    · exact absurd heq hne

variable {graph : Option String}

/-- A write that the graph can follow. -/
theorem WritesAlone.upholds (h : WritesAlone env s graph iri doc) (hspawns : Spawns graph iri doc s s')
    (hown : s'.store graph iri = s.store graph iri) : Upholds env s' iri (.written graph doc) := by
  refine ⟨fun p hp heq => ?_, fun graph' hne hout => ?_, h.taken, fun htriples => hown.trans (h.bare htriples),
    fun hidle => ?_⟩
  · rw [hspawns.pending] at hp
    rcases mem_append.1 hp with hp | hp
    · exact absurd heq (h.idle p hp)
    · exact mem_singleton.1 hp
  · rw [hspawns.store graph' iri fun hrecord => hout (hrecord.2 ▸ mem_cons_self)]
    exact h.alone graph' hne hout
  · refine absurd rfl (hidle ⟨graph, iri, doc⟩ ?_)
    rw [hspawns.pending]
    exact mem_append_right _ mem_cons_self

/-- The graph follows, once the syncs are done. -/
theorem Upholds.mirrors (h : Upholds env s iri last) (hidle : s.pendingSyncs = []) : Mirrors s iri last := by
  cases last with
  | untouched => trivial
  | deleted => exact h.2
  | written graph doc =>
    obtain ⟨-, halone, -, -, hcurrent⟩ := h
    exact ⟨hcurrent fun p hp => by simp [hidle] at hp, halone⟩

/-! ### Runs -/

variable {last : String → Last}

theorem Spawns.upholds {nodeIri : String} (hspawns : Spawns graph nodeIri doc s s')
    (halone : WritesAlone env s graph nodeIri doc) (hown : s'.store graph nodeIri = s.store graph nodeIri)
    (h : ∀ iri, Upholds env s iri (last iri)) (iri : String) :
    Upholds env s' iri (update last nodeIri (.written graph doc) iri) := by
  by_cases heq : iri = nodeIri
  · subst heq
    rw [update_self]
    exact halone.upholds hspawns hown
  · rw [update_of_ne heq]
    refine (h iri).other (fun p hp => ?_) (fun p hp => ?_) fun graph' => hspawns.store graph' iri fun h => heq h.1
    · rw [hspawns.pending] at hp
      rcases mem_append.1 hp with hp | hp
      · exact .inl hp
      · obtain rfl := mem_singleton.1 hp
        exact .inr (Ne.symm heq)
    · rw [hspawns.pending]
      exact mem_append_left _ hp

/-- **One call** that the graph can follow. -/
theorem upholds_step (htest : env.testMode = false) {op : Op} (hcall : op.IsMirrored) (hfollows : op.Follows env s)
    (hstep : op.step env s = some s') (h : ∀ iri, Upholds env s iri (last iri)) (iri : String) :
    Upholds env s' iri (op.mark env s last iri) := by
  cases op with
  | writeNode now nodeIri jsonLd =>
    cases hstep
    unfold Op.mark
    rcases spawns_writeNode htest s now nodeIri jsonLd with ⟨hdocs, hsame⟩ | ⟨doc, hdocs, hspawns⟩
    · rw [hdocs, hsame]
      exact h iri
    · have halone := hfollows nodeIri doc (hdocs ▸ mem_cons_self)
      rw [hdocs]
      exact hspawns.upholds halone (hspawns.store none nodeIri fun h => (nomatch h.2)) h iri
  | writeNodeToGraph now nodeIri jsonLd graphName =>
    cases hstep
    unfold Op.mark
    rcases spawns_writeNodeToGraph htest s now nodeIri jsonLd graphName with
      ⟨hdocs, hsame⟩ | ⟨doc, hdocs, hspawns, hstore⟩
    · rw [hdocs, hsame]
      exact h iri
    · have halone := hfollows nodeIri doc (hdocs ▸ mem_cons_self)
      rw [hdocs]
      exact hspawns.upholds halone (by rw [hstore]) h iri
  | deleteNode nodeIri =>
    cases hstep
    obtain ⟨hpending, hother, hreached⟩ := @deleteNode_store env s nodeIri
    obtain ⟨hidle, hreaches⟩ := hfollows
    rw [Op.mark]
    by_cases heq : iri = nodeIri
    · subst heq
      rw [update_self]
      refine ⟨fun p hp => hidle p (hpending ▸ hp), fun graph => hreached graph (hreaches graph)⟩
    · rw [update_of_ne heq]
      exact (h iri).other (fun p hp => .inl (hpending ▸ hp)) (fun p hp => hpending ▸ hp) fun graph => hother graph iri heq
  | runSync i =>
    cases hstep
    exact (h iri).runSync i
  | flushOxigraph order =>
    cases hstep
    exact (h iri).flushOxigraph order
  | _ => exact hcall.elim

/-- **The graph follows the last write of every node**, in every run of writes and deletions that it can follow, and for
every order of the threads. -/
theorem mirrors_of_run (htest : env.testMode = false) {store : Option String → String → List Value} {ops : List Op}
    (hcalls : ∀ op ∈ ops, op.IsMirrored)
    (hfollows : ∀ before op r, before ++ [op] <+: ops →
      mirrorRun env (withStore store, fun _ => .untouched) before = some r → op.Follows env r.1)
    {before : List Op} (hbefore : before <+: ops) {r : Blackboard × (String → Last)}
    (hrun : mirrorRun env (withStore store, fun _ => .untouched) before = some r) (order : List ℕ) (iri : String) :
    Mirrors (r.1.flushOxigraph env order) iri (r.2 iri) := by
  have hupholds : ∀ iri, Upholds env r.1 iri (r.2 iri) := by
    clear order iri
    induction before using reverseRecOn generalizing r with
    | nil =>
      cases hrun
      exact fun iri pending hin => (nomatch hin)
    | append_singleton before op ih =>
      unfold mirrorRun at hrun
      rw [foldlM_append] at hrun
      obtain ⟨r₁, hrun₁, hstep⟩ := Option.bind_eq_some_iff.1 hrun
      have hstep' : mirrorStep env r₁ op = some r := by simpa using hstep
      obtain ⟨s', hop, rfl⟩ := Option.map_eq_some_iff.1 hstep'
      have h₁ := ih ((prefix_append before [op]).trans hbefore) hrun₁
      exact upholds_step htest (hcalls op (hbefore.subset mem_concat_self)) (hfollows before op r₁ hbefore hrun₁) hop h₁
  exact ((hupholds iri).flushOxigraph order).mirrors (pendingSyncs_flushOxigraph r.1 order)

/-! ### Threads out of order -/

/-- The sample store, with a thread for every sync. -/
def threadedBoard : BlackboardEnv := { sampleBoard with testMode := false }

/-- A node is written twice. -/
def rewritten : List Op :=
  [.writeNode 0 "iri://task/a/x" "\x7b\"v\":1\x7d", .writeNode 0 "iri://task/a/x" "\x7b\"v\":2\x7d"]

/-- The thread of the second write comes first, and the first document stays. -/
theorem not_mirrors_rewritten : ∃ r, mirrorRun threadedBoard (withStore fun _ _ => [], fun _ => .untouched) rewritten =
    some r ∧ ¬Mirrors (r.1.flushOxigraph threadedBoard [1, 0]) "iri://task/a/x" (r.2 "iri://task/a/x") := by
  refine ⟨_, rfl, ?_⟩
  rintro ⟨hstore, -⟩
  have hdocs : [Value.object [("v", .number (.posInt 1))]] = [Value.object [("v", .number (.posInt 2))]] := hstore
  simp at hdocs

/-- A node is written, flushed and deleted. -/
def withdrawn : List Op :=
  [.writeNode 0 "iri://task/a/x" "\x7b\"v\":1\x7d", .flushOxigraph [0], .deleteNode "iri://task/a/x"]

/-- It leaves nothing. -/
theorem mirrors_withdrawn : ∃ r, mirrorRun threadedBoard (withStore fun _ _ => [], fun _ => .untouched) withdrawn =
    some r ∧ Mirrors (r.1.flushOxigraph threadedBoard []) "iri://task/a/x" (r.2 "iri://task/a/x") := by
  refine ⟨_, rfl, @mirrors_of_run threadedBoard rfl (fun _ _ => []) withdrawn ?_ ?_ withdrawn prefix_rfl _ rfl []
    "iri://task/a/x"⟩
  · intro op hop
    simp only [withdrawn, mem_cons, not_mem_nil, or_false] at hop
    rcases hop with rfl | rfl | rfl <;> trivial
  · intro before op r hwithin hrun
    rcases concat_isPrefix_cons.1 hwithin with ⟨rfl, rfl⟩ | ⟨rest, rfl, hrest⟩
    · cases hrun
      intro iri doc hin
      obtain ⟨rfl, rfl⟩ := Prod.mk.inj (mem_singleton.1 hin)
      exact ⟨fun _ h => (nomatch h), fun _ _ _ => rfl, fun _ => rfl, fun h => (nomatch h)⟩
    rcases concat_isPrefix_cons.1 hrest with ⟨rfl, rfl⟩ | ⟨last, rfl, hlast⟩
    · trivial
    rcases concat_isPrefix_cons.1 hlast with ⟨rfl, rfl⟩ | ⟨none, rfl, hnone⟩
    · cases hrun
      refine ⟨fun _ h => (nomatch h), fun graph hne => ⟨_, rfl, rfl, .inl ?_⟩⟩
      cases graph with
      | none => rfl
      | some graph => exact absurd rfl hne
    · simp at hnone

end WildAgentOs.Memory.Blackboard
