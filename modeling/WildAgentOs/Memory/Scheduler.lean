import Mathlib.Data.List.TakeWhile
import WildAgentOs.Memory.BlackboardRuns

/-!
# The end of a task

`memory/scheduler.rs`: `on_task_complete` stores the dirty nodes of a task, archives its record and evicts
its nodes; `on_run_end` stores them and deletes them.  Both find the nodes of a task by walking down the tree,
where a node stands under the task that `extract_task_iri` reads off its IRI.

* `onTaskComplete`, `onRunEnd`, `Owns`, `Covers`, `covers_iff`.
-/

namespace WildAgentOs.Memory

open Json Text List Option AList

namespace L0Store

/-- An entry with this content. -/
def Holds (l0 : L0Store) (iri content : String) : Prop :=
  ∃ entry, l0.entries.lookup iri = some entry ∧ entry.content = content

end L0Store

namespace Blackboard

/-- `on_task_complete`; the invalidations that it publishes are left out. -/
def onTaskComplete (env : BlackboardEnv) (l0env : L0Env) (fuel : ℕ) (now : ℤ) (order : List ℕ)
    (s : Blackboard) (l0 : L0Store) (taskIri : String) :
    Option ((Blackboard × L0Store) × Except BlackboardError Unit) :=
  if s.taskRecordIsClosed env taskIri then some ((s, l0), .error (.taskNotFound taskIri))
  else
    match s.flushDirtySubtree l0env now l0 taskIri with
    | (state, .error e) => some (state, .error e)
    | ((s, l0), .ok ()) =>
      -- `on_l2_write_for` without tags: the task is marked, and nothing is written through.
      let s := s.markDirty taskIri
      let s := s.flushOxigraph env order
      match s.archiveCompletedTask env now taskIri with
      | (s, .error e) => some ((s, l0), .error e)
      | (s, .ok _) => do
        let s ← s.evictSubtree env fuel taskIri
        return ((s, l0), .ok ())

/-- `on_run_end`: the nodes are deleted even if they could not be stored. -/
def onRunEnd (env : BlackboardEnv) (l0env : L0Env) (fuel : ℕ) (now : ℤ) (s : Blackboard) (l0 : L0Store)
    (taskIri : String) : Option ((Blackboard × L0Store) × Except BlackboardError Unit) :=
  let ((s, l0), flushed) := s.flushDirtySubtree l0env now l0 taskIri
  do
    let s ← s.releaseSubtree env fuel taskIri
    return ((s, l0), flushed)

variable {env : BlackboardEnv} {l0env : L0Env} {now : ℤ} {s s' : Blackboard} {l0 l0' : L0Store}

/-! ### Flushes -/

/-- A node that was flushed. -/
def flushed (node : Node) : Node := { node with dirty := false, mesiState := .shared }

theorem storeEntry_holds (hl0 : l0.Indexed) {entry : L0Entry} (h : l0.storeEntry l0env now entry = .ok l0') :
    l0'.Holds entry.iri entry.content ∧ ∀ iri, iri ≠ entry.iri → l0'.entries.lookup iri = l0.entries.lookup iri := by
  obtain ⟨contentHash, merged, hmerged, rfl⟩ := L0Store.storeEntry_cases h
  have hiri : merged.iri = entry.iri := by
    rw [hmerged]
    exact L0Store.mergedEntry_iri l0env now fun e he => hl0.existing_iri e he
  refine ⟨⟨merged, hiri ▸ lookup_insert _, ?_⟩, fun iri hne => lookup_insert_ne (hiri ▸ hne)⟩
  rw [hmerged]
  unfold L0Store.mergedEntry
  cases (if isLegacyUnscopedToolResultIri entry.iri then none else l0.entries.lookup entry.iri) <;> rfl

/-- What a flush does to one node: nothing, or it is stored. -/
inductive FlushedAt (s : Blackboard) (l0 : L0Store) (s' : Blackboard) (l0' : L0Store) (iri : String) : Prop
  | kept (hnode : s'.nodeCache.lookup iri = s.nodeCache.lookup iri)
      (hentry : l0'.entries.lookup iri = l0.entries.lookup iri)
  | stored (node : Node) (hnode : s.nodeCache.lookup iri = some node)
      (hflushed : s'.nodeCache.lookup iri = some (flushed node)) (hentry : l0'.Holds iri node.jsonLd)

variable {iri : String}

theorem FlushedAt.trans {s₁ : Blackboard} {l0₁ : L0Store} (h₁ : FlushedAt s l0 s₁ l0₁ iri)
    (h₂ : FlushedAt s₁ l0₁ s' l0' iri) : FlushedAt s l0 s' l0' iri := by
  cases h₁ with
  | kept hnode hentry =>
    cases h₂ with
    | kept hnode' hentry' => exact .kept (hnode'.trans hnode) (hentry'.trans hentry)
    | stored node hnode' hflushed hholds => exact .stored node (hnode ▸ hnode') hflushed hholds
  | stored node hnode hflushed hholds =>
    cases h₂ with
    | kept hnode' hentry' =>
      refine .stored node hnode (hnode'.trans hflushed) ?_
      obtain ⟨entry, hentry, hcontent⟩ := hholds
      exact ⟨entry, hentry'.trans hentry, hcontent⟩
    | stored node' hnode' hflushed' hholds' =>
      obtain rfl := some.inj (hflushed.symm.trans hnode')
      exact .stored node hnode hflushed' hholds'

/-- **What a flush does**, whether it comes to its end or not. -/
theorem flushNodes_spec {iris : List String} {outcome : Except BlackboardError Unit}
    (hkeyed : ∀ iri node, s.nodeCache.lookup iri = some node → node.iri = iri) (hl0 : l0.Indexed)
    (h : s.flushNodes l0env now l0 iris = ((s', l0'), outcome)) :
    l0'.Indexed ∧ (∀ iri, FlushedAt s l0 s' l0' iri) ∧
      (∀ iri, iri ∉ iris → s'.nodeCache.lookup iri = s.nodeCache.lookup iri ∧
        l0'.entries.lookup iri = l0.entries.lookup iri) ∧
      (outcome = .ok () → ∀ iri ∈ iris, ∀ node, s.nodeCache.lookup iri = some node →
        s'.nodeCache.lookup iri = some (flushed node) ∧ l0'.Holds iri node.jsonLd) := by
  induction iris generalizing s l0 with
  | nil =>
    obtain ⟨hstate, -⟩ := Prod.mk.inj h
    cases hstate
    exact ⟨hl0, fun iri => .kept rfl rfl, fun iri _ => ⟨rfl, rfl⟩, fun _ iri hin => absurd hin not_mem_nil⟩
  | cons first iris ih =>
    rw [flushNodes] at h
    cases hnode : s.nodeCache.lookup first with
    | none =>
      rw [hnode] at h
      obtain ⟨hindexed, hat, hother, hall⟩ := ih hkeyed hl0 h
      refine ⟨hindexed, hat, fun iri hin => hother iri fun h => hin (mem_cons_of_mem first h),
        fun hok iri hin node hlookup => ?_⟩
      rcases mem_cons.1 hin with rfl | hin
      · cases hnode.symm.trans hlookup
      · exact hall hok iri hin node hlookup
    | some node =>
      rw [hnode] at h
      simp only at h
      have hiri : (flushEntry now node).iri = first := hkeyed first node hnode
      cases hstore : l0.storeEntry l0env now (flushEntry now node) with
      | error e =>
        rw [hstore] at h
        obtain ⟨hstate, rfl⟩ := Prod.mk.inj h
        cases hstate
        exact ⟨hl0, fun iri => .kept rfl rfl, fun iri _ => ⟨rfl, rfl⟩, fun hok => by cases hok⟩
      | ok l0₁ =>
        rw [hstore] at h
        simp only at h
        obtain ⟨hholds, hrest⟩ := storeEntry_holds hl0 hstore
        rw [hiri] at hholds hrest
        generalize hs₁ : ({ s with nodeCache := s.nodeCache.insert first (flushed node) } : Blackboard) = s₁
        have hself : s₁.nodeCache.lookup first = some (flushed node) := by
          rw [← hs₁, lookup_insert]
        have hne : ∀ iri, iri ≠ first → s₁.nodeCache.lookup iri = s.nodeCache.lookup iri := by
          intro iri hne
          rw [← hs₁, lookup_insert_ne hne]
        have hkeyed₁ : ∀ iri node', s₁.nodeCache.lookup iri = some node' → node'.iri = iri := by
          intro iri node' hlookup
          by_cases heq : iri = first
          · subst heq
            obtain rfl := some.inj (hself.symm.trans hlookup)
            exact hkeyed iri node hnode
          · exact hkeyed iri node' (hne iri heq ▸ hlookup)
        obtain ⟨hindexed, hat, hother, hall⟩ := ih hkeyed₁ (hl0.storeEntry hstore) (hs₁ ▸ h)
        have hfirst : ∀ iri, FlushedAt s l0 s₁ l0₁ iri := by
          intro iri
          by_cases heq : iri = first
          · subst heq
            exact .stored node hnode hself hholds
          · exact .kept (hne iri heq) (hrest iri heq)
        refine ⟨hindexed, fun iri => (hfirst iri).trans (hat iri), fun iri hin => ?_,
          fun hok iri hin node' hlookup => ?_⟩
        · rw [mem_cons, not_or] at hin
          obtain ⟨hcache, hentry⟩ := hother iri hin.2
          exact ⟨hcache.trans (hne iri hin.1), hentry.trans (hrest iri hin.1)⟩
        · by_cases heq : iri = first
          · subst heq
            obtain rfl := some.inj (hnode.symm.trans hlookup)
            by_cases hlater : iri ∈ iris
            · exact hall hok iri hlater (flushed node) hself
            · obtain ⟨hcache, hentry⟩ := hother iri hlater
              obtain ⟨entry, hlookup', hcontent⟩ := hholds
              exact ⟨hcache.trans hself, entry, hentry.trans hlookup', hcontent⟩
          · have hin' : iri ∈ iris := (mem_cons.1 hin).resolve_left heq
            exact hall hok iri hin' node' ((hne iri heq).trans hlookup)

/-! ### The walk down the tree -/

variable {taskIri : String} {task : String}

theorem mem_subtreeTasks : task ∈ s.subtreeTasks taskIri ↔ Worklist.Reaches s.childrenOf taskIri task := by
  refine Worklist.mem_visit (U := (s.taskTree.entries.flatMap fun entry => entry.2.children).toFinset)
    (fun parent child hchild => ?_) (Nat.add_le_add_left (toFinset_card_le _) 1)
  rw [List.mem_toFinset, mem_flatMap]
  unfold childrenOf at hchild
  cases hnode : s.taskTree.lookup parent with
  | none =>
    rw [hnode] at hchild
    cases hchild
  | some node =>
    rw [hnode] at hchild
    exact ⟨⟨parent, node⟩, mem_lookup_iff.1 hnode, hchild⟩

theorem mem_subtreeNodeIris : iri ∈ s.subtreeNodeIris taskIri ↔
    ∃ task, Worklist.Reaches s.childrenOf taskIri task ∧ iri ∈ s.nodesOf task := by
  unfold subtreeNodeIris
  rw [mem_dedup, mem_flatMap]
  simp only [mem_subtreeTasks]

variable {fuel : ℕ}

theorem mem_released {tasks : List String} (h : s.tasksToRelease fuel taskIri = some tasks) :
    iri ∈ tasks.flatMap s.nodesOf ↔ ∃ task, Worklist.Reaches s.childrenOf taskIri task ∧ iri ∈ s.nodesOf task := by
  rw [mem_flatMap]
  simp only [Worklist.mem_expand h, mem_singleton, exists_eq_left]

/-! ### The nodes of a task -/

/-- The task that is read off an IRI is the IRI itself, or stands above it. -/
theorem eq_or_under_of_extractTaskIri (h : extractTaskIri iri = some task) :
    iri = task ∨ (task ++ "/").toList <+: iri.toList := by
  have hof : ∀ front rest : List Char, iri.toList = front ++ rest → (rest = [] ∨ ∃ after, rest = '/' :: after) →
      iri = String.ofList front ∨ (String.ofList front ++ "/").toList <+: iri.toList := by
    rintro front rest hiri (rfl | ⟨after, rfl⟩)
    · rw [append_nil] at hiri
      exact .inl (by rw [← hiri, String.ofList_toList])
    · refine .inr ⟨after, ?_⟩
      rw [hiri, String.toList_append, String.toList_ofList, append_assoc]
      rfl
  have hsplit : ∀ rest : List Char, rest.dropWhile (· ≠ '/') = [] ∨
      ∃ after, rest.dropWhile (· ≠ '/') = '/' :: after := by
    intro rest
    cases hdrop : rest.dropWhile (· ≠ '/') with
    | nil => exact .inl rfl
    | cons c after =>
      have hhead := head?_dropWhile_not (· ≠ '/') rest
      rw [hdrop] at hhead
      simp at hhead
      exact .inr ⟨after, hhead ▸ rfl⟩
  unfold extractTaskIri at h
  cases htask : stripStart "iri://task/".toList iri.toList with
  | some rest =>
    rw [htask] at h
    cases h
    refine hof _ (rest.dropWhile (· ≠ '/')) ?_ (hsplit rest)
    rw [append_assoc, takeWhile_append_dropWhile]
    exact stripStart_eq_some.1 htask
  | none =>
    rw [htask] at h
    simp only at h
    cases hns : stripStart "iri://".toList iri.toList with
    | none =>
      rw [hns] at h
      cases h
    | some rest =>
      rw [hns] at h
      simp only at h
      have hiri := stripStart_eq_some.1 hns
      cases hdrop : rest.dropWhile (· ≠ '/') with
      | nil =>
        rw [hdrop] at h
        cases h
        refine hof _ [] ?_ (.inl rfl)
        rw [hiri, append_assoc, ← hdrop, takeWhile_append_dropWhile]
      | cons sep after =>
        rw [hdrop] at h
        cases h
        refine hof _ (after.dropWhile (· ≠ '/')) ?_ (hsplit after)
        rw [hiri]
        simp only [append_assoc, cons_append, takeWhile_append_dropWhile]
        rw [← hdrop, takeWhile_append_dropWhile]

/-- The nodes of a task: its own, those under it, and those of the tasks that were registered below it. -/
def Owns (ops : List Op) (taskIri iri : String) : Prop :=
  ∃ task, Worklist.Reaches (registered ops) taskIri task ∧ (iri = task ∨ (task ++ "/").toList <+: iri.toList)

/-- The end of a task covers its nodes, and no others. -/
structure Covers (ops : List Op) (taskIri : String) (s : Blackboard) (l0 : L0Store) (s' : Blackboard)
    (l0' : L0Store) : Prop where
  stored : ∀ iri, Owns ops taskIri iri → ∀ node, s.nodeCache.lookup iri = some node → node.dirty = true →
    l0'.Holds iri node.jsonLd
  evicted : ∀ iri, Owns ops taskIri iri → s'.nodeCache.lookup iri = none
  others : ∀ iri, ¬Owns ops taskIri iri → s'.nodeCache.lookup iri = s.nodeCache.lookup iri ∧
    l0'.entries.lookup iri = l0.entries.lookup iri

/-- The walk from a task meets a node: the task that is read off its IRI is linked below, and lists it. -/
def Met (s : Blackboard) (taskIri iri : String) : Prop :=
  ∃ task, extractTaskIri iri = some task ∧ Worklist.Reaches s.childrenOf taskIri task ∧ iri ∈ s.nodesOf task

theorem lookup_markDirty_ne (h : iri ≠ taskIri) :
    (s.markDirty taskIri).nodeCache.lookup iri = s.nodeCache.lookup iri := by
  unfold markDirty
  cases hnode : s.nodeCache.lookup taskIri with
  | none => rfl
  | some node => exact lookup_insert_ne h

variable {result : Blackboard × Except BlackboardError Bool}

theorem Archives.lookup_ne (h : Archives env s taskIri result)
    (hne : iri ≠ taskIri) : result.1.nodeCache.lookup iri = s.nodeCache.lookup iri := by
  cases h with
  | fails hsyncs =>
    obtain ⟨_, _, _, rfl⟩ := hsyncs
    rfl
  | finds_none _ => rfl
  | replaces size jsonLd hsyncs hnode _ =>
    obtain ⟨_, _, _, rfl⟩ := hsyncs
    exact lookup_insert_ne hne

theorem lookup_insert_eq_none {iri' : String} {node node' : Node} (h : s.nodeCache.lookup iri = some node) :
    (s.nodeCache.insert iri node').lookup iri' = none ↔ s.nodeCache.lookup iri' = none := by
  by_cases heq : iri' = iri
  · rw [heq, lookup_insert, h]
    simp
  · rw [lookup_insert_ne heq]

theorem lookup_markDirty_eq_none :
    (s.markDirty taskIri).nodeCache.lookup iri = none ↔ s.nodeCache.lookup iri = none := by
  unfold markDirty
  cases hnode : s.nodeCache.lookup taskIri with
  | none => rfl
  | some node => exact lookup_insert_eq_none hnode

theorem Archives.lookup_eq_none (h : Archives env s taskIri result) :
    result.1.nodeCache.lookup iri = none ↔ s.nodeCache.lookup iri = none := by
  cases h with
  | fails hsyncs =>
    obtain ⟨_, _, _, rfl⟩ := hsyncs
    rfl
  | finds_none _ => rfl
  | replaces size jsonLd hsyncs hnode _ =>
    obtain ⟨_, _, _, rfl⟩ := hsyncs
    exact lookup_insert_eq_none hnode

theorem onTaskComplete_cases {order : List ℕ}
    (h : onTaskComplete env l0env fuel now order s l0 taskIri = some ((s', l0'), .ok ())) :
    ∃ s₁ s₂ tasks, s.flushDirtySubtree l0env now l0 taskIri = ((s₁, l0'), .ok ()) ∧
      Edits s₁ s₂ ∧ (∀ iri, iri ≠ taskIri → s₂.nodeCache.lookup iri = s₁.nodeCache.lookup iri) ∧
      (∀ iri, s₂.nodeCache.lookup iri = none ↔ s₁.nodeCache.lookup iri = none) ∧
      s₂.tasksToRelease fuel taskIri = some tasks ∧ Releases s₂ tasks s' := by
  unfold onTaskComplete at h
  split_ifs at h
  · cases h
  rcases hflush : s.flushDirtySubtree l0env now l0 taskIri with ⟨⟨s₁, l0₁⟩, _ | _⟩
  · rw [hflush] at h
    cases h
  rw [hflush] at h
  simp only at h
  have hmarked : Edits s₁ ((s₁.markDirty taskIri).flushOxigraph env order) :=
    (edits_markDirty s₁ taskIri).trans (syncs_flushOxigraph _ order).edits
  have hother : ∀ iri, iri ≠ taskIri → ((s₁.markDirty taskIri).flushOxigraph env order).nodeCache.lookup iri =
      s₁.nodeCache.lookup iri := by
    intro iri hne
    obtain ⟨_, _, _, heq⟩ := @syncs_flushOxigraph env (s₁.markDirty taskIri) order
    rw [heq]
    exact lookup_markDirty_ne hne
  have hnone : ∀ iri, ((s₁.markDirty taskIri).flushOxigraph env order).nodeCache.lookup iri = none ↔
      s₁.nodeCache.lookup iri = none := by
    intro iri
    obtain ⟨_, _, _, heq⟩ := @syncs_flushOxigraph env (s₁.markDirty taskIri) order
    rw [heq]
    exact lookup_markDirty_eq_none
  generalize (s₁.markDirty taskIri).flushOxigraph env order = sm at h hmarked hother hnone
  have harchives := @archives_archiveCompletedTask env sm now taskIri
  rcases harchive : sm.archiveCompletedTask env now taskIri with ⟨s₂, _ | _⟩
  · rw [harchive] at h
    cases h
  rw [harchive] at h harchives
  obtain ⟨s₃, hevict, h⟩ := bind_eq_some_iff.1 h
  obtain ⟨hstate, -⟩ := Prod.mk.inj (some.inj h)
  cases hstate
  obtain ⟨tasks, htasks, hreleases⟩ := releases_evictSubtree hevict
  exact ⟨s₁, s₂, tasks, rfl, hmarked.trans harchives.edits,
    fun iri hne => (harchives.lookup_ne hne).trans (hother iri hne),
    fun iri => harchives.lookup_eq_none.trans (hnone iri), htasks, hreleases⟩

/-- **The end of a task covers it, exactly if the walk meets its nodes**: those of the task itself and of
the tasks registered below it, as far as they are cached.  The handle may be read-only. -/
theorem covers_iff {store : Option String → String → List Value} {ops : List Op}
    {toJson : Value → String} {l0ops : List L0Store.Op} {writable : Bool} {fuel : ℕ} {order : List ℕ}
    {taskIri : String} (hrun : run env (withStore store) ops = some s)
    (hl0 : L0Store.run l0env toJson l0ops = .ok l0)
    (h : onTaskComplete env l0env fuel now order s { l0 with writable } taskIri = some ((s', l0'), .ok ())) :
    Covers ops taskIri s { l0 with writable } s' l0' ↔
      ∀ iri, Owns ops taskIri iri → s.nodeCache.lookup iri ≠ none → Met s taskIri iri := by
  have htracks := (@Tracks.withStore (fun _ => []) True store).of_run hrun
  have hindexed : L0Store.Indexed { l0 with writable } :=
    have hreached := L0Store.Indexed.of_run hl0
    ⟨hreached.iri_eq, hreached.posting_iff, hreached.proper⟩
  obtain ⟨s₁, s₂, tasks, hflush, hedits, hothers, hnone, htasks, hreleases⟩ := onTaskComplete_cases h
  obtain ⟨-, hat, hrest, hall⟩ := flushNodes_spec htracks.iri_eq hindexed hflush
  have hflushed : Edits s s₁ := by
    have hstate := edits_flushNodes l0env now s { l0 with writable } (s.dirtyIris (s.subtreeNodeIris taskIri))
    unfold flushDirtySubtree at hflush
    rwa [hflush] at hstate
  have hwalk : Edits s s₂ := hflushed.trans hedits
  -- The nodes that are evicted are those that the walk meets.
  have hmet : ∀ iri, iri ∈ tasks.flatMap s₂.nodesOf ↔ Met s taskIri iri := by
    intro iri
    rw [mem_released htasks, hwalk.children, hwalk.nodes]
    constructor
    · rintro ⟨task, hreaches, hin⟩
      exact ⟨task, htracks.key_eq task iri hin, hreaches, hin⟩
    · rintro ⟨task, -, hreaches, hin⟩
      exact ⟨task, hreaches, hin⟩
  have howns : ∀ iri, Met s taskIri iri → Owns ops taskIri iri := by
    rintro iri ⟨task, hkey, hreaches, -⟩
    refine ⟨task, ?_, eq_or_under_of_extractTaskIri hkey⟩
    refine Relation.ReflTransGen.mono (fun parent child hchild => ?_) taskIri task hreaches
    simpa using htracks.linked parent child hchild
  have hnone₁ : ∀ iri, s₁.nodeCache.lookup iri = none ↔ s.nodeCache.lookup iri = none := by
    intro iri
    cases hat iri with
    | kept hnode _ => rw [hnode]
    | stored node hnode hnode' _ => simp [hnode, hnode']
  constructor
  · intro hcovers iri hiri hcached
    by_contra hunmet
    have hevicted := hcovers.evicted iri hiri
    rw [hreleases.lookup, if_neg (mt (hmet iri).1 hunmet), hnone, hnone₁] at hevicted
    exact hcached hevicted
  · intro hall'
    refine ⟨fun iri hiri node hnode hdirty => ?_, fun iri hiri => ?_, fun iri hiri => ?_⟩
    · obtain ⟨task, -, hreaches, hin⟩ := hall' iri hiri (hnode ▸ some_ne_none node)
      have hdirtyIri : iri ∈ s.dirtyIris (s.subtreeNodeIris taskIri) := by
        refine mem_filter.2 ⟨mem_subtreeNodeIris.2 ⟨task, hreaches, hin⟩, ?_⟩
        rw [hnode]
        exact hdirty
      exact (hall rfl iri hdirtyIri node hnode).2
    · rw [hreleases.lookup]
      split_ifs with hin
      · rfl
      · rw [hnone, hnone₁]
        by_contra hcached
        exact hin ((hmet iri).2 (hall' iri hiri hcached))
    · have hunmet : ¬Met s taskIri iri := mt (howns iri) hiri
      have hne : iri ≠ taskIri := by
        rintro rfl
        exact hiri ⟨iri, .refl, .inl rfl⟩
      have hclean : iri ∉ s.dirtyIris (s.subtreeNodeIris taskIri) := by
        intro hin
        obtain ⟨task, hreaches, hin⟩ := mem_subtreeNodeIris.1 (mem_filter.1 hin).1
        exact hunmet ⟨task, htracks.key_eq task iri hin, hreaches, hin⟩
      obtain ⟨hcache, hentry⟩ := hrest iri hclean
      refine ⟨?_, hentry⟩
      rw [hreleases.lookup, if_neg (mt (hmet iri).1 hunmet), hothers iri hne, hcache]

/-! ### The two forms of a task IRI -/

/-! ### A production task -/

/-- Texts, as `serde_json` reads them. -/
def sampleTexts : List (String × Value) :=
  [("1", .number (.posInt 1)), ("2", .number (.posInt 2)), ("\x7b\"v\":1\x7d", .object [("v", .number (.posInt 1))]),
    ("\x7b\"v\":2\x7d", .object [("v", .number (.posInt 2))]),
    ("\x7b\"role\":\"PA\"\x7d", .object [("role", .string "PA")]),
    ("\x7b\"role\":\"DA\"\x7d", .object [("role", .string "DA")])]

/-- A store that takes every update. -/
def sampleBoard : BlackboardEnv where
  fromStr text := match sampleTexts.lookup text with
    | some doc => .ok doc
    | none => .error "expected value"
  toString _ := ""
  toRfc3339 _ := ""
  parseFromRfc3339 _ := none
  update _ _ _ := .ok ()
  deletes _ _ := true
  isNamedNode _ := true
  archiveFirst := false
  testMode := true
  maxNodeSize := 1024

/-- A node that is written twice. -/
def twice (nodeIri : String) : List Op :=
  [.writeNode 0 nodeIri "\x7b\"v\":1\x7d", .writeNode 0 nodeIri "\x7b\"v\":2\x7d"]

/-- The node of a production task is dirty, is not stored, and stays in the cache. -/
theorem not_covers_productionTask : ∃ s s' l0',
    run sampleBoard (withStore fun _ _ => []) (twice "iri://task_a/result") = some s ∧
      onTaskComplete sampleBoard L0Store.sampleEnv 1 0 [] s (L0Store.new true) "iri://task_a" =
        some ((s', l0'), .ok ()) ∧
      ¬Covers (twice "iri://task_a/result") "iri://task_a" s (L0Store.new true) s' l0' := by
  refine ⟨_, _, _, rfl, rfl, fun hcovers => ?_⟩
  have hevicted := hcovers.evicted "iri://task_a/result" ⟨"iri://task_a", .refl, .inr (by decide)⟩
  cases hevicted

/-- The node of a task with the other form of IRI is stored and evicted. -/
theorem covers_iff_task : ∃ s s' l0', run sampleBoard (withStore fun _ _ => []) (twice "iri://task/a/result") = some s ∧
      onTaskComplete sampleBoard L0Store.sampleEnv 1 0 [] s (L0Store.new true) "iri://task/a" =
        some ((s', l0'), .ok ()) ∧
      Covers (twice "iri://task/a/result") "iri://task/a" s (L0Store.new true) s' l0' := by
  refine ⟨_, _, _, rfl, rfl, (@covers_iff sampleBoard L0Store.sampleEnv 0 _ _ (L0Store.new true) _
    (fun _ _ => []) (twice "iri://task/a/result") (fun _ => "") [] true 1 [] "iri://task/a" rfl rfl rfl).2 ?_⟩
  intro iri _ hcached
  have hmem : iri ∈ ["iri://task/a/result"] := lookup_isSome.1 (isSome_iff_ne_none.2 hcached)
  obtain rfl := mem_singleton.1 hmem
  exact ⟨"iri://task/a", by decide, .refl, by decide⟩

end Blackboard

end WildAgentOs.Memory
