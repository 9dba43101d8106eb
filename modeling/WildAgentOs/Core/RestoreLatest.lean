import WildAgentOs.Core.CheckpointHistory

/-!
# The latest checkpoint

`restore_latest` answers from the index of its process, or else from the first hundred entries under the
prefix of the task.  The index knows nothing of what other processes have created; the scan sees the keys
in the order of their texts, with the envelopes and with the tasks below.  And the numbers of the
checkpoints start over with each process.

* `Survives`;
* `InSight`: when `restore_latest` sees it; `restoreLatest_eq_iff`;
* `survives_iff`.
-/

namespace WildAgentOs.Core

open Memory L0Store KeyScan List

namespace Checkpoints

variable {env : CheckpointEnv} {t : Tracked}

/-- Among the first hundred entries under the prefix of the task. -/
def Scanned (t : Tracked) (taskIri : String) (item : Item) : Prop :=
  item ∈ t.live ∧ startsWith (checkpointPrefix taskIri) item.iri = true ∧
    scanRank (t.live.map Item.iri) (checkpointPrefix taskIri) item.iri < 100

/-- `restore_latest` sees the latest checkpoint of the task, or that there is none.  With an index: it is
not empty, or there is nothing it could miss.  Without one: the checkpoint is among the entries that are
scanned, and newer than the other checkpoints there. -/
def InSight (t : Tracked) (taskIri : String) : Prop :=
  match t.state.manager.taskCheckpoints.lookup taskIri with
  | some iris => iris = [] → liveOf t taskIri = []
  | none =>
    match (liveOf t taskIri).getLast? with
    | some latest => Scanned t taskIri (.checkpoint latest) ∧
        ∀ other, Scanned t taskIri (.checkpoint other) → other ≠ latest → other.createdAt < latest.createdAt
    | none => ∀ other, ¬Scanned t taskIri (.checkpoint other)

/-- What is created later has a later time. -/
def TimesIncrease (t : Tracked) : Prop := (t.created.map Item.createdAt).Pairwise (· < ·)

theorem eq_of_createdAt (h : Holds env t) (htimes : TimesIncrease t) {a b : Item} (ha : a ∈ t.live)
    (hb : b ∈ t.live) (heq : a.createdAt = b.createdAt) : a = b := by
  have hnodup : (t.created.map Item.createdAt).Nodup := htimes.imp fun hlt => ne_of_lt hlt
  exact inj_on_of_nodup_map hnodup (h.sub.subset ha) (h.sub.subset hb) heq

variable {taskIri : String}

/-- What the items read back as. -/
theorem filterMap_contents (h : Holds env t) (hcodec : ∀ item ∈ t.created, item.ReadsBack env)
    {datas : List CheckpointData} (hdatas : ∀ data ∈ datas, data ∈ liveOf t taskIri) :
    (datas.map CheckpointData.checkpointIri).filterMap
      (fun iri => (contents env t.live iri).bind env.checkpointFromStr) = datas := by
  rw [filterMap_map]
  have hread : ∀ data ∈ datas, ((contents env t.live data.checkpointIri).bind env.checkpointFromStr) = some data := by
    intro data hdata
    obtain ⟨hlive, -⟩ := mem_liveOf.1 (hdatas data hdata)
    rw [show data.checkpointIri = (Item.checkpoint data).iri from rfl, contents_of_mem h.nodup hlive]
    exact hcodec _ (h.sub.subset hlive)
  exact (filterMap_congr hread).trans filterMap_some

/-- **The answer of the index.** -/
theorem restoreLatest_index (h : Holds env t) (hmean : env.l0.mean half half = half)
    (hcodec : ∀ item ∈ t.created, item.ReadsBack env) (now : ℤ) {iris : List String}
    (hindex : t.state.manager.taskCheckpoints.lookup taskIri = some iris) :
    (t.state.restoreLatest env now taskIri).1 = if iris = [] then none else (liveOf t taskIri).getLast? := by
  obtain ⟨older, holder⟩ := h.index taskIri iris hindex
  -- The index lists the newest of the checkpoints.
  have hiris : iris = ((liveOf t taskIri).drop older.length).map CheckpointData.checkpointIri := by
    rw [map_drop, holder, drop_left]
  have hresults := (retrieveCheckpoints_eq hmean now iris.reverse h.represents).1
  have hdrop : ∀ data ∈ ((liveOf t taskIri).drop older.length).reverse, data ∈ liveOf t taskIri :=
    fun data hdata => mem_of_mem_drop (mem_reverse.1 hdata)
  have hanswer : (retrieveCheckpoints env now t.state.l0 iris.reverse).1 =
      ((liveOf t taskIri).drop older.length).reverse := by
    rw [hresults, hiris, ← map_reverse]
    exact filterMap_contents h hcodec hdrop
  have hhead : (t.state.restoreLatest env now taskIri).1 =
      (((liveOf t taskIri).drop older.length).reverse.take 1).head? := by
    unfold restoreLatest list
    rw [hindex]
    simp only [hanswer]
  rw [hhead, head?_take, if_neg Nat.one_ne_zero, head?_reverse]
  split_ifs with hnil
  · rw [hnil] at hiris
    rw [map_eq_nil_iff.1 hiris.symm]
    rfl
  · rw [getLast?_drop, if_neg]
    intro hle
    refine hnil ?_
    rw [hiris, drop_eq_nil_of_le hle]
    rfl

/-- **The checkpoints that a scan sees.** -/
theorem exists_scan (h : Holds env t) (hcodec : ∀ item ∈ t.created, item.ReadsBack env) (taskIri : String) :
    ∃ entries, t.state.l0.scanIriPrefix env.l0 (checkpointPrefix taskIri) 100 = .ok entries ∧
      ∀ data, data ∈ (entries.filterMap fun entry => env.checkpointFromStr entry.content) ↔
        Scanned t taskIri (.checkpoint data) := by
  obtain ⟨rows, hscan, -, hcontents, hmem⟩ := h.represents.scan h.nodup
    (fun _ => contents_ne_none.symm) (checkpointPrefix taskIri) (by decide : 0 < 100)
  refine ⟨rows.map (·.2), hscan, fun data => ?_⟩
  have hrow : ∀ row ∈ rows, ∃ item ∈ t.live, item.iri = row.1 ∧ row.2.content = item.content env := by
    intro row hrow
    obtain ⟨item, hitem, hiri⟩ := mem_map.1 ((hmem row.1).1 (mem_map_of_mem hrow)).1
    refine ⟨item, hitem, hiri, ?_⟩
    have hcontent : contents env t.live _ = _ := contents_of_mem h.nodup hitem
    rw [hiri, hcontents row hrow] at hcontent
    exact Option.some.inj hcontent
  rw [filterMap_map, mem_filterMap]
  constructor
  · rintro ⟨row, hin, hread⟩
    obtain ⟨item, hitem, hiri, hcontent⟩ := hrow row hin
    have hback := hcodec item (h.sub.subset hitem)
    have heq : item = .checkpoint data := by
      change env.checkpointFromStr row.2.content = some data at hread
      rw [hcontent] at hread
      cases item with
      | checkpoint data' =>
        rw [show (Item.checkpoint data').content env = env.checkpointToString data' from rfl, hback]
          at hread
        rw [Option.some.inj hread]
      | envelope written =>
        rw [show (Item.envelope written).content env = env.envelopeToString written from rfl, hback.1] at hread
        cases hread
    obtain ⟨-, hstarts, hrank⟩ := (hmem row.1).1 (mem_map_of_mem hin)
    subst heq
    exact ⟨hitem, hiri ▸ hstarts, hiri ▸ hrank⟩
  · rintro ⟨hitem, hstarts, hrank⟩
    obtain ⟨row, hin, hiri⟩ := mem_map.1
      ((hmem data.checkpointIri).2 ⟨mem_map_of_mem hitem, hstarts, hrank⟩)
    refine ⟨row, hin, ?_⟩
    have hcontent : contents env t.live _ = _ := contents_of_mem h.nodup hitem
    rw [show (Item.checkpoint data).iri = row.1 from hiri.symm, hcontents row hin] at hcontent
    show env.checkpointFromStr row.2.content = some data
    rw [Option.some.inj hcontent]
    exact hcodec _ (h.sub.subset hitem)

/-- **`restore_latest` is right exactly if it sees the latest checkpoint.** -/
theorem restoreLatest_eq_iff (h : Holds env t) (hmean : env.l0.mean half half = half)
    (hcodec : ∀ item ∈ t.created, item.ReadsBack env) (htimes : TimesIncrease t) (now : ℤ) (taskIri : String) :
    (t.state.restoreLatest env now taskIri).1 = (liveOf t taskIri).getLast? ↔ InSight t taskIri := by
  unfold InSight
  cases hindex : t.state.manager.taskCheckpoints.lookup taskIri with
  | some iris =>
    rw [restoreLatest_index h hmean hcodec now hindex]
    simp only
    split_ifs with hnil
    · rw [eq_comm, getLast?_eq_none_iff]
      exact ⟨fun hlive _ => hlive, fun hlive => hlive hnil⟩
    · exact ⟨fun _ h => absurd h hnil, fun _ => rfl⟩
  | none =>
    obtain ⟨entries, hscan, hmem⟩ := exists_scan h hcodec taskIri
    have hanswer : (t.state.restoreLatest env now taskIri).1 =
        ((entries.filterMap fun entry => env.checkpointFromStr entry.content).mergeSort
          fun a b => decide (b.createdAt ≤ a.createdAt)).head? := by
      unfold restoreLatest list
      rw [hindex]
      simp only [hscan]
      rw [head?_take, if_neg Nat.one_ne_zero]
    rw [hanswer]
    simp only
    cases hlatest : (liveOf t taskIri).getLast? with
    | some latest =>
      have hin : Item.checkpoint latest ∈ t.live := (mem_liveOf.1 (mem_of_getLast? hlatest)).1
      rw [head?_mergeSort]
      · simp only [hmem]
      · intro data hdata heq
        exact Item.checkpoint.inj (eq_of_createdAt h htimes ((hmem data).1 hdata).1 hin heq)
    | none =>
      rw [head?_eq_none_iff, ← length_eq_zero_iff, length_mergeSort, length_eq_zero_iff, eq_nil_iff_forall_not_mem]
      simp only [hmem]

/-! ### Histories -/

/-- A `create` leaves the checkpoints that are there as they are. -/
def KeepsCheckpoints (env : CheckpointEnv) (t : Tracked) (op : Op) : Prop :=
  ∀ now args, op = .create now args → ∀ data, .checkpoint data ∈ t.live →
    ((t.step env op).state.l0.entries.lookup data.checkpointIri).map L0Entry.content =
      some (env.checkpointToString data)

/-- In every state no checkpoint is overwritten, and the latest one of each task is restored. -/
structure Survives (env : CheckpointEnv) (ops : List Op) : Prop where
  keeps : ∀ before op after, ops = before ++ op :: after → KeepsCheckpoints env (track env before) op
  restores : ∀ before after, ops = before ++ after → ∀ now taskIri,
    ((track env before).state.restoreLatest env now taskIri).1 = (liveOf (track env before) taskIri).getLast?

/-- A checkpoint gets a number that no checkpoint of its path has, which was not deleted. -/
def FreshNumber (t : Tracked) (op : Op) : Prop :=
  ∀ now args, op = .create now args → ∀ data, .checkpoint data ∈ t.live →
    data.checkpointIri ≠ checkpointIri args.taskIri t.state.manager.counter

theorem created_append (env : CheckpointEnv) (before after : List Op) :
    (track env before).created <+: (track env (before ++ after)).created := by
  induction after using reverseRecOn with
  | nil => rw [append_nil]
  | append_singleton after op ih =>
    rw [← append_assoc, track_concat]
    exact ih.trans (prefix_append _ _)

theorem created_iri (env : CheckpointEnv) (ops : List Op) : ∀ item ∈ (track env ops).created, match item with
    | .checkpoint data => ∃ taskIri seq, data.checkpointIri = checkpointIri taskIri seq
    | .envelope written => ∃ uuid ∈ ops.filterMap Op.uuid?, ∃ taskIri seq,
      written.envelopeIri = envelopeIri taskIri seq uuid := by
  induction ops using reverseRecOn with
  | nil => exact fun item hitem => nomatch hitem
  | append_singleton ops op ih =>
    intro item hitem
    rw [track_concat] at hitem
    have hmono : ∀ uuid ∈ ops.filterMap Op.uuid?, uuid ∈ (ops ++ [op]).filterMap Op.uuid? := by
      intro uuid huuid
      rw [filterMap_append]
      exact mem_append_left _ huuid
    rcases mem_append.1 hitem with hold | hnew
    · have := ih item hold
      cases item with
      | checkpoint data => exact this
      | envelope written =>
        obtain ⟨uuid, huuid, hiri⟩ := this
        exact ⟨uuid, hmono uuid huuid, hiri⟩
    · rw [Option.mem_toList] at hnew
      cases op with
      | create now args =>
        cases hnew
        exact ⟨args.taskIri, _, rfl⟩
      | writePdcaEnvelope now uuid taskIri step claims tools =>
        cases claims with
        | none => cases hnew
        | some claims =>
          cases hnew
          refine ⟨uuid, ?_, taskIri, _, rfl⟩
          rw [filterMap_append]
          exact mem_append_right _ (mem_singleton_self uuid)
      | delete now iri => cases hnew
      | restoreLatest now taskIri => cases hnew
      | restart => cases hnew

/-- The uuids are what they should be: well formed, and none is drawn twice. -/
structure UuidsUnique (ops : List Op) : Prop where
  isUuid : ∀ uuid ∈ ops.filterMap Op.uuid?, IsUuid uuid
  nodup : (ops.filterMap Op.uuid?).Nodup

theorem UuidsUnique.left {ops rest : List Op} (h : UuidsUnique (ops ++ rest)) : UuidsUnique ops := by
  obtain ⟨hform, hnodup⟩ := h
  rw [filterMap_append] at hform hnodup
  exact ⟨fun uuid huuid => hform uuid (mem_append_left _ huuid), (nodup_append.1 hnodup).1⟩

/-- With a new number, or a new uuid, an item has a new IRI. -/
theorem freshItem (ops : List Op) {op : Op} (huuids : UuidsUnique (ops ++ [op]))
    (hsub : (track env ops).live.Sublist (track env ops).created)
    (hfresh : FreshNumber (track env ops) op) : FreshItem env (track env ops) op := by
  intro item hitem hmem
  obtain ⟨other, hother, heq⟩ := mem_map.1 hmem
  have hnames := created_iri env ops other (hsub.subset hother)
  obtain ⟨hform, hnodup⟩ := huuids
  rw [filterMap_append] at hform hnodup
  cases op with
  | create now args =>
    cases hitem
    cases other with
    | checkpoint data => exact hfresh now args rfl data hother heq
    | envelope written =>
      obtain ⟨uuid, huuid, taskIri, seq, hiri⟩ := hnames
      have hsame : checkpointIri args.taskIri (track env ops).state.manager.counter =
          envelopeIri taskIri seq uuid := heq.symm.trans hiri
      exact checkpointIri_ne_envelopeIri (hform uuid (mem_append_left _ huuid)) hsame
  | writePdcaEnvelope now uuid taskIri step claims tools =>
    cases claims with
    | none => cases hitem
    | some claims =>
      cases hitem
      have huuid := hform uuid (mem_append_right _ (mem_singleton_self uuid))
      cases other with
      | checkpoint data =>
        obtain ⟨taskIri', seq, hiri⟩ := hnames
        have hsame : checkpointIri taskIri' seq =
            envelopeIri taskIri (track env ops).state.manager.counter uuid := hiri.symm.trans heq
        exact checkpointIri_ne_envelopeIri huuid hsame
      | envelope written =>
        obtain ⟨uuid', huuid', taskIri', seq, hiri⟩ := hnames
        have hne : uuid' ≠ uuid := (nodup_append.1 hnodup).2.2 uuid' huuid' uuid (mem_singleton_self uuid)
        have hsame : envelopeIri taskIri' seq uuid' =
            envelopeIri taskIri (track env ops).state.manager.counter uuid := hiri.symm.trans heq
        exact envelopeIri_ne (hform uuid' (mem_append_left _ huuid')) huuid hne hsame
  | delete now iri => cases hitem
  | restoreLatest now taskIri => cases hitem
  | restart => cases hitem

variable {ops : List Op}

/-- As long as no number is used twice, the invariant holds. -/
theorem holds_of_freshNumbers (hmean : env.l0.mean half half = half) (huuids : UuidsUnique ops)
    (hfresh : ∀ before op after, ops = before ++ op :: after → FreshNumber (track env before) op) :
    Holds env (track env ops) := by
  induction ops using reverseRecOn with
  | nil => exact holds_nil env
  | append_singleton ops op ih =>
    have hholds := ih huuids.left fun before op' after heq =>
      hfresh before op' (after ++ [op]) (by rw [heq]; simp)
    rw [track_concat]
    exact hholds.step hmean (freshItem ops huuids hholds.sub (hfresh ops op [] rfl))

/-- **A checkpoint is overwritten exactly if its number is used again.** -/
theorem keepsCheckpoints_iff (hmean : env.l0.mean half half = half) {op : Op} (hholds : Holds env (track env ops))
    (huuids : UuidsUnique (ops ++ [op])) (hcodec : ∀ item ∈ (track env (ops ++ [op])).created, item.ReadsBack env)
    (htimes : TimesIncrease (track env (ops ++ [op]))) :
    KeepsCheckpoints env (track env ops) op ↔ FreshNumber (track env ops) op := by
  rw [track_concat] at hcodec htimes
  constructor
  · rintro hkeeps now args rfl data hdata hiri
    have hkept := hkeeps now args rfl data hdata
    generalize hnew : checkpointData env now (track env ops).state.manager.counter args = new at *
    have hcreated : ((track env ops).step env (.create now args)).created =
        (track env ops).created ++ [.checkpoint new] := by
      rw [← hnew]
      rfl
    rw [hcreated] at hcodec
    unfold TimesIncrease at htimes
    rw [hcreated, map_append, pairwise_append] at htimes
    have hnewIri : new.checkpointIri = data.checkpointIri := by
      rw [hiri, ← hnew]
      rfl
    -- What lies under the IRI now is the new checkpoint.
    have hlegacy : isLegacyUnscopedToolResultIri new.checkpointIri = false := by
      rw [hnewIri, hiri]
      exact not_legacy_checkpointIri _ _
    obtain ⟨l0, hstore, hrepresents⟩ := hholds.represents.store hmean hlegacy now (env.checkpointToString new)
    have hstate : ((track env ops).step env (.create now args)).state.l0 = l0 := by
      show ((track env ops).state.createExt env now args).2.l0 = l0
      unfold createExt
      simp only [hnew]
      rw [show (track env ops).state.bump.l0.store env.l0 now new.checkpointIri (env.checkpointToString new) = .ok l0 from hstore]
      rfl
    rw [hstate, hrepresents.content_eq, hnewIri, Function.update_self] at hkept
    have hnewBack : env.checkpointFromStr (env.checkpointToString new) = some new :=
      hcodec _ (mem_append_right _ (mem_singleton_self _))
    have hdataBack : env.checkpointFromStr (env.checkpointToString data) = some data :=
      hcodec _ (mem_append_left _ (hholds.sub.subset hdata))
    rw [Option.some.inj hkept, hdataBack] at hnewBack
    have hlt := htimes.2.2 _ (mem_map_of_mem (hholds.sub.subset hdata)) _
      (mem_singleton_self _)
    rw [Option.some.inj hnewBack] at hlt
    exact absurd hlt (lt_irrefl _)
  · rintro hfresh now args rfl data hdata
    have hnext := hholds.step hmean (freshItem ops huuids hholds.sub hfresh)
    have hlive : Item.checkpoint data ∈ ((track env ops).step env (.create now args)).live := mem_append_left _ hdata
    rw [hnext.represents.content_eq]
    exact contents_of_mem hnext.nodup hlive

/-- **The latest checkpoint survives restarts exactly if** no number is used again while the checkpoint
that has it is there, and `restore_latest` always has the latest checkpoint in sight. -/
theorem survives_iff (hmean : env.l0.mean half half = half) {ops : List Op}
    (hcodec : ∀ item ∈ (track env ops).created, item.ReadsBack env)
    (htimes : TimesIncrease (track env ops)) (huuids : UuidsUnique ops) :
    Survives env ops ↔
      (∀ before op after, ops = before ++ op :: after → FreshNumber (track env before) op) ∧
        ∀ before after, ops = before ++ after → ∀ taskIri, InSight (track env before) taskIri := by
  have hcodec' : ∀ before after, ops = before ++ after → ∀ item ∈ (track env before).created, item.ReadsBack env := by
    rintro before after rfl item hitem
    exact hcodec item ((created_append env before after).subset hitem)
  have htimes' : ∀ before after, ops = before ++ after → TimesIncrease (track env before) := by
    rintro before after rfl
    exact htimes.sublist ((created_append env before after).sublist.map _)
  have huuids' : ∀ before after, ops = before ++ after → UuidsUnique before := by
    rintro before after rfl
    exact huuids.left
  -- The states before a step are good if the steps before it use new numbers.
  have hgood : ∀ before after, ops = before ++ after →
      (∀ b op a, before = b ++ op :: a → FreshNumber (track env b) op) →
      Holds env (track env before) := fun before after heq hfresh =>
    holds_of_freshNumbers hmean (huuids' before after heq) hfresh
  constructor
  · intro hsurvives
    have hfresh : ∀ before, ∀ after, ops = before ++ after →
        ∀ b op a, before = b ++ op :: a → FreshNumber (track env b) op := by
      intro before
      induction before using reverseRecOn with
      | nil =>
        intro after _ b op a heq
        simp at heq
      | append_singleton before op ih =>
        intro after heq b op' a hsplit
        have heq' : ops = before ++ op :: after := by simpa using heq
        have hearlier := ih (op :: after) heq'
        rcases eq_nil_or_concat a with rfl | ⟨a, last, rfl⟩
        · obtain ⟨rfl, hop⟩ := append_inj' hsplit rfl
          obtain rfl := singleton_inj.1 hop
          refine (keepsCheckpoints_iff hmean (hgood before (op :: after) heq' hearlier)
            (huuids' _ after heq) (hcodec' _ after heq) (htimes' _ after heq)).1 ?_
          exact hsurvives.keeps before op after heq'
        · rw [concat_eq_append, ← cons_append, ← append_assoc] at hsplit
          obtain ⟨rfl, -⟩ := append_inj' hsplit rfl
          exact hearlier b op' a rfl
    have hall : ∀ before op after, ops = before ++ op :: after → FreshNumber (track env before) op :=
      fun before op after heq => hfresh ops [] (append_nil _).symm before op after heq
    refine ⟨hall, fun before after heq taskIri => ?_⟩
    have hholds := hgood before after heq (hfresh before after heq)
    exact (restoreLatest_eq_iff hholds hmean (hcodec' before after heq) (htimes' before after heq) 0
      taskIri).1 (hsurvives.restores before after heq 0 taskIri)
  · rintro ⟨hfresh, hsight⟩
    have hearlier : ∀ before after, ops = before ++ after →
        ∀ b op a, before = b ++ op :: a → FreshNumber (track env b) op := by
      rintro before after heq b op a rfl
      exact hfresh b op (a ++ after) (by rw [heq]; simp)
    constructor
    · intro before op after heq
      have heq' : ops = (before ++ [op]) ++ after := by simpa using heq
      exact (keepsCheckpoints_iff hmean (hgood before (op :: after) heq (hearlier before _ heq))
        (huuids' _ after heq') (hcodec' _ after heq') (htimes' _ after heq')).2
          (hfresh before op after heq)
    · intro before after heq now taskIri
      have hholds := hgood before after heq (hearlier before after heq)
      exact (restoreLatest_eq_iff hholds hmean (hcodec' before after heq) (htimes' before after heq) now
        taskIri).2 (hsight before after heq taskIri)

/-! ### A restart between two checkpoints -/

def sampleArgs : CreateExt :=
  ⟨"iri://task/demo", "step_complete_Do", "[]", "[]", "[]", [], none, none, none, none, none, none,
    none, none, none, none⟩

/-- A checkpoint before a restart and one after it. -/
def restartOps : List Op := [.create 0 sampleArgs, .restart, .create 1 sampleArgs]

def sampleData (now : ℤ) : CheckpointData where
  checkpointIri := "iri://checkpoint/task/demo/seq_0"
  taskIri := "iri://task/demo"
  name := "step_complete_Do"
  nodeCount := 0
  totalSizeBytes := 6
  createdAt := now
  tags := []
  nodesJson := "[]"
  sessionMessagesJson := "[]"
  agentStateJson := "[]"
  currentRole := none
  fiveW2hJson := none
  prevSummary := none
  cycleStateJson := none
  completedNodesJson := none
  pendingApprovalsJson := none
  supplementJson := none
  toolErrorJson := none
  actionTrackerJson := none
  perceptionAnomalyJson := none

/-- The JSON of a checkpoint without optional fields, within its first ten seconds. -/
def sampleToString (data : CheckpointData) : String :=
  "\x7b\"checkpoint_iri\":\"" ++ data.checkpointIri ++ "\",\"task_iri\":\"" ++ data.taskIri ++
    "\",\"name\":\"" ++ data.name ++ "\",\"node_count\":" ++ toString data.nodeCount ++
    ",\"total_size_bytes\":" ++ toString data.totalSizeBytes ++
    ",\"created_at\":\"1970-01-01T00:00:0" ++ toString data.createdAt ++
    "Z\",\"tags\":[],\"nodes_json\":\"" ++ data.nodesJson ++ "\",\"session_messages_json\":\"" ++
    data.sessionMessagesJson ++ "\",\"agent_state_json\":\"" ++ data.agentStateJson ++
    "\",\"current_role\":null,\"five_w2h_json\":null,\"prev_summary\":null," ++
    "\"cycle_state_json\":null,\"completed_nodes_json\":null,\"pending_approvals_json\":null," ++
    "\"supplement_json\":null,\"tool_error_json\":null,\"action_tracker_json\":null," ++
    "\"perception_anomaly_json\":null\x7d"

def sampleCheckpointEnv : CheckpointEnv where
  l0 := L0Store.sampleEnv
  arrayLength _ := 0
  checkpointToString := sampleToString
  checkpointFromStr s := [sampleData 0, sampleData 1].find? fun data => sampleToString data = s
  envelopeToString _ := ""
  envelopeFromStr _ := .error "EOF while parsing a value at line 1 column 0"

theorem created_restartOps : (track sampleCheckpointEnv restartOps).created =
    [.checkpoint (sampleData 0), .checkpoint (sampleData 1)] := by
  decide +kernel

theorem readsBack_restartOps :
    ∀ item ∈ (track sampleCheckpointEnv restartOps).created, item.ReadsBack sampleCheckpointEnv := by
  rw [created_restartOps]
  intro item hitem
  have hitem' : item = .checkpoint (sampleData 0) ∨ item = .checkpoint (sampleData 1) := by
    simpa using hitem
  rcases hitem' with rfl | rfl
  · show sampleCheckpointEnv.checkpointFromStr _ = some _
    decide +kernel
  · show sampleCheckpointEnv.checkpointFromStr _ = some _
    decide +kernel

theorem timesIncrease_restartOps : TimesIncrease (track sampleCheckpointEnv restartOps) := by
  unfold TimesIncrease
  rw [created_restartOps]
  decide

theorem uuidsUnique_restartOps : UuidsUnique restartOps := ⟨fun _ h => (nomatch h), nodup_nil⟩

/-- The second checkpoint replaces the first one. -/
theorem not_survives_restartOps : ∃ (env : CheckpointEnv) (ops : List Op), env.l0.mean half half = half ∧
      (∀ item ∈ (track env ops).created, item.ReadsBack env) ∧ TimesIncrease (track env ops) ∧
      UuidsUnique ops ∧ ¬Survives env ops := by
  refine ⟨sampleCheckpointEnv, restartOps, rfl, readsBack_restartOps, timesIncrease_restartOps,
    uuidsUnique_restartOps, fun hsurvives => ?_⟩
  have hkept := hsurvives.keeps [.create 0 sampleArgs, .restart] (.create 1 sampleArgs) [] rfl 1
    sampleArgs rfl (sampleData 0) (by decide +kernel)
  revert hkept
  decide +kernel

theorem survives_iff_restartOps : Survives sampleCheckpointEnv restartOps ↔
      (∀ before op after, restartOps = before ++ op :: after → FreshNumber (track sampleCheckpointEnv before) op) ∧
        ∀ before after, restartOps = before ++ after → ∀ taskIri, InSight (track sampleCheckpointEnv before) taskIri :=
  survives_iff rfl readsBack_restartOps timesIncrease_restartOps uuidsUnique_restartOps

end Checkpoints

end WildAgentOs.Core
