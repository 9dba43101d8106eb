import WildAgentOs.Core.Checkpoint

/-!
# What a history leaves in the store

Along a run of the checkpoint manager, what was created, and what of it was not deleted.  As long as no
IRI is written a second time, the store holds just that, and the index of a task ends with what the
current manager has created for it.

* `Item`, `Tracked`, `track`: runs with what they create;
* `IsUuid`, `envelopeIri_ne`: envelopes have IRIs of their own;
* `Holds`.
-/

namespace WildAgentOs.Core

open Memory L0Store List Function Option

namespace Checkpoints

/-! ### Items -/

inductive Item
  | checkpoint (data : CheckpointData)
  | envelope (written : PdcaCheckpointEnvelope)
  deriving DecidableEq

namespace Item

def iri : Item → String
  | checkpoint data => data.checkpointIri
  | envelope written => written.envelopeIri

def createdAt : Item → ℤ
  | checkpoint data => data.createdAt
  | envelope written => written.createdAt

/-- What is stored. -/
def content (env : CheckpointEnv) : Item → String
  | checkpoint data => env.checkpointToString data
  | envelope written => env.envelopeToString written

/-- The reader gives back what was written, and takes an envelope for no checkpoint: it has no name. -/
def ReadsBack (env : CheckpointEnv) : Item → Prop
  | checkpoint data => env.checkpointFromStr (env.checkpointToString data) = some data
  | envelope written => env.checkpointFromStr (env.envelopeToString written) = none ∧
    env.envelopeFromStr (env.envelopeToString written) = .ok written

/-- The checkpoint of a task. -/
def checkpointOf (taskIri : String) : Item → Option CheckpointData
  | checkpoint data => if data.taskIri = taskIri then some data else none
  | envelope _ => none

end Item

/-- What an operation creates. -/
def Op.item (env : CheckpointEnv) (s : Checkpoints) : Op → Option Item
  | .create now args => some (.checkpoint (checkpointData env now s.manager.counter args))
  | .writePdcaEnvelope now uuid taskIri step (some claims) tools =>
    some (.envelope (pdcaEnvelope now uuid s.manager.counter taskIri step claims tools))
  | _ => none

/-- A state, with what was created, and what of it was not deleted. -/
structure Tracked where
  state : Checkpoints
  created : List Item
  live : List Item

def Tracked.step (env : CheckpointEnv) (t : Tracked) (op : Op) : Tracked where
  state := op.step env t.state
  created := t.created ++ (op.item env t.state).toList
  live :=
    (match op with
      | .delete _ iri => t.live.filter fun item => item.iri ≠ iri
      | _ => t.live) ++ (op.item env t.state).toList

def track (env : CheckpointEnv) (ops : List Op) : Tracked := ops.foldl (Tracked.step env) ⟨start, [], []⟩

theorem track_concat (env : CheckpointEnv) (ops : List Op) (op : Op) :
    track env (ops ++ [op]) = (track env ops).step env op := by
  unfold track
  rw [foldl_append]
  rfl

/-! ### IRIs -/

/-- The form of a hyphenated uuid. -/
def IsUuid (uuid : String) : Prop :=
  uuid.toList.length = 36 ∧ ∀ c ∈ uuid.toList, c.isDigit = true ∨ c ∈ ['a', 'b', 'c', 'd', 'e', 'f', '-']

/-- The uuid of a new envelope. -/
def Op.uuid? : Op → Option String
  | .writePdcaEnvelope _ uuid _ _ (some _) _ => some uuid
  | _ => none

variable {uuid : String}

theorem IsUuid.slash_notMem (h : IsUuid uuid) : '/' ∉ uuid.toList := by
  intro hmem
  rcases h.2 _ hmem with hdigit | hletter
  · exact absurd hdigit (by decide)
  · exact absurd hletter (by decide)

theorem IsUuid.s_notMem (h : IsUuid uuid) : 's' ∉ uuid.toList := by
  intro hmem
  rcases h.2 _ hmem with hdigit | hletter
  · exact absurd hdigit (by decide)
  · exact absurd hletter (by decide)

theorem toList_envelopeIri (taskIri : String) (seq : UInt64) (uuid : String) :
    ∃ front, (envelopeIri taskIri seq uuid).toList = front ++ '/' :: uuid.toList := by
  unfold envelopeIri
  rw [String.toList_append, String.toList_append]
  exact ⟨_, append_assoc _ _ _⟩

theorem toList_checkpointIri (taskIri : String) (seq : UInt64) :
    ∃ front back, (checkpointIri taskIri seq).toList = front ++ '/' :: 's' :: back ∧ '/' ∉ back := by
  unfold checkpointIri
  rw [String.toList_append, String.toList_append]
  refine ⟨_, ['e', 'q', '_'] ++ (toString seq.toNat).toList, append_assoc _ _ _, ?_⟩
  rw [Nat.toString_eq_repr, Nat.toList_repr, mem_append, not_or]
  refine ⟨by decide, fun hmem => ?_⟩
  have hdigit := Nat.isDigit_of_mem_toDigits (by decide) (by decide) hmem
  exact absurd hdigit (by decide)

variable {taskIri taskIri' : String} {seq seq' : UInt64}

theorem envelopeIri_ne {uuid uuid' : String} (h : IsUuid uuid)
    (h' : IsUuid uuid') (hne : uuid ≠ uuid') : envelopeIri taskIri seq uuid ≠ envelopeIri taskIri' seq' uuid' := by
  intro heq
  obtain ⟨front, hfront⟩ := toList_envelopeIri taskIri seq uuid
  obtain ⟨front', hfront'⟩ := toList_envelopeIri taskIri' seq' uuid'
  have hlist := congrArg String.toList heq
  rw [hfront, hfront'] at hlist
  exact hne (String.toList_inj.1 (Text.eq_of_append_cons_last hlist h.slash_notMem h'.slash_notMem).2)

theorem checkpointIri_ne_envelopeIri
    (h : IsUuid uuid) : checkpointIri taskIri seq ≠ envelopeIri taskIri' seq' uuid := by
  intro heq
  obtain ⟨front, back, hfront, hback⟩ := toList_checkpointIri taskIri seq
  obtain ⟨front', hfront'⟩ := toList_envelopeIri taskIri' seq' uuid
  have hlist := congrArg String.toList heq
  rw [hfront, hfront'] at hlist
  have hlast := Text.eq_of_append_cons_last hlist (not_mem_cons_of_ne_of_not_mem (by decide) hback)
    h.slash_notMem
  exact h.s_notMem (hlast.2 ▸ mem_cons_self)

theorem not_legacy_checkpoint (rest : String) :
    isLegacyUnscopedToolResultIri ("iri://checkpoint/" ++ rest) = false := by
  unfold isLegacyUnscopedToolResultIri Text.stripStart
  rw [if_neg]
  rw [String.toList_append]
  simp [cons_prefix_cons]

theorem not_legacy_checkpointIri (taskIri : String) (seq : UInt64) :
    isLegacyUnscopedToolResultIri (checkpointIri taskIri seq) = false := by
  unfold checkpointIri
  rw [String.append_assoc, String.append_assoc]
  exact not_legacy_checkpoint _

theorem not_legacy_envelopeIri (taskIri : String) (seq : UInt64) (uuid : String) :
    isLegacyUnscopedToolResultIri (envelopeIri taskIri seq uuid) = false := by
  unfold envelopeIri
  rw [String.append_assoc, String.append_assoc, String.append_assoc, String.append_assoc]
  exact not_legacy_checkpoint _

/-! ### The invariant -/

variable {env : CheckpointEnv} {t : Tracked}

/-- What the store holds of the items. -/
def contents (env : CheckpointEnv) (live : List Item) (iri : String) : Option String :=
  (live.find? fun item => item.iri = iri).map (Item.content env)

variable {live : List Item}

theorem contents_ne_none {iri : String} : contents env live iri ≠ none ↔ iri ∈ live.map Item.iri := by
  unfold contents
  rw [ne_eq, map_eq_none_iff, find?_eq_none, List.mem_map]
  simp

variable {item : Item}

theorem contents_of_mem (hnodup : (live.map Item.iri).Nodup)
    (hitem : item ∈ live) : contents env live item.iri = some (item.content env) := by
  unfold contents
  have hsome : (live.find? fun other => other.iri = item.iri) ≠ none := by
    rw [ne_eq, find?_eq_none]
    exact fun hnone => hnone item hitem (by simp)
  obtain ⟨found, hfound⟩ := ne_none_iff_exists'.1 hsome
  have hiri := find?_some hfound
  have heq := inj_on_of_nodup_map hnodup (mem_of_find?_eq_some hfound) hitem
    (of_decide_eq_true hiri)
  rw [hfound, heq]
  rfl

/-- A new item. -/
theorem contents_concat (hfresh : item.iri ∉ live.map Item.iri) :
    contents env (live ++ [item]) = update (contents env live) item.iri (some (item.content env)) := by
  funext iri
  rw [update_apply]
  unfold contents
  rw [find?_append]
  split_ifs with heq
  · rw [find?_eq_none.2, none_or, heq]
    · simp
    · intro other hother
      have : other.iri ≠ item.iri := fun h => hfresh (h ▸ List.mem_map_of_mem hother)
      simpa [heq] using this
  · rw [find?_singleton, if_neg (by simpa using Ne.symm heq), or_none]

/-- A deletion. -/
theorem contents_filter (live : List Item) (iri : String) :
    contents env (live.filter fun item => item.iri ≠ iri) = update (contents env live) iri none := by
  funext iri'
  rw [update_apply]
  unfold contents
  rw [find?_filter]
  split_ifs with heq
  · rw [find?_eq_none.2]
    · rfl
    · intro item _
      simp [heq]
  · congr 1
    refine find?_congr fun item _ => ?_
    by_cases h : item.iri = iri'
    · simp [h, heq]
    · simp [h]

/-- The checkpoints of a task that were not deleted, the newest one last. -/
def liveOf (t : Tracked) (taskIri : String) : List CheckpointData := t.live.filterMap (Item.checkpointOf taskIri)

/-- **The invariant**: the store holds the items, under distinct IRIs, and the index of a task ends its
list of them. -/
structure Holds (env : CheckpointEnv) (t : Tracked) : Prop where
  represents : Represents env.l0 t.state.l0 (contents env t.live)
  nodup : (t.live.map Item.iri).Nodup
  sub : t.live.Sublist t.created
  index : ∀ taskIri iris, t.state.manager.taskCheckpoints.lookup taskIri = some iris →
    ∃ older, (liveOf t taskIri).map CheckpointData.checkpointIri = older ++ iris

variable {data : CheckpointData} {taskIri : String}

theorem checkpointOf_eq_some :
    item.checkpointOf taskIri = some data ↔ item = .checkpoint data ∧ data.taskIri = taskIri := by
  cases item with
  | checkpoint data' =>
    unfold Item.checkpointOf
    simp only [Item.checkpoint.injEq]
    split_ifs with htask
    · rw [some_inj]
      constructor
      · rintro rfl
        exact ⟨rfl, htask⟩
      · exact And.left
    · constructor
      · rintro ⟨⟩
      · rintro ⟨rfl, heq⟩
        exact absurd heq htask
  | envelope written =>
    constructor
    · rintro ⟨⟩
    · rintro ⟨⟨⟩, -⟩

theorem mem_liveOf : data ∈ liveOf t taskIri ↔ .checkpoint data ∈ t.live ∧ data.taskIri = taskIri := by
  unfold liveOf
  rw [mem_filterMap]
  simp only [checkpointOf_eq_some]
  constructor
  · rintro ⟨item, hitem, rfl, htask⟩
    exact ⟨hitem, htask⟩
  · rintro ⟨hitem, htask⟩
    exact ⟨_, hitem, rfl, htask⟩

variable {stored : String → Option String}

/-- The loop of `list` over IRIs that may be stored. -/
theorem retrieveCheckpoints_eq (hmean : env.l0.mean half half = half)
    (now : ℤ) {l0 : L0Store} (iris : List String) (h : Represents env.l0 l0 stored) :
    (retrieveCheckpoints env now l0 iris).1 = iris.filterMap (fun iri => (stored iri).bind env.checkpointFromStr) ∧
      Represents env.l0 (retrieveCheckpoints env now l0 iris).2 stored := by
  induction iris generalizing l0 with
  | nil => exact ⟨rfl, h⟩
  | cons iri iris ih =>
    obtain ⟨found, l0', hretrieve, hcontent, hrepresents⟩ := h.retrieve hmean now iri
    obtain ⟨hresults, hrepresents'⟩ := ih hrepresents
    unfold retrieveCheckpoints
    rw [hretrieve]
    refine ⟨?_, hrepresents'⟩
    show (found.bind fun entry => env.checkpointFromStr entry.content).toList ++
      (retrieveCheckpoints env now l0' iris).1 = _
    have hread : (found.bind fun entry => env.checkpointFromStr entry.content) =
        (stored iri).bind env.checkpointFromStr := by
      rw [← hcontent, Option.bind_map]
      rfl
    rw [hresults, hread, filterMap_cons]
    cases (stored iri).bind env.checkpointFromStr <;> rfl

theorem list_state (hmean : env.l0.mean half half = half) (now : ℤ) {s : Checkpoints}
    (h : Represents env.l0 s.l0 stored) (taskIri : String)
    (limit : ℕ) :
    Represents env.l0 (s.list env now taskIri limit).2.l0 stored ∧
      (s.list env now taskIri limit).2.manager = s.manager := by
  unfold list
  cases s.manager.taskCheckpoints.lookup taskIri with
  | some iris => exact ⟨(retrieveCheckpoints_eq hmean now iris.reverse h).2, rfl⟩
  | none =>
    cases s.l0.scanIriPrefix env.l0 (checkpointPrefix taskIri) 100 with
    | error e => exact ⟨h, rfl⟩
    | ok entries => exact ⟨h, rfl⟩

/-- A new item under an IRI that is not there. -/
theorem Holds.stores (h : Holds env t) (hmean : env.l0.mean half half = half) (now : ℤ)
    (hfresh : item.iri ∉ t.live.map Item.iri)
    (hlegacy : isLegacyUnscopedToolResultIri item.iri = false) :
    ∃ l0, t.state.l0.store env.l0 now item.iri (item.content env) = .ok l0 ∧
      Represents env.l0 l0 (contents env (t.live ++ [item])) := by
  obtain ⟨l0, hstore, hrepresents⟩ := h.represents.store hmean hlegacy now (item.content env)
  exact ⟨l0, hstore, by rw [contents_concat hfresh]; exact hrepresents⟩

theorem nodup_concat (hnodup : (live.map Item.iri).Nodup)
    (hfresh : item.iri ∉ live.map Item.iri) : ((live ++ [item]).map Item.iri).Nodup := by
  rw [map_append, map_singleton]
  exact nodup_append.2 ⟨hnodup, nodup_singleton _, by
    rintro a ha b hb rfl
    exact hfresh (mem_singleton.1 hb ▸ ha)⟩

theorem liveOf_concat (taskIri : String) {t' : Tracked} (hlive : t'.live = t.live ++ [item]) :
    liveOf t' taskIri = liveOf t taskIri ++ (item.checkpointOf taskIri).toList := by
  unfold liveOf
  rw [hlive, filterMap_append]
  congr 1

/-- **A checkpoint** is created. -/
theorem Holds.create (h : Holds env t) (hmean : env.l0.mean half half = half) (now : ℤ) (args : CreateExt)
    (hfresh : checkpointIri args.taskIri t.state.manager.counter ∉ t.live.map Item.iri) :
    Holds env (t.step env (.create now args)) := by
  generalize hdata : checkpointData env now t.state.manager.counter args = data
  have hiri : data.checkpointIri = checkpointIri args.taskIri t.state.manager.counter := by
    rw [← hdata]
    rfl
  have htask : data.taskIri = args.taskIri := by
    rw [← hdata]
    rfl
  have hfresh' : (Item.checkpoint data).iri ∉ t.live.map Item.iri := by
    show data.checkpointIri ∉ _
    rw [hiri]
    exact hfresh
  have hlegacy : isLegacyUnscopedToolResultIri (Item.checkpoint data).iri = false := by
    show isLegacyUnscopedToolResultIri data.checkpointIri = false
    rw [hiri]
    exact not_legacy_checkpointIri _ _
  obtain ⟨l0, hstore, hrepresents⟩ := h.stores hmean now hfresh' hlegacy
  have hstate : (t.step env (.create now args)).state =
      pushIri { t.state.bump with l0 } args.taskIri data.checkpointIri := by
    show (t.state.createExt env now args).2 = _
    unfold createExt
    simp only [hdata]
    rw [show t.state.bump.l0.store env.l0 now data.checkpointIri (env.checkpointToString data) = .ok l0 from hstore]
  have hlive : (t.step env (.create now args)).live = t.live ++ [.checkpoint data] := by
    rw [← hdata]
    rfl
  refine ⟨?_, ?_, ?_, fun taskIri iris hlookup => ?_⟩
  · rw [hstate, hlive]
    exact hrepresents
  · rw [hlive]
    exact nodup_concat h.nodup hfresh'
  · rw [hlive, ← hdata]
    exact h.sub.append_right _
  · rw [hstate] at hlookup
    change (t.state.manager.taskCheckpoints.insert args.taskIri _).lookup taskIri = _ at hlookup
    rw [liveOf_concat taskIri hlive, map_append]
    by_cases heq : taskIri = args.taskIri
    · subst heq
      rw [AList.lookup_insert] at hlookup
      rw [show (Item.checkpoint data).checkpointOf args.taskIri = some data from checkpointOf_eq_some.2 ⟨rfl, htask⟩]
      obtain ⟨older, holder⟩ : ∃ older, (liveOf t args.taskIri).map CheckpointData.checkpointIri =
          older ++ (t.state.manager.taskCheckpoints.lookup args.taskIri).getD [] := by
        cases hold : t.state.manager.taskCheckpoints.lookup args.taskIri with
        | none => exact ⟨_, (append_nil _).symm⟩
        | some iris => exact h.index args.taskIri iris hold
      refine ⟨older, ?_⟩
      rw [holder, ← some.inj hlookup, append_assoc]
      rfl
    · rw [AList.lookup_insert_ne heq] at hlookup
      have hnone : (Item.checkpoint data).checkpointOf taskIri = none := by
        unfold Item.checkpointOf
        exact if_neg fun h => heq (h.symm.trans htask)
      rw [hnone]
      obtain ⟨older, holder⟩ := h.index taskIri iris hlookup
      exact ⟨older, by rw [holder]; exact append_nil _⟩

/-- **An envelope** is written. -/
theorem Holds.writeEnvelope (h : Holds env t) (hmean : env.l0.mean half half = half) (now : ℤ)
    (uuid taskIri : String) (step : PdcaStepKind) (claims : IsolationClaims) (tools : List String)
    (hfresh : envelopeIri taskIri t.state.manager.counter uuid ∉ t.live.map Item.iri) :
    Holds env (t.step env (.writePdcaEnvelope now uuid taskIri step (some claims) tools)) := by
  generalize hwritten : pdcaEnvelope now uuid t.state.manager.counter taskIri step claims tools = written
  have hiri : written.envelopeIri = envelopeIri taskIri t.state.manager.counter uuid := by
    rw [← hwritten]
    rfl
  have hfresh' : (Item.envelope written).iri ∉ t.live.map Item.iri := by
    show written.envelopeIri ∉ _
    rw [hiri]
    exact hfresh
  have hlegacy : isLegacyUnscopedToolResultIri (Item.envelope written).iri = false := by
    show isLegacyUnscopedToolResultIri written.envelopeIri = false
    rw [hiri]
    exact not_legacy_envelopeIri _ _ _
  obtain ⟨l0, hstore, hrepresents⟩ := h.stores hmean now hfresh' hlegacy
  have hstate : (t.step env (.writePdcaEnvelope now uuid taskIri step (some claims) tools)).state =
      { t.state.bump with l0 } := by
    show (t.state.writePdcaEnvelope env now uuid taskIri step (some claims) tools).2 = _
    unfold writePdcaEnvelope
    simp only [hwritten]
    rw [show t.state.bump.l0.store env.l0 now written.envelopeIri (env.envelopeToString written) = .ok l0 from hstore]
  have hlive : (t.step env (.writePdcaEnvelope now uuid taskIri step (some claims) tools)).live =
      t.live ++ [.envelope written] := by
    rw [← hwritten]
    rfl
  refine ⟨?_, ?_, ?_, fun taskIri' iris hlookup => ?_⟩
  · rw [hstate, hlive]
    exact hrepresents
  · rw [hlive]
    exact nodup_concat h.nodup hfresh'
  · rw [hlive, ← hwritten]
    exact h.sub.append_right _
  · rw [hstate] at hlookup
    obtain ⟨older, holder⟩ := h.index taskIri' iris hlookup
    rw [liveOf_concat taskIri' hlive]
    refine ⟨older, ?_⟩
    rw [← holder]
    exact congrArg _ (append_nil _)

theorem map_filterMap_filter (live : List Item) (taskIri iri : String) :
    ((live.filter fun item => item.iri ≠ iri).filterMap (Item.checkpointOf taskIri)).map
        CheckpointData.checkpointIri =
      ((live.filterMap (Item.checkpointOf taskIri)).map CheckpointData.checkpointIri).filter
        (· ≠ iri) := by
  induction live with
  | nil => rfl
  | cons item live ih =>
    cases hcheckpoint : item.checkpointOf taskIri with
    | none =>
      rw [filterMap_cons, hcheckpoint, ← ih, filter_cons]
      split_ifs
      · rw [filterMap_cons, hcheckpoint]
      · rfl
    | some data =>
      have hiri : item.iri = data.checkpointIri := by
        rw [(checkpointOf_eq_some.1 hcheckpoint).1]
        rfl
      rw [filterMap_cons, hcheckpoint, map_cons, filter_cons, filter_cons, hiri, ← ih]
      split_ifs
      · rw [filterMap_cons, hcheckpoint, map_cons]
      · rfl

/-- **A deletion.** -/
theorem Holds.delete (h : Holds env t) (hmean : env.l0.mean half half = half) (now : ℤ)
    (iri : String) : Holds env (t.step env (.delete now iri)) := by
  have hlive : (t.step env (.delete now iri)).live = t.live.filter fun item => item.iri ≠ iri := append_nil _
  have hcreated : (t.step env (.delete now iri)).created = t.created := append_nil _
  have hnodup : ((t.live.filter fun item => item.iri ≠ iri).map Item.iri).Nodup :=
    h.nodup.sublist (filter_sublist.map _)
  have hsub : (t.live.filter fun item => item.iri ≠ iri).Sublist t.created := filter_sublist.trans h.sub
  have hliveOf : ∀ taskIri, (liveOf (t.step env (.delete now iri)) taskIri).map
      CheckpointData.checkpointIri = ((liveOf t taskIri).map CheckpointData.checkpointIri).filter (· ≠ iri) := by
    intro taskIri
    unfold liveOf
    rw [hlive]
    exact map_filterMap_filter t.live taskIri iri
  obtain ⟨found, l0, hretrieve, hcontent, hrepresents⟩ := h.represents.retrieve hmean now iri
  cases found with
  | none =>
    -- Nothing is deleted.
    have hstate : (t.step env (.delete now iri)).state = { t.state with l0 } := by
      show (t.state.delete env now iri).2 = _
      unfold Checkpoints.delete
      rw [hretrieve]
    have hnotMem : iri ∉ t.live.map Item.iri := fun hmem => contents_ne_none.2 hmem hcontent.symm
    have hsame : (t.live.filter fun item => item.iri ≠ iri) = t.live := by
      refine filter_eq_self.2 fun item hitem => decide_eq_true fun heq => ?_
      exact hnotMem (heq ▸ List.mem_map_of_mem hitem)
    rw [hsame] at hlive
    refine ⟨?_, ?_, ?_, fun taskIri iris hlookup => ?_⟩
    · rw [hstate, hlive]
      exact hrepresents
    · rw [hlive]
      exact h.nodup
    · rw [hlive, hcreated]
      exact h.sub
    · rw [hstate] at hlookup
      unfold liveOf
      rw [hlive]
      exact h.index taskIri iris hlookup
  | some entry =>
    obtain ⟨l0', hdelete, hrepresents'⟩ := hrepresents.delete iri
    have hstate : (t.step env (.delete now iri)).state = ⟨l0', { t.state.manager with
        taskCheckpoints := t.state.manager.taskCheckpoints.filterMapValues fun iris =>
          some (iris.filter (· ≠ iri)) }⟩ := by
      show (t.state.delete env now iri).2 = _
      unfold Checkpoints.delete
      rw [hretrieve]
      simp only [hdelete]
    refine ⟨?_, ?_, ?_, fun taskIri iris hlookup => ?_⟩
    · rw [hstate, hlive, contents_filter]
      exact hrepresents'
    · rw [hlive]
      exact hnodup
    · rw [hlive, hcreated]
      exact hsub
    · rw [hstate] at hlookup
      change (t.state.manager.taskCheckpoints.filterMapValues _).lookup taskIri = _ at hlookup
      rw [AList.lookup_filterMapValues, bind_eq_some_iff] at hlookup
      obtain ⟨old, hold, heq⟩ := hlookup
      obtain ⟨older, holder⟩ := h.index taskIri old hold
      refine ⟨older.filter (· ≠ iri), ?_⟩
      rw [hliveOf, holder, filter_append, some.inj heq]

/-- What an operation creates does not lie under an IRI that is in use. -/
def FreshItem (env : CheckpointEnv) (t : Tracked) (op : Op) : Prop :=
  ∀ item, op.item env t.state = some item → item.iri ∉ t.live.map Item.iri

/-- **One operation**, under a new IRI if it writes. -/
theorem Holds.step (h : Holds env t) (hmean : env.l0.mean half half = half) {op : Op}
    (hfresh : FreshItem env t op) : Holds env (t.step env op) := by
  cases op with
  | create now args => exact h.create hmean now args (hfresh _ rfl)
  | writePdcaEnvelope now uuid taskIri step claims tools =>
    cases claims with
    | some claims => exact h.writeEnvelope hmean now uuid taskIri step claims tools (hfresh _ rfl)
    | none =>
      have hlive : (t.step env (.writePdcaEnvelope now uuid taskIri step none tools)).live = t.live := append_nil _
      refine ⟨?_, ?_, ?_, fun taskIri' iris hlookup => ?_⟩
      · rw [hlive]
        exact h.represents
      · rw [hlive]
        exact h.nodup
      · rw [hlive]
        exact h.sub.trans (sublist_append_left _ _)
      · unfold liveOf
        rw [hlive]
        exact h.index taskIri' iris hlookup
  | delete now iri => exact h.delete hmean now iri
  | restoreLatest now taskIri =>
    have hlive : (t.step env (.restoreLatest now taskIri)).live = t.live := append_nil _
    obtain ⟨hrepresents, hmanager⟩ := list_state hmean now h.represents taskIri 1
    refine ⟨?_, ?_, ?_, fun taskIri' iris hlookup => ?_⟩
    · rw [hlive]
      exact hrepresents
    · rw [hlive]
      exact h.nodup
    · rw [hlive]
      exact h.sub.trans (sublist_append_left _ _)
    · unfold liveOf
      rw [hlive]
      refine h.index taskIri' iris ?_
      rw [← hmanager]
      exact hlookup
  | restart =>
    have hlive : (t.step env .restart).live = t.live := append_nil _
    refine ⟨?_, ?_, ?_, fun taskIri' iris hlookup => ?_⟩
    · rw [hlive]
      exact h.represents
    · rw [hlive]
      exact h.nodup
    · rw [hlive]
      exact h.sub.trans (sublist_append_left _ _)
    · cases hlookup

theorem holds_nil (env : CheckpointEnv) : Holds env (track env []) where
  represents := .new env.l0
  nodup := nodup_nil
  sub := .slnil
  index _ _ h := nomatch h

end Checkpoints

end WildAgentOs.Core
