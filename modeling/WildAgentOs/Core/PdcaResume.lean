import WildAgentOs.Core.RestoreLatest

/-!
# The resumption of a PDCA cycle

`read_pdca_resume` reads the first hundred envelopes of a task, in the order of their IRIs, where the
number of an envelope is a text.

* `ResumeExact`, `Within`, `resumeExact_iff`.
-/

namespace WildAgentOs.Core

open Memory L0Store KeyScan List List UInt64

namespace Checkpoints

variable {env : CheckpointEnv} {t : Tracked}

/-- Envelopes of one task, by whatever identities, and restarts. -/
def Op.IsWriteOrRestart (taskIri : String) : Op → Prop
  | .writePdcaEnvelope _ _ taskIri' _ (some _) _ => taskIri' = taskIri
  | .restart => True
  | _ => False

/-- The envelopes that were written, the newest one last. -/
def envelopes (t : Tracked) : List PdcaCheckpointEnvelope :=
  t.created.filterMap fun item => match item with
    | .envelope written => some written
    | .checkpoint _ => none

/-- With envelopes of its own identity, a caller gets the newest one and all steps; if there is one of
another identity, the caller is refused. -/
structure ResumeExact (env : CheckpointEnv) (t : Tracked) (taskIri : String) (claims : IsolationClaims) : Prop where
  own : (∀ written ∈ envelopes t, written.claims = .ofClaims claims) → match (envelopes t).getLast? with
    | none => t.state.readPdcaResume env taskIri (some claims) = .ok none
    | some newest => ∃ resume, t.state.readPdcaResume env taskIri (some claims) = .ok (some resume) ∧
      resume.lastSuccessful = newest ∧
      ∀ step, step ∈ resume.completedSteps ↔ ∃ written ∈ envelopes t, written.step = step
  foreign : (∃ written ∈ envelopes t, written.claims ≠ .ofClaims claims) →
    t.state.readPdcaResume env taskIri (some claims) = .error (.permissionDenied "checkpoint" taskIri
      "resume PDCA envelope with mismatched verified claims")

/-- The envelope is among the first hundred, in the order of the IRIs. -/
def Within (t : Tracked) (written : PdcaCheckpointEnvelope) : Prop :=
  ((envelopes t).filter fun other => decide (other.envelopeIri < written.envelopeIri)).length < 100

/-- The envelopes that are read speak for all of them. -/
structure ReadsEnough (t : Tracked) (claims : IsolationClaims) : Prop where
  own : (∀ written ∈ envelopes t, written.claims = .ofClaims claims) →
    (∀ newest ∈ (envelopes t).getLast?, Within t newest) ∧
      ∀ written ∈ envelopes t, ∃ other ∈ envelopes t, Within t other ∧ other.step = written.step
  foreign : (∃ written ∈ envelopes t, written.claims ≠ .ofClaims claims) →
    ∃ written ∈ envelopes t, Within t written ∧ written.claims ≠ .ofClaims claims

/-! ### What is read -/

theorem mem_envelopes {written : PdcaCheckpointEnvelope} : written ∈ envelopes t ↔ .envelope written ∈ t.created := by
  unfold envelopes
  rw [mem_filterMap]
  constructor
  · rintro ⟨item, hitem, hwritten⟩
    cases item with
    | checkpoint data => cases hwritten
    | envelope other => exact Option.some.inj hwritten ▸ hitem
  · exact fun hitem => ⟨_, hitem, rfl⟩

/-- A state in which there are envelopes of one task only. -/
structure OnlyEnvelopes (t : Tracked) (taskIri : String) : Prop where
  live_eq : t.live = t.created
  created_eq : t.created = (envelopes t).map Item.envelope
  taskIri_eq : ∀ written ∈ envelopes t, written.taskIri = taskIri
  iri_eq : ∀ written ∈ envelopes t, ∃ seq uuid, written.envelopeIri = envelopeIri taskIri seq uuid

variable {taskIri : String} {ops : List Op}

theorem onlyEnvelopes (env : CheckpointEnv) (hops : ∀ op ∈ ops, op.IsWriteOrRestart taskIri) :
    OnlyEnvelopes (track env ops) taskIri := by
  induction ops using reverseRecOn with
  | nil => exact ⟨rfl, rfl, fun _ h => (nomatch h), fun _ h => (nomatch h)⟩
  | append_singleton ops op ih =>
    obtain ⟨hlive, hcreated, htask, hiri⟩ := ih fun op' hop' => hops op' (mem_append_left _ hop')
    have hop := hops op (mem_append_right _ (mem_singleton_self op))
    rw [track_concat]
    cases op with
    | writePdcaEnvelope now uuid taskIri' step claims tools =>
      cases claims with
      | none => exact hop.elim
      | some claims =>
        obtain rfl : taskIri' = taskIri := hop
        generalize hwritten : pdcaEnvelope now uuid (track env ops).state.manager.counter taskIri' step
          claims tools = written
        have hnew : ((track env ops).step env
            (.writePdcaEnvelope now uuid taskIri' step (some claims) tools)).created =
              (track env ops).created ++ [.envelope written] := by
          rw [← hwritten]
          rfl
        have henvelopes : envelopes ((track env ops).step env
            (.writePdcaEnvelope now uuid taskIri' step (some claims) tools)) =
              envelopes (track env ops) ++ [written] := by
          unfold envelopes
          rw [hnew, filterMap_append]
          rfl
        refine ⟨?_, ?_, ?_, ?_⟩
        · show (track env ops).live ++ _ = (track env ops).created ++ _
          rw [hlive]
        · rw [hnew, henvelopes, map_append, ← hcreated]
          rfl
        · intro other hother
          rw [henvelopes, mem_append, mem_singleton] at hother
          rcases hother with hold | rfl
          · exact htask other hold
          · rw [← hwritten]
            rfl
        · intro other hother
          rw [henvelopes, mem_append, mem_singleton] at hother
          rcases hother with hold | rfl
          · exact hiri other hold
          · rw [← hwritten]
            exact ⟨_, uuid, rfl⟩
    | restart =>
      have hnew : ((track env ops).step env .restart).created = (track env ops).created := append_nil _
      have henvelopes : envelopes ((track env ops).step env .restart) = envelopes (track env ops) := by
        unfold envelopes
        rw [hnew]
      refine ⟨?_, ?_, ?_, ?_⟩
      · rw [hnew, ← hlive]
        exact append_nil _
      · rw [hnew, henvelopes]
        exact hcreated
      · rw [henvelopes]
        exact htask
      · rw [henvelopes]
        exact hiri
    | create now args => exact hop.elim
    | delete now iri => exact hop.elim
    | restoreLatest now taskIri' => exact hop.elim

theorem startsWith_pdcaPrefix (taskIri : String) (seq : UInt64) (uuid : String) :
    startsWith (pdcaPrefix taskIri) (envelopeIri taskIri seq uuid) = true := by
  have hsplit : envelopeIri taskIri seq uuid = pdcaPrefix taskIri ++ (toString seq.toNat ++ "/" ++ uuid) := by
    unfold envelopeIri pdcaPrefix
    simp only [String.append_assoc]
  rw [startsWith_iff, hsplit, String.toList_append]
  exact prefix_append _ _

/-- The entries of a scan, read one after the other. -/
theorem readEnvelopes_eq {rows : List (Σ _ : String, L0Entry)}
    (hrows : ∀ row ∈ rows, ∃ written ∈ envelopes t, written.envelopeIri = row.1 ∧
      env.envelopeFromStr row.2.content = .ok written) :
    ∃ found, readEnvelopes env (rows.map (·.2)) = .ok found ∧
      found.map PdcaCheckpointEnvelope.envelopeIri = rows.map (·.1) ∧
      ∀ written ∈ found, written ∈ envelopes t := by
  induction rows with
  | nil => exact ⟨[], rfl, rfl, fun _ h => (nomatch h)⟩
  | cons row rows ih =>
    rw [forall_mem_cons] at hrows
    obtain ⟨⟨written, hwritten, hiri, hread⟩, hrows⟩ := hrows
    obtain ⟨found, hfound, hiris, hmem⟩ := ih hrows
    refine ⟨written :: found, ?_, ?_, ?_⟩
    · unfold readEnvelopes at hfound ⊢
      rw [map_cons, mapM_cons, hread, hfound]
      rfl
    · rw [map_cons, map_cons, hiri, hiris]
    · exact forall_mem_cons.2 ⟨hwritten, hmem⟩

/-- **The envelopes that are read.** -/
theorem exists_readEnvelopes (h : Holds env t) (hcodec : ∀ item ∈ t.created, item.ReadsBack env)
    (honly : OnlyEnvelopes t taskIri) :
    ∃ entries found, t.state.l0.scanIriPrefix env.l0 (pdcaPrefix taskIri) 100 = .ok entries ∧
      readEnvelopes env entries = .ok found ∧
      ∀ written, written ∈ found ↔ written ∈ envelopes t ∧ Within t written := by
  have hlive : t.live.map Item.iri = (envelopes t).map PdcaCheckpointEnvelope.envelopeIri := by
    rw [honly.live_eq, honly.created_eq, map_map]
    rfl
  have hnodup := h.nodup
  rw [hlive] at hnodup
  have hstarts : ∀ iri ∈ (envelopes t).map PdcaCheckpointEnvelope.envelopeIri,
      startsWith (pdcaPrefix taskIri) iri = true := by
    intro iri hiri
    obtain ⟨written, hwritten, rfl⟩ := mem_map.1 hiri
    obtain ⟨seq, uuid, heq⟩ := honly.iri_eq written hwritten
    rw [heq]
    exact startsWith_pdcaPrefix taskIri seq uuid
  have hrank : ∀ written : PdcaCheckpointEnvelope,
      scanRank ((envelopes t).map PdcaCheckpointEnvelope.envelopeIri) (pdcaPrefix taskIri)
        written.envelopeIri < 100 ↔ Within t written := by
    intro written
    unfold scanRank Within
    rw [filter_congr fun iri hiri => by rw [hstarts iri hiri, Bool.true_and], filter_map,
      length_map]
    rfl
  obtain ⟨rows, hscan, -, hcontents, hmem⟩ := h.represents.scan h.nodup
    (fun _ => contents_ne_none.symm) (pdcaPrefix taskIri) (by decide : 0 < 100)
  rw [hlive] at hmem
  have hrows : ∀ row ∈ rows, ∃ written ∈ envelopes t, written.envelopeIri = row.1 ∧
      env.envelopeFromStr row.2.content = .ok written := by
    intro row hrow
    obtain ⟨written, hwritten, hiri⟩ := mem_map.1 ((hmem row.1).1 (mem_map_of_mem hrow)).1
    have hcreated := mem_envelopes.1 hwritten
    have hcontent : contents env t.live _ = _ := contents_of_mem h.nodup (honly.live_eq ▸ hcreated)
    rw [show (Item.envelope written).iri = row.1 from hiri, hcontents row hrow] at hcontent
    refine ⟨written, hwritten, hiri, ?_⟩
    rw [Option.some.inj hcontent]
    exact (hcodec _ hcreated).2
  obtain ⟨found, hfound, hiris, hsub⟩ := readEnvelopes_eq hrows
  refine ⟨rows.map (·.2), found, hscan, hfound, fun written => ?_⟩
  constructor
  · intro hin
    have hrow := (hmem written.envelopeIri).1 (hiris ▸ mem_map_of_mem hin)
    exact ⟨hsub written hin, (hrank written).1 hrow.2.2⟩
  · rintro ⟨hin, hwithin⟩
    have hiri := (hmem written.envelopeIri).2 ⟨mem_map_of_mem hin,
      hstarts _ (mem_map_of_mem hin), (hrank written).2 hwithin⟩
    rw [← hiris] at hiri
    obtain ⟨other, hother, heq⟩ := mem_map.1 hiri
    rwa [← inj_on_of_nodup_map hnodup (hsub other hother) hin heq]

variable {found : List PdcaCheckpointEnvelope}

theorem mem_completedSteps {step : PdcaStepKind} :
    step ∈ completedSteps found ↔ ∃ written ∈ found, written.step = step := by
  unfold completedSteps
  suffices hfold : ∀ steps : List PdcaStepKind,
      step ∈ found.foldl (fun steps envelope =>
        if envelope.step ∈ steps then steps else steps ++ [envelope.step]) steps ↔
          step ∈ steps ∨ ∃ written ∈ found, written.step = step by
    simpa using hfold []
  induction found with
  | nil => simp
  | cons first found ih =>
    intro steps
    rw [foldl_cons, ih]
    simp only [exists_mem_cons_iff]
    split_ifs with hin
    · constructor
      · rintro (hsteps | hfound)
        · exact .inl hsteps
        · exact .inr (.inr hfound)
      · rintro (hsteps | rfl | hfound)
        · exact .inl hsteps
        · exact .inl hin
        · exact .inr hfound
    · rw [mem_append, mem_singleton, or_assoc, eq_comm]

variable {claims : IsolationClaims}

theorem readPdcaResume_eq {entries : List L0Entry}
    (hscan : t.state.l0.scanIriPrefix env.l0 (pdcaPrefix taskIri) 100 = .ok entries)
    (hfound : readEnvelopes env entries = .ok found) :
    t.state.readPdcaResume env taskIri (some claims) = if found.isEmpty then .ok none
      else if found.any (fun written =>
          written.taskIri ≠ taskIri || written.claims ≠ .ofClaims claims) then
        .error (.permissionDenied "checkpoint" taskIri "resume PDCA envelope with mismatched verified claims")
      else .ok ((found.mergeSort fun a b => decide (a.createdAt ≤ b.createdAt)).getLast?.map
        fun newest => ⟨newest, completedSteps (found.mergeSort fun a b => decide (a.createdAt ≤ b.createdAt))⟩) := by
  unfold readPdcaResume
  rw [hscan]
  show (readEnvelopes env entries >>= _) = _
  rw [hfound]
  rfl

/-! ### The resumption -/

theorem any_foreign (htask : ∀ written ∈ found, written.taskIri = taskIri) :
    found.any (fun written => written.taskIri ≠ taskIri || written.claims ≠ .ofClaims claims) = true ↔
      ∃ written ∈ found, written.claims ≠ .ofClaims claims := by
  rw [any_eq_true]
  refine exists_congr fun written => and_congr_right fun hwritten => ?_
  rw [Bool.or_eq_true, decide_eq_true_eq, decide_eq_true_eq, or_iff_right]
  exact not_not.2 (htask written hwritten)

theorem eq_of_envelope_createdAt (honly : t.created = (envelopes t).map Item.envelope)
    (htimes : TimesIncrease t) {a b : PdcaCheckpointEnvelope} (ha : a ∈ envelopes t)
    (hb : b ∈ envelopes t) (heq : a.createdAt = b.createdAt) : a = b := by
  unfold TimesIncrease at htimes
  rw [honly, map_map] at htimes
  exact inj_on_of_nodup_map (htimes.imp fun hlt => ne_of_lt hlt) ha hb heq

/-- The last envelope is the newest one. -/
theorem createdAt_lt_newest (honly : t.created = (envelopes t).map Item.envelope) (htimes : TimesIncrease t)
    {newest : PdcaCheckpointEnvelope} (hnewest : (envelopes t).getLast? = some newest) :
    newest ∈ envelopes t ∧ ∀ other ∈ envelopes t, other ≠ newest → other.createdAt < newest.createdAt := by
  unfold TimesIncrease at htimes
  rw [honly, map_map] at htimes
  obtain ⟨earlier, hearlier⟩ := getLast?_eq_some_iff.1 hnewest
  rw [hearlier] at htimes ⊢
  rw [map_append, pairwise_append] at htimes
  refine ⟨mem_append_right _ (mem_singleton_self newest), fun other hother hne => ?_⟩
  rcases mem_append.1 hother with hearly | hlast
  · exact htimes.2.2 _ (mem_map_of_mem hearly) _ (mem_singleton_self _)
  · exact absurd (mem_singleton.1 hlast) hne

/-- The answer is made of the envelopes that are read: those within the page of the scan. -/
theorem exists_readPdcaResume (h : Holds env t) (hcodec : ∀ item ∈ t.created, item.ReadsBack env)
    (honly : OnlyEnvelopes t taskIri) (claims : IsolationClaims) :
    ∃ found : List PdcaCheckpointEnvelope, (∀ written, written ∈ found ↔ written ∈ envelopes t ∧ Within t written) ∧
      (∀ written ∈ found, written.taskIri = taskIri) ∧
      t.state.readPdcaResume env taskIri (some claims) = if found.isEmpty then .ok none
        else if found.any (fun written =>
            written.taskIri ≠ taskIri || written.claims ≠ .ofClaims claims) then
          .error (.permissionDenied "checkpoint" taskIri "resume PDCA envelope with mismatched verified claims")
        else .ok ((found.mergeSort fun a b => decide (a.createdAt ≤ b.createdAt)).getLast?.map
          fun newest => ⟨newest, completedSteps (found.mergeSort fun a b => decide (a.createdAt ≤ b.createdAt))⟩) := by
  obtain ⟨entries, found, hscan, hfound, hmem⟩ := exists_readEnvelopes h hcodec honly
  exact ⟨found, hmem, fun written hwritten => honly.taskIri_eq written ((hmem written).1 hwritten).1,
    readPdcaResume_eq hscan hfound⟩

/-- **What is answered tells what is read.** -/
theorem ResumeExact.readsEnough (h : Holds env t) (hcodec : ∀ item ∈ t.created, item.ReadsBack env)
    (honly : OnlyEnvelopes t taskIri) (hexact : ResumeExact env t taskIri claims) : ReadsEnough t claims := by
  obtain ⟨found, hmem, htask, hread⟩ := exists_readPdcaResume h hcodec honly claims
  constructor
  · intro hown
    have hanswer := hexact.own hown
    cases hnewest : (envelopes t).getLast? with
    | none =>
      rw [getLast?_eq_none_iff] at hnewest
      rw [hnewest]
      exact ⟨fun _ h => (nomatch h), fun _ h => (nomatch h)⟩
    | some newest =>
      rw [hnewest] at hanswer
      obtain ⟨resume, hresume, hlast, hsteps⟩ := hanswer
      rw [hread] at hresume
      split_ifs at hresume with hempty hforeign
      · cases hresume
      · obtain ⟨last, hsorted, heq⟩ := Option.map_eq_some_iff.1 (Except.ok.inj hresume)
        rw [← heq] at hlast hsteps
        have hin : newest ∈ found := by
          rw [← show last = newest from hlast, ← mem_mergeSort]
          exact mem_of_getLast? hsorted
        refine ⟨fun other hother => ?_, fun written hwritten => ?_⟩
        · cases hother
          exact ((hmem newest).1 hin).2
        · have hstep := (hsteps written.step).2 ⟨written, hwritten, rfl⟩
          obtain ⟨other, hother, hsame⟩ := mem_completedSteps.1 hstep
          rw [mem_mergeSort] at hother
          exact ⟨other, ((hmem other).1 hother).1, ((hmem other).1 hother).2, hsame⟩
  · intro hother
    have hanswer := hexact.foreign hother
    rw [hread] at hanswer
    split_ifs at hanswer with hempty hforeign
    obtain ⟨written, hwritten, hne⟩ := (any_foreign htask).1 hforeign
    exact ⟨written, ((hmem written).1 hwritten).1, ((hmem written).1 hwritten).2, hne⟩

/-- **What is read is enough for the answer.** -/
theorem ReadsEnough.resumeExact (h : Holds env t) (hcodec : ∀ item ∈ t.created, item.ReadsBack env)
    (htimes : TimesIncrease t) (honly : OnlyEnvelopes t taskIri) (henough : ReadsEnough t claims) :
    ResumeExact env t taskIri claims := by
  obtain ⟨found, hmem, htask, hread⟩ := exists_readPdcaResume h hcodec honly claims
  constructor
  · intro hown
    obtain ⟨hlast, hsteps⟩ := henough.own hown
    have hnone : ¬∃ written ∈ found, written.claims ≠ .ofClaims claims := by
      rintro ⟨written, hwritten, hne⟩
      exact hne (hown written ((hmem written).1 hwritten).1)
    cases hnewest : (envelopes t).getLast? with
    | none =>
      rw [getLast?_eq_none_iff] at hnewest
      have hempty : found = [] := by
        rw [eq_nil_iff_forall_not_mem]
        intro written hwritten
        have hin := ((hmem written).1 hwritten).1
        rw [hnewest] at hin
        cases hin
      show t.state.readPdcaResume env taskIri (some claims) = .ok none
      rw [hread, hempty]
      rfl
    | some newest =>
      obtain ⟨hin, hlater⟩ := createdAt_lt_newest honly.created_eq htimes hnewest
      have hfoundNewest : newest ∈ found := (hmem newest).2 ⟨hin, hlast newest hnewest⟩
      have hsorted : (found.mergeSort fun a b => decide (a.createdAt ≤ b.createdAt)).getLast? = some newest := by
        rw [getLast?_mergeSort]
        · exact ⟨hfoundNewest, fun other hother hne => hlater other ((hmem other).1 hother).1 hne⟩
        · intro other hother heq
          exact eq_of_envelope_createdAt honly.created_eq htimes ((hmem other).1 hother).1 hin heq
      refine ⟨⟨newest, completedSteps
        (found.mergeSort fun a b => decide (a.createdAt ≤ b.createdAt))⟩, ?_, rfl, fun step => ?_⟩
      · rw [hread, if_neg, if_neg, hsorted]
        · rfl
        · rwa [any_foreign htask]
        · rw [List.isEmpty_iff]
          exact ne_nil_of_mem hfoundNewest
      · rw [mem_completedSteps]
        simp only [mem_mergeSort]
        constructor
        · rintro ⟨written, hwritten, hstep⟩
          exact ⟨written, ((hmem written).1 hwritten).1, hstep⟩
        · rintro ⟨written, hwritten, rfl⟩
          obtain ⟨other, hother, hwithin, hstep⟩ := hsteps written hwritten
          exact ⟨other, (hmem other).2 ⟨hother, hwithin⟩, hstep⟩
  · intro hother
    obtain ⟨written, hwritten, hwithin, hne⟩ := henough.foreign hother
    have hin : written ∈ found := (hmem written).2 ⟨hwritten, hwithin⟩
    rw [hread, if_neg, if_pos]
    · exact (any_foreign htask).2 ⟨written, hin, hne⟩
    · rw [List.isEmpty_iff]
      exact ne_nil_of_mem hin

/-- With envelopes only, the numbers matter nothing: each envelope has its uuid. -/
theorem holds_of_isWriteOrRestart (hmean : env.l0.mean half half = half)
    (hops : ∀ op ∈ ops, op.IsWriteOrRestart taskIri) (huuids : UuidsUnique ops) : Holds env (track env ops) := by
  refine holds_of_freshNumbers hmean huuids ?_
  rintro before op after rfl now args rfl
  exact (hops _ (mem_append_right _ mem_cons_self)).elim

/-- **The resumption is exact if and only if** the envelopes among the first hundred speak for all: the
newest one is there, one of each step, and a foreign one if there is any. -/
theorem resumeExact_iff (hmean : env.l0.mean half half = half) {taskIri : String} {ops : List Op}
    (hops : ∀ op ∈ ops, op.IsWriteOrRestart taskIri) (hcodec : ∀ item ∈ (track env ops).created, item.ReadsBack env)
    (htimes : TimesIncrease (track env ops)) (huuids : UuidsUnique ops) (claims : IsolationClaims) :
    ResumeExact env (track env ops) taskIri claims ↔ ReadsEnough (track env ops) claims := by
  have hholds := holds_of_isWriteOrRestart hmean hops huuids
  have honly := onlyEnvelopes env hops
  exact ⟨ResumeExact.readsEnough hholds hcodec honly, ReadsEnough.resumeExact hholds hcodec htimes honly⟩

/-! ### A hundred and one envelopes -/

/-- The envelopes of a history, numbered from `seq` on. -/
def written : UInt64 → List Op → List PdcaCheckpointEnvelope
  | _, [] => []
  | seq, .writePdcaEnvelope now uuid taskIri step (some claims) tools :: ops =>
    pdcaEnvelope now uuid seq taskIri step claims tools :: written (seq + 1) ops
  | _, .restart :: ops => written 0 ops
  | seq, _ :: ops => written seq ops

theorem counter_writePdcaEnvelope (s : Checkpoints) (now : ℤ) (uuid taskIri : String) (step : PdcaStepKind)
    (claims : IsolationClaims) (tools : List String) :
    (s.writePdcaEnvelope env now uuid taskIri step (some claims) tools).2.manager.counter = s.manager.counter + 1 := by
  unfold writePdcaEnvelope
  dsimp only
  split
  · rfl
  · rfl

theorem envelopes_track (env : CheckpointEnv) (hops : ∀ op ∈ ops, op.IsWriteOrRestart taskIri) :
    envelopes (track env ops) = written 0 ops := by
  suffices hfold : ∀ t : Tracked, envelopes (ops.foldl (Tracked.step env) t) =
      envelopes t ++ written t.state.manager.counter ops from hfold _
  induction ops with
  | nil => exact fun t => (append_nil _).symm
  | cons op ops ih =>
    intro t
    rw [foldl_cons, ih fun op' hop' => hops op' (mem_cons_of_mem op hop')]
    have hop := hops op mem_cons_self
    cases op with
    | writePdcaEnvelope now uuid taskIri' step claims tools =>
      cases claims with
      | none => exact hop.elim
      | some claims =>
        have hcounter : (t.step env (.writePdcaEnvelope now uuid taskIri' step (some claims)
            tools)).state.manager.counter = t.state.manager.counter + 1 :=
          counter_writePdcaEnvelope t.state now uuid taskIri' step claims tools
        have hnew : envelopes (t.step env (.writePdcaEnvelope now uuid taskIri' step (some claims)
            tools)) = envelopes t ++ [pdcaEnvelope now uuid t.state.manager.counter taskIri' step claims tools] :=
          filterMap_append
        rw [hcounter, hnew, append_assoc]
        rfl
    | restart =>
      have hsame : envelopes (t.step env .restart) = envelopes t :=
        by
        unfold envelopes
        exact congrArg _ (append_nil t.created)
      rw [hsame]
      rfl
    | create now args => exact hop.elim
    | delete now iri => exact hop.elim
    | restoreLatest now taskIri' => exact hop.elim

/-- Three digits. -/
def sampleDigits (n : ℕ) : List Char := [Nat.digitChar (n / 100), Nat.digitChar (n / 10 % 10), Nat.digitChar (n % 10)]

/-- `00000000-0000-4000-8000-000000000`. -/
def sampleUuidStart : List Char :=
  List.replicate 8 '0' ++ '-' :: List.replicate 4 '0' ++ ['-', '4', '0', '0', '0', '-', '8'] ++
    List.replicate 3 '0' ++ '-' :: List.replicate 9 '0'

def sampleUuid (n : ℕ) : String := String.ofList (sampleUuidStart ++ sampleDigits n)

/-- One plan, ninety-eight actions, a check, and what is done upon it. -/
def sampleStep (n : ℕ) : PdcaStepKind :=
  if n = 0 then .plan else if n < 99 then .doing else if n = 99 then .check else .act

def sampleClaims : IsolationClaims := ⟨"acme", "project-1", "agent-7", tenant_safe_acme, rfl, rfl⟩

def sampleWrite (n : ℕ) : Op :=
  .writePdcaEnvelope n (sampleUuid n) "iri://task/demo" (sampleStep n) (some sampleClaims) []

def sampleEnvelope (n : ℕ) : PdcaCheckpointEnvelope :=
  pdcaEnvelope n (sampleUuid n) (UInt64.ofNat n) "iri://task/demo" (sampleStep n) sampleClaims []

theorem written_sampleWrites (first count : ℕ) :
    written (ofNat first) ((range' first count).map sampleWrite) =
      (range' first count).map sampleEnvelope := by
  induction count generalizing first with
  | zero => rfl
  | succ count ih =>
    rw [range'_succ, map_cons, map_cons, ← ih]
    show _ :: written (ofNat first + 1) _ = _
    rw [ofNat_add]
    rfl

theorem isDigit_digitChar {d : ℕ} (hd : d < 10) : (Nat.digitChar d).isDigit = true := by
  interval_cases d <;> decide

variable {n : ℕ}

theorem isUuid_sampleUuid (hn : n < 101) : IsUuid (sampleUuid n) := by
  have hstart : ∀ c ∈ sampleUuidStart, c = '0' ∨ c = '4' ∨ c = '8' ∨ c = '-' := by
    intro c hc
    simp only [sampleUuidStart, mem_append, mem_cons, mem_replicate] at hc
    tauto
  unfold IsUuid sampleUuid sampleDigits
  rw [String.toList_ofList]
  refine ⟨rfl, fun c hc => ?_⟩
  simp only [mem_append, mem_cons, not_mem_nil, or_false] at hc
  rcases hc with hin | rfl | rfl | rfl
  · rcases hstart c hin with rfl | rfl | rfl | rfl
    · exact .inl (by decide)
    · exact .inl (by decide)
    · exact .inl (by decide)
    · exact .inr (by decide)
  · exact .inl (isDigit_digitChar (by omega))
  · exact .inl (isDigit_digitChar (by omega))
  · exact .inl (isDigit_digitChar (by omega))

theorem nodup_sampleUuid : ((range 101).map sampleUuid).Nodup := by
  have hvalue : ((range 101).map sampleDigits).map
      (fun digits => Nat.ofDigitChars 10 digits 0) = range 101 := by decide +kernel
  have hdigits : ((range 101).map sampleDigits).Nodup := List.Nodup.of_map _ (hvalue ▸ nodup_range)
  have hmap := hdigits.map (f := fun digits => String.ofList (sampleUuidStart ++ digits))
    fun a b h => append_cancel_left (String.ofList_injective h)
  rwa [map_map] at hmap

/-- The JSON of an envelope without tools, after its IRI, within its first ten minutes. -/
def sampleRest (e : PdcaCheckpointEnvelope) : String :=
  ",\"task_iri\":\"" ++ e.taskIri ++ "\",\"step\":\"" ++
    (match e.step with | .plan => "Plan" | .doing => "Do" | .check => "Check" | .act => "Act") ++
    "\",\"claims\":\x7b\"tenant_id\":\"" ++ e.claims.tenantId ++ "\",\"project_id\":\"" ++
    e.claims.projectId ++ "\",\"actor_id\":\"" ++ e.claims.actorId ++
    "\"\x7d,\"advertised_tools\":[],\"created_at\":\"1970-01-01T00:0" ++ toString (e.createdAt / 60) ++
    ":" ++ toString (e.createdAt % 60 / 10) ++ toString (e.createdAt % 10) ++ "Z\"\x7d"

def sampleEnvelopeToString (e : PdcaCheckpointEnvelope) : String :=
  "\x7b\"envelope_iri\":\"" ++ (e.envelopeIri ++ ("\"" ++ sampleRest e))

def sampleEnvelopeEnv : CheckpointEnv where
  l0 := L0Store.sampleEnv
  arrayLength _ := 0
  checkpointToString _ := ""
  checkpointFromStr _ := none
  envelopeToString := sampleEnvelopeToString
  envelopeFromStr s :=
    match ((List.range 101).map sampleEnvelope).find? fun e => sampleEnvelopeToString e = s with
    | some e => .ok e
    | none => .error "EOF while parsing a value at line 1 column 0"

theorem toList_sampleEnvelopeToString (e : PdcaCheckpointEnvelope) :
    (sampleEnvelopeToString e).toList = "\x7b\"envelope_iri\":\"".toList ++
      (e.envelopeIri.toList ++ '"' :: (sampleRest e).toList) := by
  unfold sampleEnvelopeToString
  rw [String.toList_append, String.toList_append, String.toList_append]
  rfl

theorem toList_sampleIri (hn : n < 101) :
    (sampleEnvelope n).envelopeIri.toList = (pdcaPrefix "iri://task/demo").toList ++
      (Nat.toDigits 10 n ++ '/' :: (sampleUuid n).toList) := by
  have hnat : (ofNat n).toNat = n := by
    rw [toNat_ofNat']
    exact Nat.mod_eq_of_lt (hn.trans (by decide))
  have hiri : (sampleEnvelope n).envelopeIri =
      pdcaPrefix "iri://task/demo" ++ toString (ofNat n).toNat ++ "/" ++ sampleUuid n := rfl
  rw [hiri, hnat, String.toList_append, String.toList_append, String.toList_append,
    Nat.toString_eq_repr, Nat.toList_repr, append_assoc, append_assoc]
  rfl

theorem quote_notMem_sampleEnvelope (hn : n < 101) : '"' ∉ (sampleEnvelope n).envelopeIri.toList := by
  rw [toList_sampleIri hn, mem_append, mem_append, mem_cons]
  rintro (hmem | hmem | hmem | hmem)
  · revert hmem
    decide +kernel
  · exact absurd (Nat.isDigit_of_mem_toDigits (by decide) (by decide) hmem) (by decide)
  · exact absurd hmem (by decide)
  · rcases (isUuid_sampleUuid hn).2 _ hmem with hdigit | hletter
    · exact absurd hdigit (by decide)
    · exact absurd hletter (by decide)

theorem sampleEnvelope_inj {m n : ℕ} (hm : m < 101) (hn : n < 101)
    (h : sampleEnvelopeToString (sampleEnvelope m) = sampleEnvelopeToString (sampleEnvelope n)) : m = n := by
  have hlist := congrArg String.toList h
  rw [toList_sampleEnvelopeToString, toList_sampleEnvelopeToString] at hlist
  have hcancel := append_cancel_left hlist
  have hiri := Text.eq_of_append_cons hcancel (quote_notMem_sampleEnvelope hm)
    (quote_notMem_sampleEnvelope hn)
  have heq : envelopeIri "iri://task/demo" (ofNat m) (sampleUuid m) =
      envelopeIri "iri://task/demo" (ofNat n) (sampleUuid n) := String.toList_inj.1 hiri
  by_contra hne
  refine envelopeIri_ne (isUuid_sampleUuid hm) (isUuid_sampleUuid hn) (fun huuid => hne ?_) heq
  exact inj_on_of_nodup_map nodup_sampleUuid (mem_range.2 hm) (mem_range.2 hn) huuid

theorem readsBack_sampleEnvelope (hn : n < 101) : (Item.envelope (sampleEnvelope n)).ReadsBack sampleEnvelopeEnv := by
  refine ⟨rfl, ?_⟩
  have hmem : sampleEnvelope n ∈ (range 101).map sampleEnvelope := mem_map_of_mem (mem_range.2 hn)
  have hfind : ((range 101).map sampleEnvelope).find? (fun e =>
      sampleEnvelopeToString e = sampleEnvelopeToString (sampleEnvelope n)) = some (sampleEnvelope n) := by
    cases hfound : ((range 101).map sampleEnvelope).find? (fun e =>
        sampleEnvelopeToString e = sampleEnvelopeToString (sampleEnvelope n)) with
    | none => exact absurd (find?_eq_none.1 hfound _ hmem) (by simp)
    | some found =>
      obtain ⟨m, hm, rfl⟩ := mem_map.1 (mem_of_find?_eq_some hfound)
      have heq := find?_some hfound
      rw [sampleEnvelope_inj (mem_range.1 hm) hn (of_decide_eq_true heq)]
  show (match ((range 101).map sampleEnvelope).find? (fun e =>
      sampleEnvelopeToString e = sampleEnvelopeToString (sampleEnvelope n)) with
    | some e => Except.ok e
    | none => .error "EOF while parsing a value at line 1 column 0") = _
  rw [hfind]

/-- The operations that write the envelopes from `first` on. -/
def sampleWrites (first count : ℕ) : List Op := (List.range' first count).map sampleWrite

theorem isWriteOrRestart_sampleWrites (count : ℕ) :
    ∀ op ∈ sampleWrites 0 count, op.IsWriteOrRestart "iri://task/demo" := by
  intro op hop
  obtain ⟨n, -, rfl⟩ := mem_map.1 hop
  rfl

theorem envelopes_sampleWrites (count : ℕ) : envelopes (track sampleEnvelopeEnv (sampleWrites 0 count)) =
    (range count).map sampleEnvelope := by
  rw [envelopes_track sampleEnvelopeEnv (isWriteOrRestart_sampleWrites count)]
  exact (written_sampleWrites 0 count).trans (by rw [range_eq_range'])

theorem created_sampleWrites (count : ℕ) : (track sampleEnvelopeEnv (sampleWrites 0 count)).created =
    (range count).map fun n => .envelope (sampleEnvelope n) := by
  rw [(onlyEnvelopes sampleEnvelopeEnv (isWriteOrRestart_sampleWrites count)).created_eq,
    envelopes_sampleWrites, map_map]
  rfl

theorem timesIncrease_sampleWrites (count : ℕ) : TimesIncrease (track sampleEnvelopeEnv (sampleWrites 0 count)) := by
  unfold TimesIncrease
  rw [created_sampleWrites, map_map, pairwise_map]
  exact pairwise_lt_range.imp fun hlt => Int.ofNat_lt.2 hlt

variable {count : ℕ}

theorem readsBack_sampleWrites (hcount : count ≤ 101) :
    ∀ item ∈ (track sampleEnvelopeEnv (sampleWrites 0 count)).created, item.ReadsBack sampleEnvelopeEnv := by
  rw [created_sampleWrites]
  intro item hitem
  obtain ⟨n, hn, rfl⟩ := mem_map.1 hitem
  exact readsBack_sampleEnvelope ((mem_range.1 hn).trans_le hcount)

theorem uuidsUnique_sampleWrites (hcount : count ≤ 101) : UuidsUnique (sampleWrites 0 count) := by
  have huuids : (sampleWrites 0 count).filterMap Op.uuid? = (range count).map sampleUuid := by
    unfold sampleWrites
    rw [← range_eq_range', filterMap_map]
    exact congrFun filterMap_eq_map (range count)
  constructor
  · rw [huuids]
    intro uuid huuid
    obtain ⟨n, hn, rfl⟩ := mem_map.1 huuid
    exact isUuid_sampleUuid ((mem_range.1 hn).trans_le hcount)
  · rw [huuids]
    exact nodup_sampleUuid.sublist ((range_sublist.2 hcount).map _)

/-- The number `99` is the last one in the order of the texts. -/
theorem sampleEnvelope_lt_check (hn : n < 101) (hne : n ≠ 99) :
    (sampleEnvelope n).envelopeIri < (sampleEnvelope 99).envelopeIri := by
  have hdigits : ∀ n ∈ range 101, n ≠ 99 →
      Nat.toDigits 10 n ++ '/' :: (sampleUuid n).toList < Nat.toDigits 10 99 ++ '/' :: (sampleUuid 99).toList := by
    decide +kernel
  rw [String.lt_iff, toList_sampleIri hn, toList_sampleIri (by decide)]
  exact append_left_lt (hdigits n (mem_range.2 hn) hne)

theorem step_eq_check (h : sampleStep n = .check) : n = 99 := by
  unfold sampleStep at h
  split_ifs at h with h0 h99 hn
  exact hn

/-- The check comes after a hundred other IRIs. -/
theorem not_within_check {e : PdcaCheckpointEnvelope}
    (he : e ∈ envelopes (track sampleEnvelopeEnv (sampleWrites 0 101))) (hstep : e.step = .check) :
    ¬Within (track sampleEnvelopeEnv (sampleWrites 0 101)) e := by
  rw [envelopes_sampleWrites] at he
  obtain ⟨n, hn, rfl⟩ := mem_map.1 he
  obtain rfl := step_eq_check hstep
  unfold Within
  have hothers : (range 101).filter ((fun other => decide (other.envelopeIri <
      (sampleEnvelope 99).envelopeIri)) ∘ sampleEnvelope) = (range 101).filter (· ≠ 99) := by
    refine filter_congr fun i hi => decide_eq_decide.2 ⟨?_, ?_⟩
    · rintro hlt rfl
      exact lt_irrefl _ hlt
    · exact sampleEnvelope_lt_check (mem_range.1 hi)
  rw [envelopes_sampleWrites, filter_map, length_map, hothers]
  decide

/-- **The check is forgotten.** -/
theorem not_resumeExact_sampleWrites :
    ∃ (env : CheckpointEnv) (taskIri : String) (ops : List Op) (claims : IsolationClaims),
      env.l0.mean half half = half ∧ (∀ op ∈ ops, op.IsWriteOrRestart taskIri) ∧
      (∀ item ∈ (track env ops).created, item.ReadsBack env) ∧ TimesIncrease (track env ops) ∧
      UuidsUnique ops ∧ ¬ResumeExact env (track env ops) taskIri claims := by
  refine ⟨sampleEnvelopeEnv, "iri://task/demo", sampleWrites 0 101, sampleClaims, rfl,
    isWriteOrRestart_sampleWrites 101, readsBack_sampleWrites le_rfl, timesIncrease_sampleWrites 101,
    uuidsUnique_sampleWrites le_rfl, fun hexact => ?_⟩
  have hholds : Holds sampleEnvelopeEnv (track sampleEnvelopeEnv (sampleWrites 0 101)) :=
    holds_of_isWriteOrRestart rfl (isWriteOrRestart_sampleWrites 101) (uuidsUnique_sampleWrites le_rfl)
  have henough := hexact.readsEnough hholds (readsBack_sampleWrites le_rfl)
    (onlyEnvelopes sampleEnvelopeEnv (isWriteOrRestart_sampleWrites 101))
  have hown : ∀ e ∈ envelopes (track sampleEnvelopeEnv (sampleWrites 0 101)), e.claims = .ofClaims sampleClaims := by
    intro e he
    rw [envelopes_sampleWrites] at he
    obtain ⟨n, -, rfl⟩ := mem_map.1 he
    rfl
  have hcheck : sampleEnvelope 99 ∈ envelopes (track sampleEnvelopeEnv (sampleWrites 0 101)) := by
    rw [envelopes_sampleWrites]
    exact mem_map_of_mem (mem_range.2 (by decide))
  obtain ⟨other, hother, hwithin, hstep⟩ := (henough.own hown).2 _ hcheck
  exact not_within_check hother hstep hwithin

theorem resumeExact_iff_sampleWrites :
    ResumeExact sampleEnvelopeEnv (track sampleEnvelopeEnv (sampleWrites 0 101)) "iri://task/demo"
      sampleClaims ↔ ReadsEnough (track sampleEnvelopeEnv (sampleWrites 0 101)) sampleClaims :=
  resumeExact_iff rfl (isWriteOrRestart_sampleWrites 101) (readsBack_sampleWrites le_rfl)
    (timesIncrease_sampleWrites 101) (uuidsUnique_sampleWrites le_rfl) sampleClaims

end Checkpoints

end WildAgentOs.Core
