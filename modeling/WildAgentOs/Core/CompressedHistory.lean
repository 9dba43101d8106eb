import WildAgentOs.Core.ContextCompressor

/-!
# The compressed history

What `compress_messages` leaves of a list of messages: which calls and answers stay together, and whether the
list gets smaller.

* `KeptAfter`, `WellCompressed`, `Compressible`, `compressesSafely_iff`, `not_compressesSafely`;
* `Progresses`, `progresses_iff`, `not_progresses`.
-/

namespace WildAgentOs.Core

open List Option ChatMessage

namespace ContextWindowManager

/-! ### Orphans -/

/-- A message after `remove_orphaned_tool_messages`. -/
def settle (known : List String) (m : ChatMessage) : ChatMessage :=
  if m.role = "tool" ∧ isOrphaned known m then m.asUser else m

theorem removeOrphanedFrom_cons (known : List String) (m : ChatMessage) (messages : List ChatMessage) :
    removeOrphanedFrom known (m :: messages) =
      settle known m :: removeOrphanedFrom (known ++ m.issuedIds) messages := by
  rw [removeOrphanedFrom]
  unfold settle issuedIds
  by_cases hassistant : m.role = "assistant"
  · rw [if_pos hassistant, if_pos hassistant, if_neg]
    rw [hassistant]
    exact fun h => absurd h.1 (by decide)
  · rw [if_neg hassistant, if_neg hassistant, append_nil]
    by_cases htool : m.role = "tool"
    · simp only [htool, if_true, true_and]
    · simp only [htool, if_false, false_and]

theorem removeOrphanedFrom_append (known : List String) (l l' : List ChatMessage) :
    removeOrphanedFrom known (l ++ l') = removeOrphanedFrom known l ++ removeOrphanedFrom (known ++ issued l) l' := by
  induction l generalizing known with
  | nil => simp [removeOrphanedFrom]
  | cons m l ih => simp [removeOrphanedFrom_cons, ih, append_assoc]

theorem issuedIds_settle (known : List String) (m : ChatMessage) : (settle known m).issuedIds = m.issuedIds := by
  unfold settle
  split_ifs with horphan
  · rw [issuedIds_asUser, issuedIds_of_role]
    rw [horphan.1]
    decide
  · rfl

@[simp] theorem issued_removeOrphanedFrom (known : List String) (l : List ChatMessage) :
    issued (removeOrphanedFrom known l) = issued l := by
  induction l generalizing known with
  | nil => rfl
  | cons m l ih => rw [removeOrphanedFrom_cons, issued_cons, issued_cons, issuedIds_settle, ih]

@[simp] theorem length_removeOrphanedFrom (known : List String) (l : List ChatMessage) :
    (removeOrphanedFrom known l).length = l.length := by
  induction l generalizing known with
  | nil => rfl
  | cons m l ih => rw [removeOrphanedFrom_cons, length_cons, length_cons, ih]

/-- A place of the result is a place of the list. -/
theorem split_removeOrphanedFrom {known : List String} {l before after : List ChatMessage} {m' : ChatMessage}
    (h : removeOrphanedFrom known l = before ++ m' :: after) :
    ∃ b m a, l = b ++ m :: a ∧ issued b = issued before ∧ m' = settle (known ++ issued b) m ∧
      after = removeOrphanedFrom (known ++ issued b ++ m.issuedIds) a := by
  induction l generalizing known before with
  | nil => cases before <;> cases h
  | cons m l ih =>
    rw [removeOrphanedFrom_cons] at h
    cases before with
    | nil =>
      obtain ⟨hm, hafter⟩ := cons.inj h
      exact ⟨[], m, l, rfl, rfl, by simpa using hm.symm, by simpa using hafter.symm⟩
    | cons first before =>
      obtain ⟨hfirst, hrest⟩ := cons.inj h
      obtain ⟨b, m₁, a, rfl, hissued, hm', hafter⟩ := ih hrest
      refine ⟨m :: b, m₁, a, rfl, ?_, ?_, ?_⟩
      · rw [issued_cons, issued_cons, hissued, ← hfirst, issuedIds_settle]
      · simpa using hm'
      · simpa using hafter

variable {known : List String} {m : ChatMessage}

/-- A tool message is no orphan if it answers a known call that has a name. -/
theorem isOrphaned_eq_false_iff : isOrphaned known m = false ↔ ∃ id, id ≠ "" ∧ m.toolCallId = some id ∧ id ∈ known := by
  unfold isOrphaned
  cases hid : m.toolCallId with
  | none => simp
  | some id =>
    by_cases hempty : id = ""
    · simp [filter_some, hempty]
    · simp [filter_some, hempty]

/-- A tool message that stays answers a known call. -/
theorem exists_id_of_settle (h : (settle known m).role = "tool") :
    settle known m = m ∧ ∃ id, id ≠ "" ∧ m.toolCallId = some id ∧ id ∈ known := by
  unfold settle at h ⊢
  split_ifs at h ⊢ with horphan
  · exact absurd (show "user" = "tool" from h) (by decide)
  · exact ⟨rfl, isOrphaned_eq_false_iff.1 (Bool.eq_false_iff.2 fun hin => horphan ⟨h, hin⟩)⟩

/-- What answers a known call stays. -/
theorem settle_of_mem {id : String} (hid : m.toolCallId = some id) (hempty : id ≠ "")
    (hknown : id ∈ known) : settle known m = m := by
  unfold settle
  rw [if_neg]
  rintro ⟨-, horphan⟩
  rw [isOrphaned_eq_false_iff.2 ⟨id, hempty, hid, hknown⟩] at horphan
  exact absurd horphan Bool.false_ne_true

/-- **The result is paired.** -/
theorem paired_removeOrphanedToolMessages (l : List ChatMessage) : Paired (removeOrphanedToolMessages l) := by
  intro before m' after h htool
  obtain ⟨b, m, a, rfl, hissued, rfl, -⟩ := split_removeOrphanedFrom h
  obtain ⟨hm, id, -, hid, hin⟩ := exists_id_of_settle htool
  rw [hm]
  exact ⟨id, hid, by simpa [hissued] using hin⟩

/-- **Calls that were answered stay answered**, unless they have no name. -/
theorem answered_removeOrphanedToolMessages_iff {l : List ChatMessage} (h : Answered l) :
    Answered (removeOrphanedToolMessages l) ↔ "" ∉ issued l := by
  constructor
  · intro hanswered hempty
    rw [← issued_removeOrphanedFrom []] at hempty
    obtain ⟨m, hm, hid⟩ := mem_flatMap.1 hempty
    obtain ⟨before, after, hsplit⟩ := append_of_mem hm
    obtain ⟨answer, hanswer, htool, hanswerId⟩ := hanswered before m after hsplit "" hid
    obtain ⟨between, rest, rfl⟩ := append_of_mem hanswer
    obtain ⟨b, m₁, a, -, -, rfl, -⟩ := @split_removeOrphanedFrom [] l (before ++ m :: between) rest answer
      (by rw [append_assoc]; exact hsplit)
    obtain ⟨hm₁, id, hne, hid₁, -⟩ := exists_id_of_settle htool
    rw [hm₁, hid₁] at hanswerId
    exact hne (some.inj hanswerId)
  · intro hnamed before m' after hsplit id hid
    obtain ⟨b, m, a, rfl, -, rfl, rfl⟩ := split_removeOrphanedFrom hsplit
    rw [issuedIds_settle] at hid
    have hempty : id ≠ "" := by
      rintro rfl
      exact hnamed (by simp [hid])
    obtain ⟨answer, hanswer, htool, hanswerId⟩ := h b m a rfl id hid
    obtain ⟨between, rest, rfl⟩ := append_of_mem hanswer
    refine ⟨answer, ?_, htool, hanswerId⟩
    rw [removeOrphanedFrom_append, removeOrphanedFrom_cons,
      settle_of_mem hanswerId hempty (mem_append_left _ (mem_append_right _ hid))]
    exact mem_append_right _ mem_cons_self

/-! ### Messages that are kept -/

/-- After the messages that came before, each message stays, or it is a tool message that becomes one of a user,
and none of the messages before it makes its call. -/
inductive KeptAfter : List ChatMessage → List ChatMessage → List ChatMessage → Prop
  | nil (before : List ChatMessage) : KeptAfter before [] []
  | cons {before l l' : List ChatMessage} {m m' : ChatMessage}
      (h : m' = m ∨ m.role = "tool" ∧ m' = m.asUser ∧ ∀ id, m.toolCallId = some id → id ∉ issued before)
      (rest : KeptAfter (before ++ [m']) l l') : KeptAfter before (m :: l) (m' :: l')

theorem KeptAfter.refl (before l : List ChatMessage) : KeptAfter before l l := by
  induction l generalizing before with
  | nil => exact .nil before
  | cons m l ih => exact .cons (.inl rfl) (ih _)

theorem KeptAfter.length_eq {before l l' : List ChatMessage} (h : KeptAfter before l l') : l'.length = l.length := by
  induction h with
  | nil before => rfl
  | cons _ _ ih => rw [length_cons, length_cons, ih]

variable {before : List ChatMessage}

/-- One message is kept unless it answers a call without a name. -/
theorem settle_kept_iff (hknown : issued before = known) (m : ChatMessage) :
    (settle known m = m ∨ m.role = "tool" ∧ settle known m = m.asUser ∧
        ∀ id, m.toolCallId = some id → id ∉ issued before) ↔
      (m.role = "tool" → m.toolCallId = some "" → "" ∉ known) := by
  unfold settle
  by_cases htool : m.role = "tool"
  · have hne : m.asUser ≠ m := by
      intro heq
      have hrole : "user" = "tool" := (congrArg role heq).trans htool
      exact absurd hrole (by decide)
    by_cases horphan : isOrphaned known m
    · rw [if_pos ⟨htool, horphan⟩]
      simp only [htool, hne, false_or, true_and, forall_const, hknown]
      constructor
      · exact fun h => h ""
      · rintro hempty id hid hin
        by_cases heq : id = ""
        · subst heq
          exact hempty hid hin
        · rw [isOrphaned_eq_false_iff.2 ⟨id, heq, hid, hin⟩] at horphan
          exact absurd horphan Bool.false_ne_true
    · obtain ⟨id, hempty, hid, -⟩ := isOrphaned_eq_false_iff.1 (Bool.eq_false_iff.2 horphan)
      rw [if_neg fun h => horphan h.2]
      refine iff_of_true (.inl rfl) fun _ hid' => ?_
      exact absurd (some.inj (hid.symm.trans hid')) hempty
  · rw [if_neg fun h => htool h.1]
    exact iff_of_true (.inl rfl) fun h => absurd h htool

/-- **Messages are kept** exactly if none of them answers a call without a name. -/
theorem keptAfter_iff (hknown : issued before = known) (l : List ChatMessage) :
    KeptAfter before l (removeOrphanedFrom known l) ↔
      ∀ b m a, l = b ++ m :: a → m.role = "tool" → m.toolCallId = some "" → "" ∉ known ++ issued b := by
  induction l generalizing before known with
  | nil =>
    rw [removeOrphanedFrom]
    refine iff_of_true (.nil before) fun b m a h => ?_
    cases b <;> cases h
  | cons m l ih =>
    have hnext : issued (before ++ [settle known m]) = known ++ m.issuedIds := by
      simp [hknown, issuedIds_settle]
    rw [removeOrphanedFrom_cons]
    constructor
    · intro h
      cases h with
      | cons hm hrest =>
        intro b m₁ a hsplit
        cases b with
        | nil =>
          obtain ⟨rfl, rfl⟩ := cons.inj hsplit
          simpa using (settle_kept_iff hknown m).1 hm
        | cons first b =>
          obtain ⟨rfl, rfl⟩ := cons.inj hsplit
          simpa using (ih hnext).1 hrest b m₁ a rfl
    · intro h
      refine .cons ((settle_kept_iff hknown m).2 ?_) ((ih hnext).2 fun b m₁ a hsplit => ?_)
      · simpa using h [] m l rfl
      · simpa using h (m :: b) m₁ a (by rw [hsplit]; rfl)

/-! ### What is compressed well -/

/-- The leading system message and the last messages are kept, each tool message answers a call, and each call
is answered if it was before. -/
structure WellCompressed (preserveRecent : ℕ) (messages out : List ChatMessage) : Prop where
  system : ∀ m, systemMessage messages = some m → out.head? = some m
  recent : ∃ before recent, out = before ++ recent ∧
    KeptAfter before (messages.drop (messages.length - preserveRecent)) recent
  paired : Paired out
  answered : Answered messages → Answered out

variable (env : CompressorEnv) (cwm : ContextWindowManager)

/-- The call ends without a panic, and compresses well. -/
def CompressesSafely (messages : List ChatMessage) : Prop :=
  ∃ out summary, cwm.compressMessages env messages = some (out, summary) ∧
    WellCompressed cwm.preserveRecent messages out

/-- The messages between the system message and the recent ones. -/
def middle (messages : List ChatMessage) : List ChatMessage :=
  (messages.take (cwm.recentStart messages)).drop (middleStart messages)

/-- How many messages are summarized. -/
def summarizedCount (messages : List ChatMessage) : ℕ := cwm.splitMiddle env (cwm.middle messages)

/-- The summary of these. -/
def summary (messages : List ChatMessage) : String :=
  summarizeMiddleMessages env ((cwm.middle messages).take (cwm.summarizedCount env messages))

/-- The messages after the summarized ones. -/
def retained (messages : List ChatMessage) : List ChatMessage :=
  messages.drop (middleStart messages + cwm.summarizedCount env messages)

/-- A list that is not compressed is paired; otherwise the system message is not among the recent ones, and no
call without a name is retained. -/
def Compressible (messages : List ChatMessage) : Prop :=
  if messages.length ≤ cwm.maxMessages then Paired messages
  else middleStart messages ≤ cwm.recentStart messages ∧
    (∀ b m a, cwm.retained env messages = b ++ m :: a → a.length < cwm.preserveRecent →
      m.role = "tool" → m.toolCallId = some "" → "" ∉ issued b) ∧
    (Answered messages → "" ∉ issued (cwm.retained env messages))

variable {env cwm} {messages : List ChatMessage}

theorem adjustBoundaryForToolCalls_le (messages : List ChatMessage) (boundary : ℕ) :
    adjustBoundaryForToolCalls messages boundary ≤ boundary := by
  unfold adjustBoundaryForToolCalls
  split
  · exact le_rfl
  · split_ifs
    · exact le_rfl
    · split
      · exact le_rfl
      · next id _ =>
        cases hfind : (List.range boundary).reverse.find? (makesCall messages id) with
        | none => exact le_rfl
        | some j =>
          have hj := mem_range.1 (mem_reverse.1 (mem_of_find?_eq_some hfind))
          exact hj.le

theorem splitMiddle_le (middle : List ChatMessage) : cwm.splitMiddle env middle ≤ middle.length := by
  unfold splitMiddle
  simp only
  split_ifs
  · exact (adjustBoundaryForToolCalls_le _ _).trans (Nat.sub_le _ _)
  · exact Nat.zero_le _
  · exact le_rfl

/-- The summarized messages end where the recent ones start, or before. -/
theorem middleStart_add_le (hstart : middleStart messages ≤ cwm.recentStart messages) :
    middleStart messages + cwm.summarizedCount env messages ≤ messages.length - cwm.preserveRecent := by
  have hsplit : cwm.summarizedCount env messages ≤ (cwm.middle messages).length := splitMiddle_le _
  have hrecent : cwm.recentStart messages ≤ messages.length - cwm.preserveRecent := adjustBoundaryForToolCalls_le _ _
  unfold middle at hsplit
  rw [length_drop, length_take] at hsplit
  omega

/-- What comes before the retained messages. -/
def front (env : CompressorEnv) (cwm : ContextWindowManager) (messages : List ChatMessage) : List ChatMessage :=
  (systemMessage messages).toList ++
    (if cwm.summary env messages = "" then [] else [summaryMessage (cwm.summary env messages)])

/-- Nothing in front makes or answers a call. -/
theorem role_of_mem_front (h : m ∈ front env cwm messages) : m.role ≠ "assistant" ∧ m.role ≠ "tool" := by
  unfold front at h
  rcases mem_append.1 h with hin | hin
  · obtain ⟨-, hsystem⟩ := filter_eq_some_iff.1 (mem_toList.1 hin)
    rw [of_decide_eq_true hsystem]
    decide
  · split_ifs at hin
    · exact absurd hin not_mem_nil
    · rw [mem_singleton.1 hin]
      show "user" ≠ "assistant" ∧ "user" ≠ "tool"
      decide

theorem issued_front : issued (front env cwm messages) = [] :=
  flatMap_eq_nil_iff.2 fun _ hm => issuedIds_of_role (role_of_mem_front hm).1

theorem removeOrphanedFrom_front : removeOrphanedFrom [] (front env cwm messages) = front env cwm messages := by
  have hall : ∀ (l : List ChatMessage) (known : List String), (∀ m ∈ l, m.role ≠ "tool") →
      removeOrphanedFrom known l = l := by
    intro l
    induction l with
    | nil => exact fun _ _ => rfl
    | cons m l ih =>
      intro known h
      have hm : settle known m = m := if_neg fun htool => h m mem_cons_self htool.1
      rw [removeOrphanedFrom_cons, hm, ih _ fun m' hm' => h m' (mem_cons_of_mem m hm')]
  exact hall _ _ fun m hm => (role_of_mem_front hm).2

/-- **What is computed**: the front, and the retained messages without orphans. -/
theorem compressMessages_eq (hcount : cwm.maxMessages < messages.length)
    (hstart : middleStart messages ≤ cwm.recentStart messages) :
    cwm.compressMessages env messages = some
      (removeOrphanedToolMessages (front env cwm messages ++ cwm.retained env messages), cwm.summary env messages) := by
  have hrecent : cwm.recentStart messages ≤ messages.length :=
    (adjustBoundaryForToolCalls_le _ _).trans (Nat.sub_le _ _)
  have hsplit : cwm.summarizedCount env messages ≤ (cwm.middle messages).length := splitMiddle_le _
  have hretained : (cwm.middle messages).drop (cwm.summarizedCount env messages) ++
      messages.drop (cwm.recentStart messages) = cwm.retained env messages := by
    unfold retained
    unfold middle at hsplit ⊢
    rw [length_drop, length_take] at hsplit
    rw [drop_drop, ← drop_append_of_le_length, take_append_drop]
    rw [length_take]
    omega
  unfold compressMessages
  rw [if_neg (Nat.not_le.2 hcount)]
  simp only
  rw [if_neg (Nat.not_lt.2 hstart), ← hretained, ← append_assoc]
  rfl

theorem compressMessages_eq_none (hcount : cwm.maxMessages < messages.length)
    (hstart : cwm.recentStart messages < middleStart messages) : cwm.compressMessages env messages = none := by
  unfold compressMessages
  rw [if_neg (Nat.not_le.2 hcount)]
  exact if_pos hstart

variable {p : List ChatMessage → Prop}

/-- A call that ends has one result. -/
theorem exists_compressed_iff {done : List ChatMessage × String} (h : cwm.compressMessages env messages = some done) :
    (∃ out summary, cwm.compressMessages env messages = some (out, summary) ∧ p out) ↔ p done.1 := by
  constructor
  · rintro ⟨out, summary, hout, hp⟩
    obtain rfl := some.inj (h.symm.trans hout)
    exact hp
  · exact fun hp => ⟨done.1, done.2, h, hp⟩

/-- A call that panics has none. -/
theorem not_exists_compressed (h : cwm.compressMessages env messages = none) :
    ¬∃ out summary, cwm.compressMessages env messages = some (out, summary) ∧ p out := by
  rintro ⟨out, summary, hout, -⟩
  rw [h] at hout
  cases hout

/-- The retained messages, cut before the last ones. -/
theorem exists_retained_eq (hstart : middleStart messages ≤ cwm.recentStart messages) :
    ∃ earlier, cwm.retained env messages = earlier ++ messages.drop (messages.length - cwm.preserveRecent) := by
  have hle := @middleStart_add_le env cwm messages hstart
  refine ⟨(messages.take (messages.length - cwm.preserveRecent)).drop
    (middleStart messages + cwm.summarizedCount env messages), ?_⟩
  unfold retained
  rw [← drop_append_of_le_length, take_append_drop]
  rw [length_take]
  omega

/-- The last messages are kept exactly if none of them answers a call without a name. -/
theorem recent_iff (hstart : middleStart messages ≤ cwm.recentStart messages) :
    (∃ before recent, removeOrphanedToolMessages (front env cwm messages ++ cwm.retained env messages) =
        before ++ recent ∧ KeptAfter before (messages.drop (messages.length - cwm.preserveRecent)) recent) ↔
      ∀ b m a, cwm.retained env messages = b ++ m :: a → a.length < cwm.preserveRecent →
        m.role = "tool" → m.toolCallId = some "" → "" ∉ issued b := by
  obtain ⟨earlier, hretained⟩ := @exists_retained_eq env cwm messages hstart
  have hshort : (cwm.retained env messages).length ≤ messages.length := by
    unfold retained
    rw [length_drop]
    exact Nat.sub_le _ _
  generalize hlast : messages.drop (messages.length - cwm.preserveRecent) = last at hretained ⊢
  have hlength : last.length = messages.length - (messages.length - cwm.preserveRecent) := by
    rw [← hlast, length_drop]
  rw [hretained] at hshort ⊢
  have hout : removeOrphanedToolMessages (front env cwm messages ++ (earlier ++ last)) =
      (front env cwm messages ++ removeOrphanedFrom [] earlier) ++ removeOrphanedFrom (issued earlier) last := by
    unfold removeOrphanedToolMessages
    rw [removeOrphanedFrom_append, removeOrphanedFrom_front, issued_front, removeOrphanedFrom_append]
    simp only [nil_append, append_assoc]
  have hknown : issued (front env cwm messages ++ removeOrphanedFrom [] earlier) = issued earlier := by
    simp [issued_front]
  rw [hout]
  have hiff := keptAfter_iff hknown last
  constructor
  · rintro ⟨before, recent, hsplit, hkept⟩ b m a hbma hafter htool hid
    obtain ⟨hbefore, rfl⟩ := append_inj' hsplit (by rw [length_removeOrphanedFrom, hkept.length_eq])
    rw [← hbefore] at hkept
    -- The message is one of the last.
    obtain ⟨c, rfl, hc⟩ : ∃ c, b = earlier ++ c ∧ last = c ++ m :: a := by
      rcases append_eq_append_iff.1 hbma with ⟨c, hb, hc⟩ | ⟨c, hearlier, hc⟩
      · exact ⟨c, hb, hc⟩
      · have hcLength := congrArg List.length hc
        have htotal := congrArg List.length hbma
        simp only [length_append, length_cons] at hcLength htotal hshort
        obtain rfl : c = [] := length_eq_zero_iff.1 (by omega)
        exact ⟨[], by simpa using hearlier.symm, hc.symm⟩
    rw [issued_append]
    exact hiff.1 hkept c m a hc htool hid
  · intro h
    refine ⟨_, _, rfl, hiff.2 fun b m a hbma htool hid => ?_⟩
    rw [← issued_append]
    have haLength := congrArg List.length hbma
    rw [length_append, length_cons] at haLength
    exact h (earlier ++ b) m a (by rw [hbma, append_assoc]) (by omega) htool hid

variable {l l' : List ChatMessage}

theorem Answered.of_append (h : Answered (l ++ l')) : Answered l' := by
  intro before m after hsplit
  exact h (l ++ before) m after (by rw [hsplit, append_assoc])

/-- Messages that make no calls may come first. -/
theorem Answered.append (h : Answered l') (hl : issued l = []) : Answered (l ++ l') := by
  intro before m after hsplit id hid
  rcases append_eq_append_iff.1 hsplit with ⟨c, rfl, hc⟩ | ⟨c, rfl, hc⟩
  · exact h c m after hc id hid
  · cases c with
    | nil => exact h [] m after hc.symm id hid
    | cons first c =>
      obtain ⟨rfl, -⟩ := cons.inj hc
      rw [issued_append, issued_cons] at hl
      rw [(append_eq_nil_iff.1 (append_eq_nil_iff.1 hl).2).1] at hid
      exact absurd hid not_mem_nil

/-- **When a history is compressed safely.** -/
theorem compressesSafely_iff (env : CompressorEnv) (cwm : ContextWindowManager) (messages : List ChatMessage) :
    cwm.CompressesSafely env messages ↔ cwm.Compressible env messages := by
  unfold CompressesSafely Compressible
  by_cases hcount : messages.length ≤ cwm.maxMessages
  · have hsame : cwm.compressMessages env messages = some (messages, "") := if_pos hcount
    rw [if_pos hcount]
    refine (exists_compressed_iff hsame).trans ⟨fun hwell => hwell.paired, fun hpaired => ?_⟩
    refine ⟨fun m hm => (filter_eq_some_iff.1 hm).1, ?_, hpaired, id⟩
    exact ⟨_, _, (take_append_drop _ messages).symm, .refl _ _⟩
  · rw [if_neg hcount]
    rw [not_le] at hcount
    by_cases hstart : middleStart messages ≤ cwm.recentStart messages
    · have hsome := @compressMessages_eq env cwm messages hcount hstart
      have hissued : issued (front env cwm messages ++ cwm.retained env messages) =
          issued (cwm.retained env messages) := by
        rw [issued_append, issued_front, nil_append]
      have hanswered : Answered messages → Answered (front env cwm messages ++ cwm.retained env messages) := by
        intro h
        refine Answered.append ?_ issued_front
        rw [← take_append_drop (middleStart messages + cwm.summarizedCount env messages) messages] at h
        exact Answered.of_append h
      have hrecent := @recent_iff env cwm messages hstart
      refine (exists_compressed_iff hsome).trans ?_
      constructor
      · intro hwell
        refine ⟨hstart, hrecent.1 hwell.recent, fun h => ?_⟩
        exact hissued ▸ (answered_removeOrphanedToolMessages_iff (hanswered h)).1 (hwell.answered h)
      · rintro ⟨-, hkept, hnamed⟩
        refine ⟨fun m hm => ?_, hrecent.2 hkept, paired_removeOrphanedToolMessages _, fun h => ?_⟩
        · have htool : m.role ≠ "tool" := by
            rw [of_decide_eq_true (filter_eq_some_iff.1 hm).2]
            decide
          have hfirst : settle [] m = m := if_neg fun h => htool h.1
          unfold front removeOrphanedToolMessages
          rw [hm, toList_some, append_assoc, singleton_append, removeOrphanedFrom_cons, hfirst]
          rfl
        · exact (answered_removeOrphanedToolMessages_iff (hanswered h)).2 (hissued ▸ hnamed h)
    · have hnone := @compressMessages_eq_none env cwm messages hcount (not_le.1 hstart)
      exact iff_of_false (not_exists_compressed hnone) fun h => hstart h.1

/-- Half of a length is kept, and the tools stay in order. -/
def sampleCompressor : CompressorEnv where
  scale len _ := len / 2
  toolOrder names := names
  toolOrder_perm _ := .refl _

def textMessage (role text : String) : ChatMessage := ⟨role, .text text, none, none, none, none⟩

/-- The ratio is 0.5. -/
def sampleWindow (maxMessages maxTokens preserveRecent : ℕ) : ContextWindowManager :=
  ⟨maxMessages, maxTokens, ⟨0x3F000000⟩, preserveRecent⟩

/-- The system message is one of the recent messages, and the slice of the middle panics. -/
theorem not_compressesSafely : ¬(sampleWindow 2 1000 4).CompressesSafely sampleCompressor
    [textMessage "system" "Be brief.", textMessage "user" "Hello", textMessage "user" "Hello again"] :=
  not_exists_compressed (compressMessages_eq_none (by decide) (by decide))

/-! ### Progress -/

/-- The list gets smaller in the measure that asked for the compression. -/
def Progresses (env : CompressorEnv) (cwm : ContextWindowManager) (messages : List ChatMessage) : Prop :=
  ∃ out summary, cwm.compressMessages env messages = some (out, summary) ∧
    if cwm.maxMessages < messages.length then out.length < messages.length
    else estimateTokens out < estimateTokens messages

/-- **When a compression makes progress**: the messages are too many, and more messages are summarized than
messages are added. -/
theorem progresses_iff (env : CompressorEnv) (cwm : ContextWindowManager) (messages : List ChatMessage) :
    cwm.Progresses env messages ↔
      cwm.maxMessages < messages.length ∧ middleStart messages ≤ cwm.recentStart messages ∧
        (if cwm.summary env messages = "" then 0 else 1) < cwm.summarizedCount env messages := by
  unfold Progresses
  by_cases hcount : cwm.maxMessages < messages.length
  · simp only [hcount, if_true, true_and]
    by_cases hstart : middleStart messages ≤ cwm.recentStart messages
    · have hsome := @compressMessages_eq env cwm messages hcount hstart
      have hle := @middleStart_add_le env cwm messages hstart
      have hlength : (removeOrphanedToolMessages (front env cwm messages ++ cwm.retained env messages)).length +
          cwm.summarizedCount env messages = messages.length + if cwm.summary env messages = "" then 0 else 1 := by
        have hsystem : (systemMessage messages).toList.length = middleStart messages := by
          unfold middleStart
          cases systemMessage messages <;> rfl
        unfold removeOrphanedToolMessages front retained
        rw [length_removeOrphanedFrom, length_append, length_append, length_drop, hsystem]
        split_ifs <;> simp only [length_nil, length_singleton] <;> omega
      simp only [hstart, true_and]
      refine (exists_compressed_iff hsome).trans ?_
      show (removeOrphanedToolMessages (front env cwm messages ++ cwm.retained env messages)).length < _ ↔ _
      omega
    · have hnone := @compressMessages_eq_none env cwm messages hcount (not_le.1 hstart)
      exact iff_of_false (not_exists_compressed hnone) fun h => hstart h.1
  · have hsame : cwm.compressMessages env messages = some (messages, "") := if_pos (not_lt.1 hcount)
    refine iff_of_false (fun h => ?_) fun h => hcount h.1
    have hless := (exists_compressed_iff hsame).1 h
    rw [if_neg hcount] at hless
    exact lt_irrefl _ hless

/-- The tokens ask for a compression, but the messages are few. -/
theorem not_progresses : let messages := List.replicate 4 (textMessage "user" "Hello, world!")
    let cwm := sampleWindow 10 1 1
    cwm.preserveRecent + 2 < messages.length ∧ cwm.shouldCompress messages.length messages = true ∧
      ¬cwm.Progresses sampleCompressor messages := by
  refine ⟨by decide, by decide, ?_⟩
  rintro ⟨out, summary, hout, hless⟩
  obtain ⟨rfl, -⟩ := Prod.mk.inj (some.inj hout)
  rw [if_neg (by decide)] at hless
  exact lt_irrefl _ hless

end ContextWindowManager

end WildAgentOs.Core
