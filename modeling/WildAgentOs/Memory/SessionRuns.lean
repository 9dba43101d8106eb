import WildAgentOs.Memory.L1Session

/-!
# Runs of a session

What the calls on a session keep: the count of tokens, the turn that is returned, and the references to archives.

* `evictWithQuery_spec`, `Room`, `returned_of_room`, `Meets`, `Keeps`, `Returns`, `keepsRun_of_meets`, `not_keepsRun`.
-/

namespace WildAgentOs.Memory.L1Session

open List L1Session

section

variable (env : FloatEnv)

/-- What turns cost. -/
def costs (turns : List L1Turn) : ℕ := (turns.map (cost env)).sum

@[simp] theorem costs_nil : costs env [] = 0 := rfl

@[simp] theorem costs_cons (t : L1Turn) (turns : List L1Turn) :
    costs env (t :: turns) = cost env t + costs env turns := by
  simp [costs]

@[simp] theorem costs_append (turns turns' : List L1Turn) :
    costs env (turns ++ turns') = costs env turns + costs env turns' := by
  simp [costs]

end

variable {env : FloatEnv} {s : L1Session} {now later : ℤ} {query : Option (List F32)} {cfg : EvictionConfig}
variable {budget : ℕ}

theorem costs_perm {turns turns' : List L1Turn} (h : turns.Perm turns') : costs env turns = costs env turns' :=
  (h.map _).sum_eq

/-! ### What an eviction takes away -/

/-- The turns are kept or evicted, and the tokens count those that are left. -/
structure Splits (env : FloatEnv) (tokens : ℤ) (turns : List L1Turn) (phase : Eviction) : Prop where
  perm : (phase.kept ++ phase.evicted).Perm turns
  tokens : phase.tokens = tokens - costs env phase.evicted

theorem splits_hardPhase (tokens : ℤ) (turns : List L1Turn) :
    Splits env tokens turns (hardPhase env cfg now budget tokens turns) := by
  induction turns generalizing tokens with
  | nil => exact ⟨.refl _, by simp [hardPhase]⟩
  | cons t rest ih =>
    unfold hardPhase
    split_ifs
    · exact ⟨by simp, by simp⟩
    · have h := ih (tokens - cost env t)
      refine ⟨perm_middle.trans (h.perm.cons t), ?_⟩
      simp only [h.tokens, costs_cons, Nat.cast_add]
      omega
    · have h := ih tokens
      exact ⟨h.perm.cons t, h.tokens⟩

theorem splits_scorePhase (passes : ℕ) (tokens : ℤ) (turns : List L1Turn) :
    Splits env tokens turns (scorePhase env cfg now query budget passes tokens turns) := by
  induction passes generalizing tokens turns with
  | zero => exact ⟨by simp [scorePhase], by simp [scorePhase]⟩
  | succ passes ih =>
    unfold scorePhase
    split_ifs
    · exact ⟨by simp, by simp⟩
    · split
      · exact ⟨by simp, by simp⟩
      · next idx _ =>
        split
        · exact ⟨by simp, by simp⟩
        · next removed hremoved =>
          have h := ih (tokens - cost env removed) (turns.eraseIdx idx)
          obtain ⟨hidx, rfl⟩ := List.getElem?_eq_some_iff.1 hremoved
          refine ⟨perm_middle.trans ((h.perm.cons _).trans (getElem_cons_eraseIdx_perm hidx)), ?_⟩
          simp only [h.tokens, costs_cons, Nat.cast_add]
          omega

theorem splits_evictTail (tail : List L1Turn) : Splits env s.currentTokens tail (evictTail env now query s tail) := by
  have hhard := @splits_hardPhase env now s.evictionConfig s.tokenBudget s.currentTokens tail
  generalize hphase : hardPhase env s.evictionConfig now s.tokenBudget s.currentTokens tail = hard at hhard
  have hscored := @splits_scorePhase env now (query.or s.taskEmbedding) s.evictionConfig s.tokenBudget
    hard.kept.length hard.tokens hard.kept
  unfold evictTail
  simp only [hphase]
  refine ⟨?_, ?_⟩
  · refine Perm.trans ?_ ((hscored.perm.append_right hard.evicted).trans hhard.perm)
    rw [append_assoc]
    exact perm_append_comm.append_left _
  · have hleft := hhard.tokens
    have hend := hscored.tokens
    simp only [costs_append, Nat.cast_add]
    omega

/-- **What an eviction does**: the turns that are taken away pay for themselves, and leave their references. -/
theorem evictWithQuery_spec (s : L1Session) (now : ℤ) (query : Option (List F32)) : ∃ evicted,
    ((s.evictWithQuery env now query).1.turns ++ evicted).Perm s.turns ∧
      (s.evictWithQuery env now query).1.currentTokens = s.currentTokens - costs env evicted ∧
      (s.evictWithQuery env now query).1.weakRefs = s.weakRefs ++ evicted.filterMap (·.l0ArchiveIri) := by
  have hsame : ∃ evicted, (s.turns ++ evicted).Perm s.turns ∧ s.currentTokens = s.currentTokens - costs env evicted ∧
      s.weakRefs = s.weakRefs ++ evicted.filterMap (·.l0ArchiveIri) := ⟨[], by simp, by simp, by simp⟩
  unfold evictWithQuery
  split
  · exact hsame
  · next first tail hturns =>
    split_ifs
    · exact hsame
    · have h := @splits_evictTail env s now query tail
      exact ⟨_, by rw [hturns]; exact h.perm.cons first, h.tokens, rfl⟩

/-! ### The turn that is returned -/

/-- A turn that a second phase evicts before a new one. -/
def goesBefore (env : FloatEnv) (cfg : EvictionConfig) (now : ℤ) (query : Option (List F32)) (new t : L1Turn) : Bool :=
  F64.lt (score env cfg now query t) maxScore && !F64.lt (score env cfg now query new) (score env cfg now query t)

/-- A turn that an eviction takes before a new one: in the first phase, or in the second one if that is reached. -/
def goesFirst (env : FloatEnv) (cfg : EvictionConfig) (now : ℤ) (query : Option (List F32)) (new t : L1Turn) : Bool :=
  isStale cfg now t || (!isStale cfg now new && goesBefore env cfg now query new t)

/-- A new turn is the first one, or the turns that go before it make room for it. -/
def Room (env : FloatEnv) (later : ℤ) (new : L1Turn) (s : L1Session) : Prop :=
  s.turns = [] ∨ s.currentTokens + cost env new ≤
    s.tokenBudget + costs env (s.turns.tail.filter (goesFirst env s.evictionConfig later s.taskEmbedding new))

instance (env : FloatEnv) (later : ℤ) (new : L1Turn) (s : L1Session) : Decidable (Room env later new s) :=
  inferInstanceAs (Decidable (_ ∨ _))

/-- A call that adds a turn returns it, and keeps to the budget or to one turn. -/
def Returned (env : FloatEnv) (later : ℤ) (new : L1Turn) (s : L1Session) : Prop :=
  (s.addTurn env later new).2 = some new ∧
    ((s.addTurn env later new).1.currentTokens ≤ (s.addTurn env later new).1.tokenBudget ∨
      (s.addTurn env later new).1.turns.length = 1)

variable {new : L1Turn}

/-- The first phase leaves a new turn, and what goes before it makes up for the rest. -/
theorem hardPhase_concat {tokens extra : ℤ} {turns : List L1Turn} (hextra : 0 ≤ extra)
    (hstale : isStale cfg now new = true → extra = 0)
    (h : tokens ≤ budget + extra + costs env (turns.filter (goesFirst env cfg now query new))) :
    ∃ turns', (hardPhase env cfg now budget tokens (turns ++ [new])).kept = turns' ++ [new] ∧
      (hardPhase env cfg now budget tokens (turns ++ [new])).tokens ≤
        budget + extra + costs env (turns'.filter (goesBefore env cfg now query new)) := by
  induction turns generalizing tokens extra with
  | nil =>
    simp only [filter_nil, costs_nil] at h
    simp only [nil_append, hardPhase]
    split_ifs with hmet hnew
    · exact ⟨[], rfl, by simp only [filter_nil, costs_nil]; omega⟩
    · have hzero := hstale hnew
      omega
    · exact ⟨[], rfl, by simpa using h⟩
  | cons t turns ih =>
    simp only [cons_append, hardPhase]
    split_ifs with hmet hold
    · refine ⟨t :: turns, rfl, ?_⟩
      show tokens ≤ _
      omega
    · have hgoes : goesFirst env cfg now query new t = true := by rw [goesFirst, hold, Bool.true_or]
      rw [filter_cons_of_pos hgoes, costs_cons] at h
      exact ih hextra hstale (by push_cast at h; omega)
    · by_cases hgoes : goesFirst env cfg now query new t = true
      · rw [filter_cons_of_pos hgoes, costs_cons] at h
        unfold goesFirst at hgoes
        rw [Bool.eq_false_iff.2 hold, Bool.false_or, Bool.and_eq_true, Bool.not_eq_true'] at hgoes
        obtain ⟨turns', hkept, htokens⟩ := @ih tokens (extra + cost env t) (by omega)
          (fun hnew => absurd hnew (Bool.eq_false_iff.1 hgoes.1)) (by push_cast at h; omega)
        refine ⟨t :: turns', by rw [hkept, cons_append], ?_⟩
        rw [filter_cons_of_pos hgoes.2, costs_cons]
        push_cast
        show (hardPhase env cfg now budget tokens (turns ++ [new])).tokens ≤ _
        omega
      · rw [filter_cons_of_neg hgoes] at h
        obtain ⟨turns', hkept, htokens⟩ := ih hextra hstale h
        refine ⟨t :: turns', by rw [hkept, cons_append], htokens.trans ?_⟩
        rw [filter_cons]
        split_ifs
        · rw [costs_cons]
          push_cast
          omega
        · exact le_rfl

/-- The second phase leaves a new turn, and ends within the budget. -/
theorem scorePhase_concat {passes : ℕ} {tokens : ℤ} {turns : List L1Turn} (hpasses : turns.length ≤ passes)
    (h : tokens ≤ budget + costs env (turns.filter (goesBefore env cfg now query new))) :
    ∃ turns', (scorePhase env cfg now query budget passes tokens (turns ++ [new])).kept = turns' ++ [new] ∧
      (scorePhase env cfg now query budget passes tokens (turns ++ [new])).tokens ≤ budget := by
  induction passes generalizing tokens turns with
  | zero =>
    obtain rfl := length_eq_zero_iff.1 (Nat.le_zero.1 hpasses)
    exact ⟨[], rfl, by simpa [scorePhase] using h⟩
  | succ passes ih =>
    unfold scorePhase
    split_ifs with hmet
    · exact ⟨turns, rfl, hmet⟩
    · -- What goes before the new turn is not nothing.
      have hsome : ∃ t ∈ turns, F64.lt (score env cfg now query t) maxScore = true ∧
          F64.lt (score env cfg now query new) (score env cfg now query t) = false := by
        by_contra hnone
        have hempty : turns.filter (goesBefore env cfg now query new) = [] := by
          refine filter_eq_nil_iff.2 fun t ht hgoes => hnone ⟨t, ht, ?_⟩
          simpa [goesBefore] using hgoes
        rw [hempty, costs_nil] at h
        omega
      obtain ⟨before, t, after, rfl, hfound, hbelow, hnew⟩ := FirstMin.firstMin_concat .f64 hsome
      have hgoes : goesBefore env cfg now query new t = true := by rw [goesBefore, hbelow, hnew]; rfl
      have hget : (before ++ t :: after ++ [new])[before.length]? = some t := by simp
      have herase : (before ++ t :: after ++ [new]).eraseIdx before.length = before ++ after ++ [new] := by
        simp [eraseIdx_append_of_length_le]
      rw [hfound]
      simp only [hget, herase]
      refine ih ?_ ?_
      · simp only [length_append, length_cons] at hpasses ⊢
        omega
      · rw [filter_append, filter_cons_of_pos hgoes, costs_append, costs_cons] at h
        rw [filter_append, costs_append]
        push_cast at h ⊢
        omega

/-- **A new turn for which there is room is returned.** -/
theorem returned_of_room (h : Room env later new s) : Returned env later new s := by
  unfold Returned addTurn push
  simp only
  split_ifs with hover
  · unfold evictWithQuery
    rcases h with hempty | hroom
    · simp [hempty]
    · cases hturns : s.turns with
      | nil => simp
      | cons first tail =>
        rw [hturns, tail_cons] at hroom
        obtain ⟨turns, hkept, htokens⟩ := @hardPhase_concat env later s.taskEmbedding s.evictionConfig s.tokenBudget
          new (s.currentTokens + cost env new) 0 tail le_rfl (fun _ => rfl) (by omega)
        rw [add_zero] at htokens
        obtain ⟨turns', hkept', htokens'⟩ := scorePhase_concat (Nat.le_succ turns.length) htokens
        have hnot : ¬(s.currentTokens + cost env new ≤ s.tokenBudget ∨ tail ++ [new] = []) := by
          simp only [append_eq_nil_iff, cons_ne_nil, and_false, or_false]
          omega
        simp only [cons_append, hnot, if_false, evictTail, hkept, length_append, length_singleton,
          Option.none_or, hkept', htokens', true_or, and_true]
        rw [← cons_append]
        exact getLast?_concat
  · exact ⟨by simp, .inl (not_lt.1 hover)⟩

/-! ### One call -/

variable {refs : List (L0Read × String)} {op : Op}

section

variable (env : FloatEnv)

/-- The reads of drained references succeed, and there is room for each turn. -/
def MeetsAll : List (L0Read × String) → L1Session → Prop
  | [], _ => True
  | (read, iri) :: rest, s =>
    (∃ content, read.content = some content ∧ Room env read.later (reloadedTurn read.now content iri) s) ∧
      MeetsAll rest (s.tryReloadFromL0 env read iri).1

/-- A call finds room for the turns that it adds, and loses no reference. -/
def Meets (s : L1Session) : Op → Prop
  | .addSummary now later role summary l0ArchiveIri => Room env later (summaryTurn now role summary l0ArchiveIri) s
  | .addSupplement now later role summary embedding relevanceScore =>
    Room env later (supplementTurn now role summary embedding relevanceScore) s
  | .tryReloadFromL0 read iri =>
    ∀ content, read.content = some content → Room env read.later (reloadedTurn read.now content iri) s
  | .reloadFromWeakRefs reads => MeetsAll env (s.drained reads) { s with weakRefs := [] }
  | _ => True

/-- Each turn of a reload is added as it should. -/
def ReturnsAll : List (L0Read × String) → L1Session → Prop
  | [], _ => True
  | (read, iri) :: rest, s =>
    (∀ content, read.content = some content → Returned env read.later (reloadedTurn read.now content iri) s) ∧
      ReturnsAll rest (s.tryReloadFromL0 env read iri).1

/-- Each turn that a call adds is returned, and the budget is met or one turn left. -/
def Returns (s : L1Session) : Op → Prop
  | .addSummary now later role summary l0ArchiveIri =>
    Returned env later (summaryTurn now role summary l0ArchiveIri) s
  | .addSupplement now later role summary embedding relevanceScore =>
    Returned env later (supplementTurn now role summary embedding relevanceScore) s
  | .tryReloadFromL0 read iri =>
    ∀ content, read.content = some content → Returned env read.later (reloadedTurn read.now content iri) s
  | .reloadFromWeakRefs reads => ReturnsAll env (s.drained reads) { s with weakRefs := [] }
  | _ => True

variable {s : L1Session}

theorem returnsAll_of_meetsAll (h : MeetsAll env refs s) : ReturnsAll env refs s := by
  induction refs generalizing s with
  | nil => trivial
  | cons ref rest ih =>
    obtain ⟨⟨content, hcontent, hroom⟩, hrest⟩ := h
    refine ⟨fun content' hcontent' => ?_, ih hrest⟩
    obtain rfl := Option.some.inj (hcontent.symm.trans hcontent')
    exact returned_of_room hroom

theorem returns_of_meets (h : Meets env s op) : Returns env s op := by
  cases op with
  | addSummary | addSupplement => exact returned_of_room h
  | tryReloadFromL0 read iri => exact fun content hcontent => returned_of_room (h content hcontent)
  | reloadFromWeakRefs reads => exact returnsAll_of_meetsAll env h
  | setTokenBudget | evictWithQuery | setTaskEmbedding | setTurnEmbedding | annotate | clear => trivial

end

/-! ### Tokens -/

/-- What evictions preserve holds with a new turn if it holds before an eviction. -/
theorem addTurn_of_push (P : L1Session → Prop) (hevict : ∀ s now, P s → P (s.evictWithQuery env now none).1)
    {t : L1Turn} (hpush : P (s.push env t)) (later : ℤ) : P (s.addTurn env later t).1 := by
  unfold addTurn
  simp only
  split_ifs
  · exact hevict _ later hpush
  · exact hpush

/-- And so it is with a new budget. -/
theorem setTokenBudget_of_evict (P : L1Session → Prop) (hevict : ∀ s now, P s → P (s.evictWithQuery env now none).1)
    (hbudget : P { s with tokenBudget := budget }) (now : ℤ) : P (s.setTokenBudget env now budget) := by
  unfold setTokenBudget
  simp only
  split_ifs
  · exact hevict _ now hbudget
  · exact hbudget

/-- The tokens are those of the turns. -/
def Counts (env : FloatEnv) (s : L1Session) : Prop := s.currentTokens = costs env s.turns

theorem Counts.evictWithQuery (h : Counts env s) (now : ℤ) (query : Option (List F32)) :
    Counts env (s.evictWithQuery env now query).1 := by
  obtain ⟨evicted, hperm, htokens, -⟩ := @evictWithQuery_spec env s now query
  have hcosts := @costs_perm env _ _ hperm
  unfold Counts at h ⊢
  rw [htokens, h, ← hcosts, costs_append]
  push_cast
  omega

theorem Counts.addTurn (h : Counts env s) (later : ℤ) (t : L1Turn) : Counts env (s.addTurn env later t).1 := by
  have hpush : Counts env (s.push env t) := by
    unfold Counts push at *
    simp only [costs_append, costs_cons, costs_nil, h]
    push_cast
    omega
  exact addTurn_of_push (Counts env) (fun _ now hs => Counts.evictWithQuery hs now none) hpush later

theorem Counts.tryReloadFromL0 (h : Counts env s) (read : L0Read) (iri : String) :
    Counts env (s.tryReloadFromL0 env read iri).1 := by
  unfold L1Session.tryReloadFromL0
  split
  · exact h.addTurn _ _
  · exact h

theorem Counts.reloadAll (h : Counts env s) (refs : List (L0Read × String)) :
    Counts env (reloadAll env refs s).1 := by
  induction refs generalizing s with
  | nil => exact h
  | cons ref rest ih => exact ih (h.tryReloadFromL0 ref.1 ref.2)

/-- Changes of a turn that leave its summary alone do not change what the turns cost. -/
theorem costs_modify (turns : List L1Turn) (i : ℕ) (change : L1Turn → L1Turn)
    (h : ∀ t, (change t).summary = t.summary) : costs env (turns.modify i change) = costs env turns := by
  induction turns generalizing i with
  | nil => simp
  | cons t turns ih =>
    cases i with
    | zero => simp [cost, h]
    | succ i => simp [ih]

theorem Counts.step (h : Counts env s) (op : Op) : Counts env (s.step env op) := by
  cases op with
  | addSummary now later role summary l0ArchiveIri => exact h.addTurn _ _
  | addSupplement now later role summary embedding relevanceScore => exact h.addTurn _ _
  | setTokenBudget now budget =>
    have hbudget : Counts env { s with tokenBudget := budget } := h
    exact setTokenBudget_of_evict (Counts env) (fun _ now hs => Counts.evictWithQuery hs now none) hbudget now
  | evictWithQuery now query => exact h.evictWithQuery now query
  | tryReloadFromL0 read iri => exact h.tryReloadFromL0 read iri
  | reloadFromWeakRefs reads =>
    have hdrained : Counts env { s with weakRefs := [] } := h
    exact hdrained.reloadAll _
  | setTaskEmbedding embedding => exact h
  | setTurnEmbedding turnIdx embedding =>
    show s.currentTokens = costs env (s.turns.modify turnIdx _)
    rw [costs_modify]
    · exact h
    · exact fun _ => rfl
  | annotate embedding relevanceScore =>
    show s.currentTokens = costs env (s.turns.modify (s.turns.length - 1) _)
    rw [costs_modify]
    · exact h
    · exact fun _ => rfl
  | clear => rfl

/-! ### References -/

/-- The archives of turns. -/
def archives (turns : List L1Turn) : List String := turns.filterMap (·.l0ArchiveIri)

/-- Each reference is on a turn, among the weak references, or still to be reloaded. -/
def Covers (attached pending : List String) (s : L1Session) : Prop :=
  ∀ iri ∈ attached, iri ∈ archives s.turns ∨ iri ∈ s.weakRefs ∨ iri ∈ pending

variable {attached pending : List String}

theorem Covers.evictWithQuery (h : Covers attached pending s) (now : ℤ) (query : Option (List F32)) :
    Covers attached pending (s.evictWithQuery env now query).1 := by
  obtain ⟨evicted, hperm, -, hrefs⟩ := @evictWithQuery_spec env s now query
  intro iri hiri
  rcases h iri hiri with hturn | hweak | hpending
  · have hin : iri ∈ archives ((s.evictWithQuery env now query).1.turns ++ evicted) :=
      (hperm.filterMap _).mem_iff.2 hturn
    unfold archives at hin
    rw [filterMap_append, mem_append] at hin
    rcases hin with hkept | hevicted
    · exact .inl hkept
    · exact .inr (.inl (hrefs ▸ mem_append_right _ hevicted))
  · exact .inr (.inl (hrefs ▸ mem_append_left _ hweak))
  · exact .inr (.inr hpending)

theorem Covers.addTurn (h : Covers attached pending s) (later : ℤ) (t : L1Turn) :
    Covers (attached ++ t.l0ArchiveIri.toList) pending (s.addTurn env later t).1 := by
  have hpush : Covers (attached ++ t.l0ArchiveIri.toList) pending (s.push env t) := by
    intro iri hiri
    have harchives : archives (s.push env t).turns = archives s.turns ++ t.l0ArchiveIri.toList := by
      unfold push archives
      rw [filterMap_append]
      cases hiri : t.l0ArchiveIri <;> simp [hiri]
    rw [harchives, mem_append]
    rcases mem_append.1 hiri with hold | hnew
    · rcases h iri hold with hturn | hrest
      · exact .inl (.inl hturn)
      · exact .inr hrest
    · exact .inl (.inr hnew)
  exact addTurn_of_push (Covers _ pending) (fun _ now hs => Covers.evictWithQuery hs now none) hpush later

/-- The references that a reload puts on turns. -/
def reloadedIris (refs : List (L0Read × String)) : List String :=
  refs.filterMap fun ref => ref.1.content.map fun _ => ref.2

theorem Covers.reloadAll (h : Covers attached (refs.map Prod.snd) s)
    (hmeets : MeetsAll env refs s) : Covers (attached ++ reloadedIris refs) [] (reloadAll env refs s).1 := by
  induction refs generalizing attached s with
  | nil => simpa [reloadedIris, reloadAll] using h
  | cons ref rest ih =>
    obtain ⟨read, iri⟩ := ref
    obtain ⟨⟨content, hcontent, -⟩, hrest⟩ := hmeets
    have hadd := @Covers.addTurn env s _ _ h read.later (reloadedTurn read.now content iri)
    have hnew : Covers [iri] [] (s.addTurn env read.later (reloadedTurn read.now content iri)).1 :=
      @Covers.addTurn env s [] [] (fun _ hnone => absurd hnone not_mem_nil) read.later
        (reloadedTurn read.now content iri)
    have hreload : (s.tryReloadFromL0 env read iri).1 =
        (s.addTurn env read.later (reloadedTurn read.now content iri)).1 := by
      unfold tryReloadFromL0
      rw [hcontent]
    rw [← hreload] at hadd hnew
    have hnext : Covers (attached ++ [iri]) (rest.map Prod.snd) (s.tryReloadFromL0 env read iri).1 := by
      intro other hother
      rcases hadd other hother with hturn | hweak | hpending
      · exact .inl hturn
      · exact .inr (.inl hweak)
      · rcases mem_cons.1 hpending with rfl | hlater
        · rcases hnew other mem_cons_self with hturn | hweak | hnone
          · exact .inl hturn
          · exact .inr (.inl hweak)
          · exact absurd hnone not_mem_nil
        · exact .inr (.inr hlater)
    have hall := ih hnext hrest
    have hiris : reloadedIris ((read, iri) :: rest) = iri :: reloadedIris rest := by
      simp [reloadedIris, hcontent]
    rw [hiris, append_cons]
    exact hall

/-! ### Runs -/

/-- A session, with the archives that were attached to turns since it was cleared. -/
structure SessionRun where
  session : L1Session
  attached : List String

/-- The archives that a call attaches. -/
def attaches (s : L1Session) : Op → List String
  | .addSummary _ _ _ _ l0ArchiveIri => l0ArchiveIri.toList
  | .tryReloadFromL0 read iri => (read.content.map fun _ => iri).toList
  | .reloadFromWeakRefs reads => reloadedIris (s.drained reads)
  | _ => []

def next (env : FloatEnv) (σ : SessionRun) (op : Op) : SessionRun where
  session := σ.session.step env op
  attached :=
    match op with
    | .clear => []
    | op => σ.attached ++ attaches σ.session op

/-- The tokens are those of the turns, and each archive is on a turn or among the weak references. -/
structure Keeps (env : FloatEnv) (σ : SessionRun) : Prop where
  tokens : σ.session.currentTokens = costs env σ.session.turns
  archived : ∀ iri ∈ σ.attached, iri ∈ archives σ.session.turns ∨ iri ∈ σ.session.weakRefs

/-- Each call of a run meets its condition. -/
def MeetsRun (env : FloatEnv) : SessionRun → List Op → Prop
  | _, [] => True
  | σ, op :: ops => Meets env σ.session op ∧ MeetsRun env (next env σ op) ops

/-- Each state of a run is kept, and each call returns what it adds. -/
def KeepsRun (env : FloatEnv) : SessionRun → List Op → Prop
  | σ, [] => Keeps env σ
  | σ, op :: ops => Keeps env σ ∧ Returns env σ.session op ∧ KeepsRun env (next env σ op) ops

theorem covers_nil_iff : Covers attached [] s ↔ ∀ iri ∈ attached, iri ∈ archives s.turns ∨ iri ∈ s.weakRefs := by
  unfold Covers
  simp only [not_mem_nil, or_false]

theorem archives_modify (turns : List L1Turn) (i : ℕ) (change : L1Turn → L1Turn)
    (h : ∀ t, (change t).l0ArchiveIri = t.l0ArchiveIri) : archives (turns.modify i change) = archives turns := by
  unfold archives
  induction turns generalizing i with
  | nil => simp
  | cons t turns ih =>
    cases i with
    | zero => simp [filterMap_cons, h]
    | succ i => simp [filterMap_cons, ih]

theorem map_snd_drained (reads : ℕ → L0Read) (s : L1Session) : (s.drained reads).map Prod.snd = s.weakRefs := by
  unfold drained
  rw [map_map]
  exact zipIdx_map_fst 0 s.weakRefs

variable {σ : SessionRun}

/-- A call that meets its condition loses no archive. -/
theorem Covers.next (h : Covers σ.attached [] σ.session) (hmeets : Meets env σ.session op) :
    Covers (next env σ op).attached [] (next env σ op).session := by
  have hsame : ∀ s : L1Session, Covers σ.attached [] s → Covers (σ.attached ++ []) [] s := by
    intro s hs
    rwa [append_nil]
  cases op with
  | addSummary now later role summary l0ArchiveIri =>
    exact h.addTurn later (summaryTurn now role summary l0ArchiveIri)
  | addSupplement now later role summary embedding relevanceScore =>
    exact h.addTurn later (supplementTurn now role summary embedding relevanceScore)
  | setTokenBudget now budget =>
    have hevict : ∀ s now, Covers σ.attached [] s → Covers σ.attached [] (s.evictWithQuery env now none).1 :=
      fun _ now hs => hs.evictWithQuery now none
    have hbudget : Covers σ.attached [] { σ.session with tokenBudget := budget } := h
    exact hsame _ (setTokenBudget_of_evict (Covers σ.attached []) hevict hbudget now)
  | evictWithQuery now query => exact hsame _ (h.evictWithQuery now query)
  | tryReloadFromL0 read iri =>
    show Covers (σ.attached ++ (read.content.map fun _ => iri).toList) [] (σ.session.tryReloadFromL0 env read iri).1
    unfold tryReloadFromL0
    cases read.content with
    | none => exact hsame _ h
    | some content => exact h.addTurn read.later (reloadedTurn read.now content iri)
  | reloadFromWeakRefs reads =>
    have hdrained : Covers σ.attached ((σ.session.drained reads).map Prod.snd)
        { σ.session with weakRefs := [] } := by
      rw [map_snd_drained]
      intro iri hiri
      rcases covers_nil_iff.1 h iri hiri with hturn | hweak
      · exact .inl hturn
      · exact .inr (.inr hweak)
    exact hdrained.reloadAll hmeets
  | setTaskEmbedding embedding => exact hsame _ h
  | setTurnEmbedding turnIdx embedding =>
    refine hsame _ fun iri hiri => ?_
    show iri ∈ archives (σ.session.turns.modify turnIdx _) ∨ _
    rw [archives_modify]
    · exact h iri hiri
    · exact fun _ => rfl
  | annotate embedding relevanceScore =>
    refine hsame _ fun iri hiri => ?_
    show iri ∈ archives (σ.session.turns.modify (σ.session.turns.length - 1) _) ∨ _
    rw [archives_modify]
    · exact h iri hiri
    · exact fun _ => rfl
  | clear => exact fun _ hnone => absurd hnone not_mem_nil

theorem Keeps.next (h : Keeps env σ) (hmeets : Meets env σ.session op) : Keeps env (next env σ op) where
  tokens := Counts.step h.tokens op
  archived := covers_nil_iff.1 (Covers.next (covers_nil_iff.2 h.archived) hmeets)

theorem keepsRun {ops : List Op} (h : Keeps env σ) (hmeets : MeetsRun env σ ops) : KeepsRun env σ ops := by
  induction ops generalizing σ with
  | nil => exact h
  | cons op ops ih => exact ⟨h, returns_of_meets env hmeets.1, ih (h.next hmeets.1) hmeets.2⟩

/-- **The books of a session** are kept in every run whose calls find room and lose no reference. -/
theorem keepsRun_of_meets (env : FloatEnv) (tokenBudget : ℕ) (cfg : EvictionConfig) (ops : List Op)
    (h : MeetsRun env ⟨withConfig tokenBudget cfg, []⟩ ops) : KeepsRun env ⟨withConfig tokenBudget cfg, []⟩ ops :=
  keepsRun ⟨rfl, fun _ hnone => absurd hnone not_mem_nil⟩ h

/-! ### Two runs -/

/-- 40.0. -/
def forty : F64 := ⟨0x4044000000000000⟩
/-- 12.0. -/
def twelve : F64 := ⟨0x4028000000000000⟩
/-- 2.0. -/
def two : F64 := ⟨0x4000000000000000⟩
def notANumber : F64 := ⟨0x7FF8000000000000⟩

/-- The operations as far as summaries of 40 bytes need them. -/
def sampleFloats : FloatEnv where
  ofNat n := if n = 40 then forty else if n = 1 then one else notANumber
  toUsize x := if x = twelve then 12 else 0
  add x y := if x = zero then y else if y = zero then x else notANumber
  sub x y := if y = zero then x else notANumber
  mul x y :=
    if x = zero ∨ y = zero then zero
    else if x = one then y
    else if y = one then x
    else if x = forty ∧ y = tokensPerByte then twelve
    else notANumber
  div x y := if y = one then x else if x = one ∧ y = half then two else notANumber
  max x y := if F64.lt x y then y else x
  abs x := x
  dot _ _ := ⟨0⟩
  sqrt _ := ⟨0⟩
  ratio _ _ _ := zero

/-- Only costs count, and nothing is stale. -/
def sampleEviction : EvictionConfig := ⟨zero, zero, one, zero, 0, zero⟩

/-- Summaries of 40 bytes, that cost 12 tokens. -/
def planText : String := "The plan has three steps: find, fix, ask"
def fixText : String := "The fix is applied and the tests do pass"
def askText : String := "The owner was asked about the next steps"

/-- The third turn evicts the second one, which is reloaded in the place of the third. -/
theorem keepsRun_of_meets_sample : KeepsRun sampleFloats ⟨withConfig 30 sampleEviction, []⟩
    [.addSummary 0 0 "PA" planText none, .addSummary 0 0 "DA" fixText (some "iri://archive/fix"),
      .addSummary 0 0 "DA" askText (some "iri://archive/ask"),
      .reloadFromWeakRefs fun _ => ⟨some "The fix is applied everywhere", 0, 0⟩] := by
  refine keepsRun_of_meets sampleFloats 30 sampleEviction _ ⟨?_, ?_, ?_, ?_, trivial⟩
  · show Room _ _ _ _
    decide +kernel
  · show Room _ _ _ _
    decide +kernel
  · show Room _ _ _ _
    decide +kernel
  · refine ⟨⟨"The fix is applied everywhere", rfl, ?_⟩, trivial⟩
    decide +kernel

/-- Of two turns that do not fit, the new one is evicted; and a reference whose read fails is lost. -/
theorem not_keepsRun : ¬KeepsRun sampleFloats ⟨withConfig 20 sampleEviction, []⟩
        [.addSummary 0 0 "PA" planText none, .addSummary 0 0 "DA" fixText (some "iri://archive/fix")] ∧
      ¬KeepsRun sampleFloats ⟨withConfig 30 sampleEviction, []⟩
        [.addSummary 0 0 "PA" planText none, .addSummary 0 0 "DA" fixText (some "iri://archive/fix"),
          .addSummary 0 0 "DA" askText none, .reloadFromWeakRefs fun _ => ⟨none, 0, 0⟩] := by
  constructor
  · rintro ⟨-, -, -, hreturns, -⟩
    have hreturned : Returned sampleFloats 0 (summaryTurn 0 "DA" fixText (some "iri://archive/fix")) _ := hreturns
    exact absurd hreturned.1 (by decide +kernel)
  · rintro ⟨-, -, -, -, -, -, -, -, hkeeps⟩
    exact absurd (hkeeps.archived "iri://archive/fix" (by decide +kernel)) (by decide +kernel)

end WildAgentOs.Memory.L1Session
