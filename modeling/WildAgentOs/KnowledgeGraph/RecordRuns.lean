import WildAgentOs.KnowledgeGraph.Records

/-!
# Records over runs

Approvals, reviews and type drafts of all scopes, created, resolved and deleted one after the other.  What is listed is
what is live, as long as no string is printed with an escape or cut where it is read.

* `Shape.list_perm`;
* `Ledger`, `Op`, `runLedger`: what is live;
* `Kept`, `Books`, `lists_of_run`.
-/

namespace WildAgentOs.KnowledgeGraph

open Json TripleStore List Function IsolationClaims Shape

/-! ### What is read of a row -/

/-- A row that is read, with the escapes of its strings. -/
def rowValue (row : Row) : Value :=
  .object (row.map fun (var, value) => ("?" ++ var, .string (String.ofList (escape value.toList))))

variable {row : Row}

theorem rowMembers_printRow (h : ∀ p ∈ row, Uncut p.2.toList) : rowMembers (printRow row) =
      some (row.map fun (var, value) => ("?" ++ var, .string (String.ofList (escape value.toList)))) := by
  induction row with
  | nil => rfl
  | cons p row ih =>
    obtain ⟨var, value⟩ := p
    have hterm : normalizeTerm (String.ofList (printLiteral value.toList)).toList = some (escape value.toList) := by
      rw [String.toList_ofList]
      exact normalizeTerm_printLiteral (h _ mem_cons_self)
    change (normalizeTerm (String.ofList (printLiteral value.toList)).toList).bind _ = _
    rw [hterm, Option.bind_some]
    change (rowMembers (printRow row)).map _ = _
    rw [ih fun p hp => h p (mem_cons_of_mem _ hp)]
    rfl

theorem solutionRows_printRow {rows : List Row} (h : ∀ row ∈ rows, ∀ p ∈ row, Uncut p.2.toList) :
    solutionRows (rows.map (.ok <| printRow ·)) = some (.ok (rows.map rowValue)) := by
  induction rows with
  | nil => rfl
  | cons row rows ih =>
    rw [map_cons, solutionRows, rowMembers_printRow (h row mem_cons_self), Option.bind_some,
      ih fun row hrow => h row (mem_cons_of_mem _ hrow)]
    rfl

theorem mapM_eq_ok {α γ ε : Type} {f : γ → Except ε α} {g : α → γ} {l : List α} (h : ∀ a ∈ l, f (g a) = .ok a) :
    (l.map g).mapM f = .ok l := by
  induction l with
  | nil => rfl
  | cons a l ih =>
    rw [map_cons, mapM_cons, h a mem_cons_self, ih fun a ha => h a (mem_cons_of_mem _ ha)]
    rfl

/-- The records of a list are printed and read as they are. -/
structure Shape.Reads {α : Type} (shape : Shape α) (a : α) : Prop where
  keys : ((shape.fields a).map (·.1)).Nodup
  has : ∀ predicate ∈ shape.pattern.map (·.1), ((shape.fields a).lookup predicate).isSome = true
  uncut : ∀ p ∈ (shape.record a).row shape.pattern shape.opt, Uncut p.2.toList
  read : shape.read (rowValue ((shape.record a).row shape.pattern shape.opt)) = .ok a

variable {claims : IsolationClaims} {α β : Type}

/-- A graph that holds records of a kind is listed as them. -/
theorem Shape.list_perm {shape : Shape α} (hne : shape.pattern ≠ []) (env : RecordEnv β) {s : KgGraphs} {l : List α}
    (h : Holds (shape.pattern.map (·.1)) (s (shape.graph claims)) (l.map shape.record))
    (hreads : ∀ a ∈ l, shape.Reads a) : ∃ l', shape.list env s claims = some (.ok l') ∧ l'.Perm l := by
  have hperm : (env.order (select (s (shape.graph claims)) shape.pattern shape.opt)).Perm
      (l.map fun a => (shape.record a).row shape.pattern shape.opt) := by
    refine (env.order_perm _).trans ((h.select_perm hne shape.opt).trans ?_)
    rw [map_map]
    exact Perm.refl _
  obtain ⟨l', hrows, hl'⟩ := cast (congrFun₂ (eq_map_comp_perm _) _ l).symm hperm
  refine ⟨l', ?_, hl'⟩
  have hreads' : ∀ a ∈ l', shape.Reads a := fun a ha => hreads a (hl'.mem_iff.1 ha)
  unfold list
  rw [hrows, solutionRows_printRow, Option.map_some]
  · change some (((l'.map _).map rowValue).mapM shape.read) = _
    rw [map_map]
    exact congrArg some (mapM_eq_ok fun a ha => (hreads' a ha).read)
  · intro row hrow
    obtain ⟨a, ha, rfl⟩ := mem_map.1 hrow
    exact (hreads' a ha).uncut

/-- What is inserted is what was given. -/
theorem Shape.create_eq (shape : Shape α) (env : RecordEnv β) (s : KgGraphs) (claims : IsolationClaims)
    (a : α) : shape.create env s claims a =
      .ok (update s (shape.graph claims) (insert (s (shape.graph claims)) (shape.record a).triples)) := by
  have hfields : ∀ fields : List (String × String),
      (fields.map fun field => (field.1, sparqlLiteral field.2.toList)).mapM (fun field =>
        (parseString field.2).map fun value => (field.1, String.ofList value)) = some fields := by
    intro fields
    induction fields with
    | nil => rfl
    | cons field fields ih =>
      rw [map_cons, mapM_cons, ih]
      simp [parseString_sparqlLiteral]
  unfold create insertData
  split
  next hnone => cases (hfields (shape.fields a)).symm.trans hnone
  next fields hsome =>
    obtain rfl := Option.some.inj ((hfields (shape.fields a)).symm.trans hsome)
    rfl

/-! ### The records -/

/-- The strings of a text field that are read as they were written. -/
def Plain (value : String) : Prop := Prints value.toList

instance (value : String) : Decidable (Plain value) :=
  have : Decidable (∀ c ∈ value.toList, escapeChar c = [c]) := List.decidableBAll _ _
  inferInstanceAs (Decidable (_ ∧ _))

/-- What stands in identifiers and in the names of graphs. -/
def isNameByte (c : Char) : Bool := isOpaqueIdByte c || c = '/' || c = ':'

theorem escapeChar_of_name {c : Char} (h : isNameByte c = true) : escapeChar c = [c] := by
  have hne : ∀ c', isNameByte c' = false → c ≠ c' := by
    rintro c' hc' rfl
    rw [hc'] at h
    exact (nomatch h)
  have hrange : ¬(c.toNat < 32 ∨ c.toNat = 127) := by
    unfold isNameByte isOpaqueIdByte Char.isAlphanum Char.isAlpha Char.isUpper Char.isLower Char.isDigit at h
    simp only [Bool.or_eq_true, decide_eq_true_eq, Bool.and_eq_true, UInt32.le_iff_toNat_le] at h
    have htoNat : c.toNat = c.val.toNat := rfl
    have hA : 'A'.val.toNat = 65 := rfl
    have hZ : 'Z'.val.toNat = 90 := rfl
    have ha : 'a'.val.toNat = 97 := rfl
    have hz : 'z'.val.toNat = 122 := rfl
    have h0 : '0'.val.toNat = 48 := rfl
    have h9 : '9'.val.toNat = 57 := rfl
    rcases h with (((((h | h) | h) | rfl) | rfl) | rfl) | rfl
    case inr => decide
    case inl.inr => decide
    case inl.inl.inr => decide
    case inl.inl.inl.inr => decide
    all_goals omega
  unfold escapeChar
  rw [if_neg (hne _ (by decide)), if_neg (hne _ (by decide)), if_neg (hne _ (by decide)), if_neg (hne _ (by decide)),
    if_neg (hne _ (by decide)), if_neg (hne _ (by decide)), if_neg (hne _ (by decide)), if_neg hrange]

variable {value : String}

theorem plain_of_names (h : ∀ c ∈ value.toList, isNameByte c = true) : Plain value := by
  refine ⟨fun c hc => escapeChar_of_name (h c hc), fun hin => ?_, fun hin => ?_⟩
  · exact absurd (h '^' (hin.subset mem_cons_self)) (by decide)
  · exact absurd (h '@' (hin.subset mem_cons_self)) (by decide)

theorem plain_of_validateOpaqueId {value kind : String} (h : validateOpaqueId value kind = .ok ()) : Plain value := by
  unfold validateOpaqueId at h
  split_ifs at h with hbad
  obtain ⟨-, hall⟩ := not_or.1 hbad
  refine plain_of_names fun c hc => ?_
  unfold isNameByte
  rw [all_eq_true.1 (Bool.of_not_eq_false hall) c hc]
  rfl

/-- The name of a staging graph is read as it was written. -/
theorem plain_of_stagingGraph {stagingId graph : String}
    (h : stagingGraphIriForClaims claims stagingId = .ok graph) : Plain graph := by
  unfold stagingGraphIriForClaims at h
  split_ifs at h with hbad
  cases h
  obtain ⟨-, hall⟩ := not_or.1 hbad
  have hid : ∀ c ∈ stagingId.toList, isNameByte c = true := fun c hc => by
    unfold isNameByte
    rw [all_eq_true.1 (Bool.of_not_eq_false hall) c hc]
    rfl
  have hsafe : ∀ {kind value : String}, assertIdentifier kind value = .ok () →
      ∀ c ∈ value.toList, isNameByte c = true := fun h c hc => by
    have hc := isSafeIdentifierByte_of_assert h c hc
    unfold isNameByte
    rw [show isOpaqueIdByte c = true from hc]
    rfl
  refine plain_of_names fun c hc => ?_
  simp only [graphIri, String.toList_append, mem_append] at hc
  obtain ((((hc | hc) | hc) | hc) | hc) | hc := hc
  · exact all_eq_true.1 (by decide : "graph://".toList.all isNameByte = true) c hc
  · exact hsafe claims.tenant_safe c hc
  · exact all_eq_true.1 (by decide : "/".toList.all isNameByte = true) c hc
  · exact hsafe claims.project_safe c hc
  · exact all_eq_true.1 (by decide : "/staging/".toList.all isNameByte = true) c hc
  · exact hid c hc

/-! ### Graphs of a scope -/

def scope (claims : IsolationClaims) : String × String := (claims.tenantId, claims.projectId)

variable {a b : IsolationClaims}

/-- Behind the graph of a scope, no name spells another scope or another name. -/
theorem scope_of_append {name name' : String} {rest rest' : List Char}
    (hname : name.toList = '/' :: rest) (hname' : name'.toList = '/' :: rest')
    (h : a.graphIri ++ name = b.graphIri ++ name') : scope a = scope b ∧ name = name' := by
  have hlist : ∀ (claims : IsolationClaims) (name : String), (claims.graphIri ++ name).toList =
      "graph://".toList ++ (claims.tenantId.toList ++ '/' :: (claims.projectId.toList ++ name.toList)) := by
    intro claims name
    simp [graphIri, String.toList_append]
  have heq := congrArg String.toList h
  rw [hlist, hlist, hname, hname'] at heq
  obtain ⟨htenant, hproject⟩ := sameScope_of_append (by decide) (append_cancel_left heq)
  refine ⟨Prod.ext htenant hproject, String.toList_inj.1 ?_⟩
  rw [htenant, hproject] at heq
  rw [hname, hname']
  exact append_cancel_left (cons.inj (append_cancel_left (append_cancel_left heq))).2

theorem graphIri_eq_of_scope (h : scope a = scope b) : a.graphIri = b.graphIri := by
  obtain ⟨htenant, hproject⟩ := Prod.mk.inj h
  unfold graphIri
  rw [htenant, hproject]

/-- Where records of a kind are kept, and only they. -/
structure Shape.Scoped {α : Type} (shape : Shape α) (name : String) : Prop where
  graph : ∀ claims, shape.graph claims = claims.graphIri ++ name
  slash : ∃ rest, name.toList = '/' :: rest

namespace Shape.Scoped

variable {α : Type} {shape : Shape α} {name : String}

theorem graph_eq_iff (h : shape.Scoped name) : shape.graph a = shape.graph b ↔ scope a = scope b := by
  obtain ⟨rest, hrest⟩ := h.slash
  rw [h.graph, h.graph]
  exact ⟨fun heq => (scope_of_append hrest hrest heq).1, fun heq => by rw [graphIri_eq_of_scope heq]⟩

theorem graph_ne {α' : Type} {shape' : Shape α'} {name' : String} (h : shape.Scoped name) (h' : shape'.Scoped name')
    (hne : name ≠ name') (a b : IsolationClaims) : shape.graph a ≠ shape'.graph b := by
  obtain ⟨rest, hrest⟩ := h.slash
  obtain ⟨rest', hrest'⟩ := h'.slash
  rw [h.graph, h'.graph]
  exact fun heq => hne (scope_of_append hrest hrest' heq).2

end Shape.Scoped

theorem scoped_approvals : approvalShape.Scoped "/action-approvals" := ⟨fun _ => rfl, _, rfl⟩
theorem scoped_reviews : reviewShape.Scoped "/extraction-reviews" := ⟨fun _ => rfl, _, rfl⟩
theorem scoped_drafts {β : Type} (env : RecordEnv β) : (draftShape env).Scoped "/ontology-type-drafts" :=
  ⟨fun _ => rfl, _, rfl⟩

/-! ### Records that are kept -/

/-- The records of each scope. -/
abbrev Live (α : Type) := String × String → List α

/-- The graphs of a kind hold the records of their scope, which are read as they are. -/
structure Kept {α : Type} (shape : Shape α) (s : KgGraphs) (live : Live α) : Prop where
  holds : ∀ claims, Holds (shape.pattern.map (·.1)) (s (shape.graph claims)) ((live (scope claims)).map shape.record)
  reads : ∀ claims, ∀ a ∈ live (scope claims), shape.Reads a

variable {triples : Graph String String String}

namespace Kept

variable {α : Type} {shape : Shape α} {name : String} {s : KgGraphs} {live : Live α} {claims : IsolationClaims}

/-- A graph of another kind is changed. -/
theorem frame (h : Kept shape s live) {graph : String} (hne : ∀ claims, shape.graph claims ≠ graph)
    (triples : Graph String String String) : Kept shape (update s graph triples) live where
  holds claims := by
    rw [update_of_ne (hne claims)]
    exact h.holds claims
  reads := h.reads

theorem update (h : Kept shape s live) (hscoped : shape.Scoped name) {l : List α}
    (hholds : Holds (shape.pattern.map (·.1)) triples (l.map shape.record)) (hreads : ∀ a ∈ l, shape.Reads a) :
    Kept shape (update s (shape.graph claims) triples) (update live (scope claims) l) where
  holds claims' := by
    by_cases heq : scope claims' = scope claims
    · rw [heq, update_self, hscoped.graph_eq_iff.2 heq, update_self]
      exact hholds
    · rw [update_of_ne heq, update_of_ne fun hgraph => heq (hscoped.graph_eq_iff.1 hgraph)]
      exact h.holds claims'
  reads claims' a ha := by
    by_cases heq : scope claims' = scope claims
    · rw [heq, update_self] at ha
      exact hreads a ha
    · rw [update_of_ne heq] at ha
      exact h.reads claims' a ha

theorem subject_inj {id id' : String} (h : shape.subject id = shape.subject id') : id = id' :=
  String.append_right_inj shape.base |>.1 h

/-- A record that is not there is created. -/
theorem create (h : Kept shape s live) (hscoped : shape.Scoped name) {a : α} (hreads : shape.Reads a)
    (hnew : ∀ a' ∈ live (scope claims), shape.id a' ≠ shape.id a) :
    Kept shape (Function.update s (shape.graph claims) (insert (s (shape.graph claims)) (shape.record a).triples))
      (Function.update live (scope claims) (live (scope claims) ++ [a])) := by
  refine h.update hscoped ?_ fun a' ha' => ?_
  · rw [List.map_append, List.map_singleton]
    refine (h.holds claims).insert (fun r hr => ?_) hreads.keys hreads.has
    obtain ⟨a', ha', rfl⟩ := List.mem_map.1 hr
    exact fun heq => hnew a' ha' (subject_inj heq)
  · obtain ha' | ha' := List.mem_append.1 ha'
    · exact h.reads claims a' ha'
    · rw [List.mem_singleton.1 ha']
      exact hreads

theorem delete (h : Kept shape s live) (hscoped : shape.Scoped name) (id : String) :
    Kept shape (shape.delete s claims id)
      (Function.update live (scope claims) ((live (scope claims)).filter fun a => shape.id a ≠ id)) := by
  refine h.update hscoped ?_ fun a ha => h.reads claims a (List.mem_filter.1 ha).1
  have hdelete := (h.holds claims).delete (shape.subject id)
  rw [List.filter_map] at hdelete
  refine cast (congrArg (Holds _ _ ∘ List.map shape.record) (List.filter_congr fun a _ => ?_)) hdelete
  exact decide_eq_decide.2 (not_congr ⟨subject_inj, fun heq => congrArg shape.subject heq⟩)

end Kept

/-! ### What is read of a record -/

theorem Plain.eq (h : Plain value) : String.ofList (escape value.toList) = value := by
  rw [escape_of_verbatim h.1, String.ofList_toList]

theorem rowValue_of_plain (h : ∀ p ∈ row, Plain p.2) :
    rowValue row = .object (row.map fun (var, value) => ("?" ++ var, .string value)) := by
  unfold rowValue
  congr 1
  refine map_congr_left fun p hp => ?_
  obtain ⟨var, value⟩ := p
  exact congrArg (("?" ++ var, Value.string ·)) (h _ hp).eq

theorem beq_append (vocab a b : String) : (vocab ++ a == vocab ++ b) = (a == b) :=
  Bool.eq_iff_iff.2 (by rw [beq_iff_eq, beq_iff_eq, String.append_right_inj])

section

variable (claims : IsolationClaims) (approval : PendingActionApproval)

/-- The approval is created. -/
def PendingActionApproval.Accepted : Prop :=
  validateOpaqueId approval.approvalId "approval identifier" = .ok () ∧
    validateOpaqueId approval.stagingId "staging identifier" = .ok () ∧
    stagingGraphIriForClaims claims approval.stagingId = .ok approval.stagingGraph

instance : Decidable (approval.Accepted claims) := inferInstanceAs (Decidable (_ ∧ _))

structure PendingActionApproval.PlainText : Prop where
  actionId : Plain approval.actionId
  anchorQuery : ∀ query ∈ approval.anchorQuery, Plain query
  createdAt : Plain approval.createdAt
  expiresAt : Plain approval.expiresAt

end

theorem row_approval (a : PendingActionApproval) :
    (approvalShape.record a).row approvalShape.pattern approvalShape.opt =
      [("id", a.approvalId), ("staging_id", a.stagingId), ("staging_graph", a.stagingGraph),
        ("action_id", a.actionId), ("created_at", a.createdAt), ("expires_at", a.expiresAt)] ++
      (a.anchorQuery.toList.map fun query => ("anchor_query", query)) := by
  cases h : a.anchorQuery <;> simp [Rec.row, record, approvalShape, lookup_cons, h, beq_append]

theorem reads_approval {a : PendingActionApproval} (haccepted : a.Accepted claims)
    (h : a.PlainText) : approvalShape.Reads a := by
  obtain ⟨hid, hstaging, hgraph⟩ := haccepted
  have hrow : ∀ p ∈ (approvalShape.record a).row approvalShape.pattern approvalShape.opt, Plain p.2 := by
    rw [row_approval]
    simp only [mem_append, mem_cons, not_mem_nil, or_false, mem_map, Option.mem_toList]
    rintro p ((rfl | rfl | rfl | rfl | rfl | rfl) | ⟨query, hquery, rfl⟩)
    · exact plain_of_validateOpaqueId hid
    · exact plain_of_validateOpaqueId hstaging
    · exact plain_of_stagingGraph hgraph
    · exact h.actionId
    · exact h.createdAt
    · exact h.expiresAt
    · exact h.anchorQuery query hquery
  refine ⟨?_, ?_, fun p hp => (hrow p hp).uncut, ?_⟩
  · cases hquery : a.anchorQuery <;> simp [approvalShape, hquery, String.append_right_inj]
  · cases hquery : a.anchorQuery <;> simp [approvalShape, hquery, lookup_cons, beq_append]
  · rw [rowValue_of_plain hrow, row_approval]
    obtain ⟨-, -, -, -, query, -, -⟩ := a
    cases query <;>
      simp [approvalShape, getField, Value.get, Value.asObject, Value.asStr, lookup_cons] <;> rfl

section

variable (claims : IsolationClaims) (review : PendingExtractionReview)

/-- The review is created. -/
def PendingExtractionReview.Accepted : Prop :=
  validateOpaqueId review.reviewId "review identifier" = .ok () ∧
    validateOpaqueId review.extractionId "extraction identifier" = .ok () ∧
    stagingGraphIriForClaims claims review.extractionId = .ok review.stagingGraph

instance : Decidable (review.Accepted claims) := inferInstanceAs (Decidable (_ ∧ _))

structure PendingExtractionReview.PlainText : Prop where
  gateStatus : Plain review.gateStatus
  reportJson : Plain review.reportJson
  createdAt : Plain review.createdAt
  decision : Plain review.decision

end

theorem row_review (a : PendingExtractionReview) : (reviewShape.record a).row reviewShape.pattern reviewShape.opt =
      [("id", a.reviewId), ("extraction_id", a.extractionId), ("staging_graph", a.stagingGraph),
        ("gate_status", a.gateStatus), ("report_json", a.reportJson), ("created_at", a.createdAt),
        ("decision", a.decision)] := by
  simp [Rec.row, record, reviewShape, lookup_cons, beq_append]

/-- All that is read of the review is read as it was written. -/
def PendingExtractionReview.PlainRow (review : PendingExtractionReview) : Prop :=
  ∀ p ∈ (reviewShape.record review).row reviewShape.pattern reviewShape.opt, Plain p.2

variable {a : PendingExtractionReview}

theorem PendingExtractionReview.PlainRow.reads (hrow : a.PlainRow) : reviewShape.Reads a := by
  refine ⟨?_, ?_, fun p hp => (hrow p hp).uncut, ?_⟩
  · simp [reviewShape, String.append_right_inj]
  · simp [reviewShape, lookup_cons, beq_append]
  · rw [rowValue_of_plain hrow, row_review]
    simp [reviewShape, getField, Value.get, Value.asObject, Value.asStr, lookup_cons]
    rfl

theorem plainRow_of_accepted (haccepted : a.Accepted claims) (h : a.PlainText) : a.PlainRow := by
  obtain ⟨hid, hextraction, hgraph⟩ := haccepted
  unfold PendingExtractionReview.PlainRow
  rw [row_review]
  simp only [mem_cons, not_mem_nil, or_false]
  rintro p (rfl | rfl | rfl | rfl | rfl | rfl | rfl)
  · exact plain_of_validateOpaqueId hid
  · exact plain_of_validateOpaqueId hextraction
  · exact plain_of_stagingGraph hgraph
  · exact h.gateStatus
  · exact h.reportJson
  · exact h.createdAt
  · exact h.decision

section

variable {β : Type} (env : RecordEnv β) (draft : PendingTypeDraft β)

/-- The draft is created. -/
def PendingTypeDraft.Accepted : Prop := validateOpaqueId draft.draftId "type draft identifier" = .ok ()

instance : Decidable draft.Accepted := inferInstanceAs (Decidable (_ = _))

/-- The escapes of a bundle are decoded, where it is not cut. -/
structure PendingTypeDraft.PlainText : Prop where
  source : Plain draft.source
  bundle : Uncut (env.toJson draft.bundle).toList
  createdAt : Plain draft.createdAt
  expiresAt : Plain draft.expiresAt

end

section

variable {β : Type} {env : RecordEnv β} {a : PendingTypeDraft β}

theorem row_draft : ((draftShape env).record a).row (draftShape env).pattern (draftShape env).opt =
      [("id", a.draftId), ("source", a.source), ("bundle", env.toJson a.bundle), ("created_at", a.createdAt),
        ("expires_at", a.expiresAt)] := by
  simp [Rec.row, record, draftShape, lookup_cons, beq_append]

theorem reads_draft (hjson : env.fromJson (env.toJson a.bundle) = .ok a.bundle) (haccepted : a.Accepted)
    (h : a.PlainText env) : (draftShape env).Reads a := by
  have hid := plain_of_validateOpaqueId haccepted
  refine ⟨?_, ?_, ?_, ?_⟩
  · simp [draftShape, String.append_right_inj]
  · simp [draftShape, lookup_cons, beq_append]
  · rw [row_draft]
    simp only [mem_cons, not_mem_nil, or_false]
    rintro p (rfl | rfl | rfl | rfl | rfl)
    · exact hid.uncut
    · exact h.source.uncut
    · exact h.bundle
    · exact h.createdAt.uncut
    · exact h.expiresAt.uncut
  · rw [row_draft]
    simp [rowValue, draftShape, getField, Value.get, Value.asObject, Value.asStr, lookup_cons, hid.eq,
      h.source.eq, h.createdAt.eq, h.expiresAt.eq]
    -- What is left is the bundle.
    simp only [bind, Except.bind, String.toList_ofList, jsonString_escape, Option.map_some, Option.getD_some,
      String.ofList_toList, hjson, Except.mapError]

end

/-! ### Calls and what they leave -/

/-- What is done behind two identifiers that are valid and a graph that is the expected one. -/
theorem guarded_cases {γ : Type} {first second : Except String Unit} {expected : Except String String}
    {graph msg : String} {act : Except String γ} {result : Except String γ}
    (h : result = do
      first
      second
      let expected ← expected
      if graph ≠ expected then throw msg
      act) :
    (first = .ok () ∧ second = .ok () ∧ expected = .ok graph) ∧ result = act ∨
      ¬(first = .ok () ∧ second = .ok () ∧ expected = .ok graph) ∧ ∃ e, result = .error e := by
  subst h
  cases first with
  | error e => exact .inr ⟨fun h => (nomatch h.1), e, rfl⟩
  | ok =>
    cases second with
    | error e => exact .inr ⟨fun h => (nomatch h.2.1), e, rfl⟩
    | ok =>
      cases expected with
      | error e => exact .inr ⟨fun h => (nomatch h.2.2), e, rfl⟩
      | ok name =>
        by_cases heq : graph = name
        · subst heq
          exact .inl ⟨⟨rfl, rfl, rfl⟩, by simp [bind, Except.bind]⟩
        · exact .inr ⟨fun h => heq (Except.ok.inj h.2.2).symm, msg, by simp [bind, Except.bind, heq]; rfl⟩

inductive Op (β : Type)
  | createApproval (claims : IsolationClaims) (approval : PendingActionApproval)
  | deleteApproval (claims : IsolationClaims) (approvalId : String)
  | createReview (claims : IsolationClaims) (review : PendingExtractionReview)
  | resolveReview (claims : IsolationClaims) (reviewId decision : String)
  | createDraft (claims : IsolationClaims) (draft : PendingTypeDraft β)
  | deleteDraft (claims : IsolationClaims) (draftId : String)

def Op.call {β : Type} (env : RecordEnv β) (s : KgGraphs) : Op β → Option (Except String KgGraphs)
  | createApproval claims approval => some (createActionApprovalForClaims env s claims approval)
  | deleteApproval claims approvalId => some (deleteActionApprovalForClaims s claims approvalId)
  | createReview claims review => some (createExtractionReviewForClaims env s claims review)
  | resolveReview claims reviewId decision => resolveExtractionReviewForClaims env s claims reviewId decision
  | createDraft claims draft => some (createTypeDraftForClaims env s claims draft)
  | deleteDraft claims draftId => some (deleteTypeDraftForClaims env s claims draftId)

/-- A call that fails leaves the graphs as they are. -/
def Op.run {β : Type} (env : RecordEnv β) (s : KgGraphs) (op : Op β) : Option KgGraphs :=
  (op.call env s).map fun result => result.toOption.getD s

def run {β : Type} (env : RecordEnv β) : KgGraphs → List (Op β) → Option KgGraphs
  | s, [] => some s
  | s, op :: ops => (op.run env s).bind (run env · ops)

/-- The records that are created and not deleted, reviews with their last decision. -/
structure Ledger (β : Type) where
  approvals : Live PendingActionApproval
  reviews : Live PendingExtractionReview
  drafts : Live (PendingTypeDraft β)

namespace Ledger

variable {β : Type} (ledger : Ledger β)

def empty : Ledger β := ⟨fun _ => [], fun _ => [], fun _ => []⟩

def apply : Op β → Ledger β
  | .createApproval claims approval =>
    if approval.Accepted claims then
      { ledger with
        approvals := update ledger.approvals (scope claims) (ledger.approvals (scope claims) ++ [approval]) }
    else ledger
  | .deleteApproval claims approvalId =>
    if validateOpaqueId approvalId "approval identifier" = .ok () then
      { ledger with
        approvals := update ledger.approvals (scope claims)
          ((ledger.approvals (scope claims)).filter fun approval => approval.approvalId ≠ approvalId) }
    else ledger
  | .createReview claims review =>
    if review.Accepted claims then
      { ledger with
        reviews := update ledger.reviews (scope claims) (ledger.reviews (scope claims) ++ [review]) }
    else ledger
  | .resolveReview claims reviewId decision =>
    if validateOpaqueId reviewId "review identifier" = .ok () ∧ (decision = "approved" ∨ decision = "rejected") then
      { ledger with
        reviews := update ledger.reviews (scope claims)
          ((ledger.reviews (scope claims)).map fun review =>
            if review.reviewId = reviewId then { review with decision } else review) }
    else ledger
  | .createDraft claims draft =>
    if draft.Accepted then
      { ledger with drafts := update ledger.drafts (scope claims) (ledger.drafts (scope claims) ++ [draft]) }
    else ledger
  | .deleteDraft claims draftId =>
    if validateOpaqueId draftId "type draft identifier" = .ok () then
      { ledger with
        drafts := update ledger.drafts (scope claims)
          ((ledger.drafts (scope claims)).filter fun draft => draft.draftId ≠ draftId) }
    else ledger

/-- The identifier of a record that is created is that of no other of its scope. -/
def Fresh : Op β → Prop
  | .createApproval claims approval =>
    ∀ other ∈ ledger.approvals (scope claims), other.approvalId ≠ approval.approvalId
  | .createReview claims review => ∀ other ∈ ledger.reviews (scope claims), other.reviewId ≠ review.reviewId
  | .createDraft claims draft => ∀ other ∈ ledger.drafts (scope claims), other.draftId ≠ draft.draftId
  | _ => True

def applyAll : Ledger β → List (Op β) → Ledger β
  | ledger, [] => ledger
  | ledger, op :: ops => (ledger.apply op).applyAll ops

instance : (op : Op β) → Decidable (ledger.Fresh op)
  | .createApproval _ _ => inferInstanceAs (Decidable (∀ _ ∈ _, _))
  | .createReview _ _ => inferInstanceAs (Decidable (∀ _ ∈ _, _))
  | .createDraft _ _ => inferInstanceAs (Decidable (∀ _ ∈ _, _))
  | .deleteApproval _ _ | .resolveReview _ _ _ | .deleteDraft _ _ => inferInstanceAs (Decidable True)

def FreshRun : Ledger β → List (Op β) → Prop
  | _, [] => True
  | ledger, op :: ops => ledger.Fresh op ∧ (ledger.apply op).FreshRun ops

instance : (ledger : Ledger β) → (ops : List (Op β)) → Decidable (ledger.FreshRun ops)
  | _, [] => inferInstanceAs (Decidable True)
  | ledger, op :: ops =>
    have := instDecidableFreshRun (ledger.apply op) ops
    inferInstanceAs (Decidable (_ ∧ _))

end Ledger

/-- What is created is read as it was written. -/
def Op.PlainText {β : Type} (env : RecordEnv β) : Op β → Prop
  | createApproval _ approval => approval.PlainText
  | createReview _ review => review.PlainText
  | createDraft _ draft => draft.PlainText env
  | _ => True

/-! ### What the graphs hold -/

/-- The graphs hold what the ledger says. -/
structure Books {β : Type} (env : RecordEnv β) (s : KgGraphs) (ledger : Ledger β) : Prop where
  approvals : Kept approvalShape s ledger.approvals
  reviews : Kept reviewShape s ledger.reviews
  plain : ∀ claims, ∀ review ∈ ledger.reviews (scope claims), review.PlainRow
  drafts : Kept (draftShape env) s ledger.drafts

namespace Books

variable {β : Type} {env : RecordEnv β} {s : KgGraphs} {ledger : Ledger β} {claims : IsolationClaims}

theorem of_approvals (h : Books env s ledger) {approvals : Live PendingActionApproval}
    (hkept : Kept approvalShape (update s (approvalShape.graph claims) triples) approvals) :
    Books env (update s (approvalShape.graph claims) triples) { ledger with approvals } where
  approvals := hkept
  reviews := h.reviews.frame (fun claims' => scoped_reviews.graph_ne scoped_approvals (by decide) claims' claims) _
  plain := h.plain
  drafts := h.drafts.frame (fun claims' => (scoped_drafts env).graph_ne scoped_approvals (by decide) claims' claims) _

theorem of_reviews (h : Books env s ledger) {l : List PendingExtractionReview}
    (hkept : Kept reviewShape (update s (reviewShape.graph claims) triples)
      (update ledger.reviews (scope claims) l)) (hplain : ∀ review ∈ l, review.PlainRow) :
    Books env (update s (reviewShape.graph claims) triples)
      { ledger with reviews := update ledger.reviews (scope claims) l } where
  approvals := h.approvals.frame (fun claims' => scoped_approvals.graph_ne scoped_reviews (by decide) claims' claims) _
  reviews := hkept
  plain claims' review hreview := by
    change review ∈ update ledger.reviews (scope claims) l (scope claims') at hreview
    by_cases heq : scope claims' = scope claims
    · rw [heq, update_self] at hreview
      exact hplain review hreview
    · rw [update_of_ne heq] at hreview
      exact h.plain claims' review hreview
  drafts := h.drafts.frame (fun claims' => (scoped_drafts env).graph_ne scoped_reviews (by decide) claims' claims) _

theorem of_drafts (h : Books env s ledger) {drafts : Live (PendingTypeDraft β)}
    (hkept : Kept (draftShape env) (update s ((draftShape env).graph claims) triples) drafts) :
    Books env (update s ((draftShape env).graph claims) triples) { ledger with drafts } where
  approvals := h.approvals.frame
    (fun claims' => scoped_approvals.graph_ne (scoped_drafts env) (by decide) claims' claims) _
  reviews := h.reviews.frame (fun claims' => scoped_reviews.graph_ne (scoped_drafts env) (by decide) claims' claims) _
  plain := h.plain
  drafts := hkept

theorem record_decision (review : PendingExtractionReview) (decision : String) :
    reviewShape.record { review with decision } =
      (reviewShape.record review).set (extractionReviewVocabIri ++ "decision") decision := by
  simp [record, reviewShape, Rec.set, String.append_right_inj]

variable {decision : String}

theorem plain_of_decision (h : decision = "approved" ∨ decision = "rejected") : Plain decision := by
  refine plain_of_names fun c hc => ?_
  obtain rfl | rfl := h
  · exact all_eq_true.1 (by decide : "approved".toList.all isNameByte = true) c hc
  · exact all_eq_true.1 (by decide : "rejected".toList.all isNameByte = true) c hc

theorem setDecision (h : Books env s ledger) (reviewId : String)
    (hdecision : decision = "approved" ∨ decision = "rejected") :
    Books env (setDecision s claims reviewId decision)
      { ledger with
        reviews := update ledger.reviews (scope claims) ((ledger.reviews (scope claims)).map fun review =>
          if review.reviewId = reviewId then { review with decision } else review) } := by
  have hplain : ∀ review' ∈ (ledger.reviews (scope claims)).map fun review =>
      if review.reviewId = reviewId then { review with decision } else review, review'.PlainRow := by
    intro review' hreview'
    obtain ⟨review, hreview, rfl⟩ := mem_map.1 hreview'
    have hrow := h.plain claims review hreview
    split_ifs
    · unfold PendingExtractionReview.PlainRow at hrow ⊢
      rw [row_review] at hrow ⊢
      simp only [mem_cons, not_mem_nil, or_false, forall_eq_or_imp, forall_eq] at hrow ⊢
      obtain ⟨h₁, h₂, h₃, h₄, h₅, h₆, -⟩ := hrow
      exact ⟨h₁, h₂, h₃, h₄, h₅, h₆, plain_of_decision hdecision⟩
    · exact hrow
  refine h.of_reviews (h.reviews.update scoped_reviews ?_ fun review hreview => (hplain review hreview).reads) hplain
  have hreplaced := (h.reviews.holds claims).replaceValue (reviewShape.subject reviewId)
    (extractionReviewVocabIri ++ "decision") decision
  rw [map_map] at hreplaced
  rw [map_map]
  refine cast (congrArg (Holds _ _) (map_congr_left fun review _ => ?_)) hreplaced
  have hsubject : (reviewShape.record review).subject = reviewShape.subject reviewId ↔ review.reviewId = reviewId :=
    ⟨Kept.subject_inj, congrArg reviewShape.subject⟩
  rw [comp_apply, comp_apply]
  by_cases heq : review.reviewId = reviewId
  · rw [if_pos heq, if_pos (hsubject.2 heq)]
    exact (record_decision review decision).symm
  · rw [if_neg heq, if_neg (mt hsubject.1 heq)]

theorem list_approvals (h : Books env s ledger) (claims : IsolationClaims) :
    ∃ l, listActionApprovalsForClaims env s claims = some (.ok l) ∧ l.Perm (ledger.approvals (scope claims)) :=
  approvalShape.list_perm (cons_ne_nil _ _) env (h.approvals.holds claims) (h.approvals.reads claims)

theorem list_reviews (h : Books env s ledger) (claims : IsolationClaims) :
    ∃ l, listExtractionReviewsForClaims env s claims = some (.ok l) ∧ l.Perm (ledger.reviews (scope claims)) :=
  reviewShape.list_perm (cons_ne_nil _ _) env (h.reviews.holds claims) (h.reviews.reads claims)

theorem list_drafts (h : Books env s ledger) (claims : IsolationClaims) :
    ∃ l, listTypeDraftsForClaims env s claims = some (.ok l) ∧ l.Perm (ledger.drafts (scope claims)) :=
  (draftShape env).list_perm (cons_ne_nil _ _) env (h.drafts.holds claims) (h.drafts.reads claims)

/-- A review is resolved, if it is there. -/
theorem resolve (h : Books env s ledger) (reviewId decision : String) :
    ∃ s', Op.run env s (.resolveReview claims reviewId decision) = some s' ∧
      Books env s' (ledger.apply (.resolveReview claims reviewId decision)) := by
  simp only [Ledger.apply]
  split_ifs with hvalid
  · obtain ⟨hid, hdecision⟩ := hvalid
    obtain ⟨l, hlist, hperm⟩ := h.list_reviews claims
    have hcall : resolveExtractionReviewForClaims env s claims reviewId decision =
        some (if l.any (fun review => review.reviewId = reviewId) = false then
          .error "extraction review not found in claims scope"
        else .ok (KnowledgeGraph.setDecision s claims reviewId decision)) := by
      unfold resolveExtractionReviewForClaims
      rw [hid, hlist]
      simp only [← not_or, hdecision, not_true_eq_false, if_false, ne_eq, Option.map_some]
      simp only [bind, Except.bind]
      split_ifs <;> rfl
    simp only [Op.run, Op.call, hcall, Option.map_some]
    split_ifs with hany
    · -- No review is found, and none is there.
      have hsame : (ledger.reviews (scope claims)).map (fun review =>
          if review.reviewId = reviewId then { review with decision } else review) = ledger.reviews (scope claims) := by
        refine (map_congr_left fun review hreview => if_neg fun heq => ?_).trans (map_id _)
        exact any_eq_false.1 hany review (hperm.mem_iff.2 hreview) (decide_eq_true heq)
      rw [hsame, update_eq_self]
      exact ⟨s, rfl, h⟩
    · exact ⟨_, rfl, h.setDecision reviewId hdecision⟩
  · have hcall : ∃ e, resolveExtractionReviewForClaims env s claims reviewId decision = some (.error e) := by
      unfold resolveExtractionReviewForClaims
      cases hid : validateOpaqueId reviewId "review identifier" with
      | error e => exact ⟨e, rfl⟩
      | ok =>
        have hdecision : ¬(decision = "approved" ∨ decision = "rejected") := fun hdecision => hvalid ⟨hid, hdecision⟩
        simp only [← not_or, hdecision, not_false_eq_true, if_true, ne_eq]
        exact ⟨_, rfl⟩
    obtain ⟨e, hcall⟩ := hcall
    simp only [Op.run, Op.call, hcall]
    exact ⟨s, rfl, h⟩

section

variable (hjson : ∀ bundle, env.fromJson (env.toJson bundle) = .ok bundle)
include hjson

/-- A call is answered, and what the graphs hold is again what the ledger says. -/
theorem step (h : Books env s ledger) {op : Op β}
    (hfresh : ledger.Fresh op) (hplain : op.PlainText env) :
    ∃ s', op.run env s = some s' ∧ Books env s' (ledger.apply op) := by
  cases op with
  | createApproval claims approval =>
    simp only [Op.run, Op.call, Ledger.apply]
    obtain ⟨haccepted, hresult⟩ | ⟨hrefused, e, hresult⟩ := guarded_cases
      (show createActionApprovalForClaims env s claims approval = _ from rfl)
    · have haccepted : approval.Accepted claims := haccepted
      rw [hresult, create_eq, if_pos haccepted]
      exact ⟨_, rfl, h.of_approvals (h.approvals.create scoped_approvals (reads_approval haccepted hplain) hfresh)⟩
    · have hrefused : ¬approval.Accepted claims := hrefused
      rw [hresult, if_neg hrefused]
      exact ⟨s, rfl, h⟩
  | deleteApproval claims approvalId =>
    simp only [Op.run, Op.call, Ledger.apply, deleteActionApprovalForClaims]
    cases hid : validateOpaqueId approvalId "approval identifier" with
    | error e => exact ⟨s, rfl, h⟩
    | ok => exact ⟨_, rfl, h.of_approvals (h.approvals.delete scoped_approvals approvalId)⟩
  | createReview claims review =>
    simp only [Op.run, Op.call, Ledger.apply]
    obtain ⟨haccepted, hresult⟩ | ⟨hrefused, e, hresult⟩ := guarded_cases
      (show createExtractionReviewForClaims env s claims review = _ from rfl)
    · have haccepted : review.Accepted claims := haccepted
      have hrow := plainRow_of_accepted haccepted hplain
      rw [hresult, create_eq, if_pos haccepted]
      refine ⟨_, rfl, h.of_reviews (h.reviews.create scoped_reviews hrow.reads hfresh) fun other hother => ?_⟩
      obtain hother | hother := mem_append.1 hother
      · exact h.plain claims other hother
      · rw [mem_singleton.1 hother]
        exact hrow
    · have hrefused : ¬review.Accepted claims := hrefused
      rw [hresult, if_neg hrefused]
      exact ⟨s, rfl, h⟩
  | resolveReview claims reviewId decision => exact h.resolve reviewId decision
  | createDraft claims draft =>
    simp only [Op.run, Op.call, Ledger.apply, createTypeDraftForClaims]
    cases hid : validateOpaqueId draft.draftId "type draft identifier" with
    | error e =>
      have hrefused : ¬draft.Accepted := fun haccepted => nomatch hid.symm.trans haccepted
      rw [if_neg hrefused]
      exact ⟨s, rfl, h⟩
    | ok =>
      have haccepted : draft.Accepted := hid
      rw [if_pos haccepted, create_eq]
      exact ⟨_, rfl, h.of_drafts (h.drafts.create (scoped_drafts env) (reads_draft (hjson _) hid hplain) hfresh)⟩
  | deleteDraft claims draftId =>
    simp only [Op.run, Op.call, Ledger.apply, deleteTypeDraftForClaims]
    cases hid : validateOpaqueId draftId "type draft identifier" with
    | error e => exact ⟨s, rfl, h⟩
    | ok => exact ⟨_, rfl, h.of_drafts (h.drafts.delete (scoped_drafts env) draftId)⟩

theorem run {ops : List (Op β)}
    (h : Books env s ledger) (hfresh : ledger.FreshRun ops) (hplain : ∀ op ∈ ops, op.PlainText env) :
    ∃ s', KnowledgeGraph.run env s ops = some s' ∧ Books env s' (ledger.applyAll ops) := by
  induction ops generalizing s ledger with
  | nil => exact ⟨s, rfl, h⟩
  | cons op ops ih =>
    obtain ⟨s', hop, h'⟩ := h.step hjson hfresh.1 (hplain op mem_cons_self)
    obtain ⟨s'', hrun, h''⟩ := ih h' hfresh.2 fun op hop => hplain op (mem_cons_of_mem _ hop)
    refine ⟨s'', ?_, h''⟩
    rw [KnowledgeGraph.run, hop, Option.bind_some]
    exact hrun

end

/-- There is nothing in the graphs of records. -/
theorem of_empty (hempty : ∀ claims, s (approvalShape.graph claims) = [] ∧ s (reviewShape.graph claims) = [] ∧
    s ((draftShape env).graph claims) = []) : Books env s Ledger.empty where
  approvals := ⟨fun claims => (hempty claims).1 ▸ holds_nil _, fun _ _ h => absurd h not_mem_nil⟩
  reviews := ⟨fun claims => (hempty claims).2.1 ▸ holds_nil _, fun _ _ h => absurd h not_mem_nil⟩
  plain _ _ h := absurd h not_mem_nil
  drafts := ⟨fun claims => (hempty claims).2.2 ▸ holds_nil _, fun _ _ h => absurd h not_mem_nil⟩

end Books

/-! ### Lists after a run -/

section

variable {β : Type}

/-- **Approvals, reviews and type drafts are listed as they were created, without those that were deleted, and reviews
with their last decision, when no string of them is printed with an escape or cut where it is read.** -/
theorem lists_of_run (env : RecordEnv β) (hjson : ∀ bundle, env.fromJson (env.toJson bundle) = .ok bundle)
    {s : KgGraphs} (hempty : ∀ claims, s (approvalsGraphIriForClaims claims) = [] ∧
      s (extractionReviewsGraphIriForClaims claims) = [] ∧ s (typeDraftsGraphIriForClaims claims) = [])
    (ops : List (Op β)) (hfresh : Ledger.empty.FreshRun ops) (hplain : ∀ op ∈ ops, op.PlainText env) :
    ∃ s', run env s ops = some s' ∧ ∀ claims,
      (∃ l, listActionApprovalsForClaims env s' claims = some (.ok l) ∧
        l.Perm ((Ledger.empty.applyAll ops).approvals (scope claims))) ∧
      (∃ l, listExtractionReviewsForClaims env s' claims = some (.ok l) ∧
        l.Perm ((Ledger.empty.applyAll ops).reviews (scope claims))) ∧
      ∃ l, listTypeDraftsForClaims env s' claims = some (.ok l) ∧
        l.Perm ((Ledger.empty.applyAll ops).drafts (scope claims)) := by
  have hbooks : Books env s Ledger.empty := Books.of_empty hempty
  obtain ⟨s', hrun, h⟩ := hbooks.run hjson hfresh hplain
  exact ⟨s', hrun, fun claims => ⟨h.list_approvals claims, h.list_reviews claims, h.list_drafts claims⟩⟩

/-- A store whose bundles are empty. -/
def emptyBundles : RecordEnv Unit where
  order rows := rows
  order_perm _ := Perm.refl _
  parseError := "parse error"
  toJson _ := "\x7b\"object_types\":[],\"link_types\":[]\x7d"
  fromJson text := if text = "\x7b\"object_types\":[],\"link_types\":[]\x7d" then .ok () else .error "expected value"

def acmeClaims : IsolationClaims := ⟨"acme", "world", "ann", tenant_safe_acme, rfl, actor_safe_ann⟩

def noteReview : PendingExtractionReview where
  reviewId := "r1"
  extractionId := "e1"
  stagingGraph := "graph://acme/world/staging/e1"
  gateStatus := "passed"
  reportJson := "[]"
  createdAt := "2026-01-01T00:00:00Z"
  decision := "pending"

def noteApproval : PendingActionApproval where
  approvalId := "a1"
  stagingId := "s1"
  stagingGraph := "graph://acme/world/staging/s1"
  actionId := "send <mail>"
  anchorQuery := some "ASK \x7b ?s ?p 1 \x7d"
  createdAt := "2026-01-01T00:00:00Z"
  expiresAt := "2026-01-02T00:00:00Z"

def emptyDraft : PendingTypeDraft Unit where
  draftId := "d1"
  source := "schema"
  bundle := ()
  createdAt := "2026-01-01T00:00:00Z"
  expiresAt := "2026-01-02T00:00:00Z"

def plainRun : List (Op Unit) :=
  [.createApproval acmeClaims noteApproval, .createReview acmeClaims noteReview, .createDraft acmeClaims emptyDraft,
    .resolveReview acmeClaims "r1" "approved", .deleteApproval acmeClaims "a1"]

theorem lists_of_plainRun : ∃ s', run emptyBundles (fun _ => []) plainRun = some s' ∧ ∀ claims,
      (∃ l, listActionApprovalsForClaims emptyBundles s' claims = some (.ok l) ∧
        l.Perm ((Ledger.empty.applyAll plainRun).approvals (scope claims))) ∧
      (∃ l, listExtractionReviewsForClaims emptyBundles s' claims = some (.ok l) ∧
        l.Perm ((Ledger.empty.applyAll plainRun).reviews (scope claims))) ∧
      ∃ l, listTypeDraftsForClaims emptyBundles s' claims = some (.ok l) ∧
        l.Perm ((Ledger.empty.applyAll plainRun).drafts (scope claims)) := by
  refine lists_of_run emptyBundles (fun _ => rfl) (fun _ => ⟨rfl, rfl, rfl⟩) plainRun (by decide +kernel) ?_
  unfold plainRun
  simp only [forall_mem_cons]
  refine ⟨⟨?_, ?_, ?_, ?_⟩, ⟨?_, ?_, ?_, ?_⟩, ⟨?_, ?_, ?_, ?_⟩, trivial, trivial, fun _ h => absurd h not_mem_nil⟩
  all_goals decide +kernel

/-- A report is JSON, and has its quotes read with a backslash. -/
def quotedRun : List (Op Unit) := [.createReview acmeClaims { noteReview with reportJson := "[\"a\"]" }]

theorem quotedRun_changes : Ledger.empty.FreshRun quotedRun ∧
      ¬∃ s' l, run emptyBundles (fun _ => []) quotedRun = some s' ∧
        listExtractionReviewsForClaims emptyBundles s' acmeClaims = some (.ok l) ∧
        l.Perm ((Ledger.empty.applyAll quotedRun).reviews (scope acmeClaims)) := by
  refine ⟨by decide +kernel, ?_⟩
  rintro ⟨s', l, hrun, hlist, hperm⟩
  have hread : (run emptyBundles (fun _ => []) quotedRun).bind
      (listExtractionReviewsForClaims emptyBundles · acmeClaims) =
        some (.ok [{ noteReview with reportJson := "[\\\"a\\\"]" }]) := by decide +kernel
  rw [hrun, Option.bind_some, hlist, Option.some.injEq, Except.ok.injEq] at hread
  subst hread
  revert hperm
  decide +kernel

end

end WildAgentOs.KnowledgeGraph
