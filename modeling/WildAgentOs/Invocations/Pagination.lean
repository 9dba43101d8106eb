import WildAgentOs.Invocations.Lifecycle

/-!
# Listing invocations page by page

`list_invocations_handler`: a page of the scope's records, newest first, and a cursor that names the last one of it.
Between two requests the store goes on.

* `Position`: the time and the id by which records are listed;
* `listInvocationsHandler`, `PageOf`, `Walk`, `pagination_complete`.
-/

namespace WildAgentOs.Invocations

open Server Text List

/-! ### Positions and cursors -/

/-- `(created_at, id)`. -/
abbrev Position := Rfc3339 × String

def Invocation.position (r : Invocation) : Position := (r.createdAt, r.id)

/-- `<` of positions. -/
def Position.before (p q : Position) : Bool := p.1.micros < q.1.micros || (p.1 = q.1 && decide (p.2 < q.2))

/-- `encode_cursor` and `decode_cursor`: unpadded base64 of a JSON pair. -/
structure CursorCodec where
  encode : Position → String
  decode : String → Option Position

/-- What has been encoded is decoded again. -/
def CursorCodec.RoundTrips (codec : CursorCodec) : Prop := ∀ p, codec.decode (codec.encode p) = some p

/-! ### The handler -/

def DEFAULT_LIST_LIMIT : ℕ := 20
def MAX_LIST_LIMIT : ℕ := 100

def InvocationState.asStr : InvocationState → String
  | queued => "queued"
  | running => "running"
  | cancelRequested => "cancel_requested"
  | succeeded => "succeeded"
  | failed => "failed"
  | cancelled => "cancelled"

def InvocationState.ALL : List InvocationState := [queued, running, cancelRequested, succeeded, failed, cancelled]

/-- `parse::<usize>`: no white space is cut off. -/
def parseUsize (raw : String) : Option ℕ :=
  let s := raw.toList
  let digits := if s.head? = some '+' then s.tail else s
  if digits ≠ [] ∧ digits.all Char.isDigit then
    some (digits.foldl (fun n c => 10 * n + (c.toNat - 48)) 0) |>.filter (· < 2 ^ 64)
  else none

structure ListQuery where
  limit : Option String
  after : Option String
  state : Option String

/-- What a list request is refused with: `400` with a message, or `503`. -/
inductive ListError
  | invalidRequest (message : String)
  | storeUnavailable
  deriving DecidableEq

/-- The records of a page, which are shown by `resource_view`. -/
structure ListPage where
  data : List Invocation
  hasMore : Bool
  nextCursor : Option String

/-- The limit of a query. -/
def listLimit : Option String → Except ListError ℕ
  | none => .ok DEFAULT_LIST_LIMIT
  | some raw =>
    match (parseUsize raw).filter fun n => decide (1 ≤ n ∧ n ≤ MAX_LIST_LIMIT) with
    | some n => .ok n
    | none => .error (.invalidRequest "limit must be an integer from 1 to 100")

/-- The state filter of a query. -/
def listFilter : Option String → Except ListError (Option InvocationState)
  | none => .ok none
  | some raw =>
    match InvocationState.ALL.find? fun state => state.asStr = raw with
    | some state => .ok (some state)
    | none => .error (.invalidRequest "unknown state filter")

/-- The position that a query starts after. -/
def listAfter (codec : CursorCodec) : Option String → Except ListError (Option Position)
  | none => .ok none
  | some raw =>
    match codec.decode raw with
    | some position => .ok (some position)
    | none => .error (.invalidRequest "invalid cursor")

/-- Where the page starts in a listing. -/
def listStart (after : Option Position) (listed : List Invocation) : ℕ :=
  match after with
  | none => 0
  | some position => (listed.findIdx? fun inv => inv.position.before position).getD listed.length

def listPage (codec : CursorCodec) (limit : ℕ) (after : Option Position) (listed : List Invocation) : ListPage :=
  let start := listStart after listed
  let page := (listed.drop start).take limit
  let hasMore := decide (start + page.length < listed.length)
  { data := page
    hasMore
    nextCursor := if hasMore then page.getLast?.map fun inv => codec.encode inv.position else none }

/-- `list_invocations_handler`, for verified claims. -/
def listInvocationsHandler (codec : CursorCodec) (s : Server) (claims : IsolationClaims) (query : Option ListQuery) :
    Except ListError ListPage := do
  let query ←
    match query with
    | some query => .ok query
    | none => .error (.invalidRequest "invalid query string")
  let limit ← listLimit query.limit
  let filter ← listFilter query.state
  let after ← listAfter codec query.after
  let records ←
    match s.records with
    | some records => .ok records
    | none => .error .storeUnavailable
  .ok (listPage codec limit after (listForClaims claims filter records))

/-! ### One page -/

theorem Position.before_iff {p q : Position} : p.before q = true ↔ p.1.micros < q.1.micros ∨ p.1 = q.1 ∧ p.2 < q.2 := by
  simp [Position.before]

theorem Position.before_trans {p q r : Position} (h : p.before q = true) (h' : q.before r = true) :
    p.before r = true := by
  rw [before_iff] at h h' ⊢
  obtain h | ⟨h, hid⟩ := h
  · left
    obtain h' | ⟨h', -⟩ := h'
    · exact h.trans h'
    · rwa [← h']
  · rw [h]
    exact h'.imp_right fun ⟨h', hid'⟩ => ⟨h', String.lt_trans hid hid'⟩

theorem Position.before_irrefl (p : Position) : p.before p = false := by
  rw [← Bool.not_eq_true, before_iff]
  rintro (h | ⟨-, h⟩)
  · exact lt_irrefl _ h
  · exact String.lt_irrefl _ h

variable {r : Invocation} {r' : Invocation}

/-- Of two records with different ids the one that is listed later comes before in the order of positions. -/
theorem before_of_newestFirst (h : newestFirst r r' = true) (hid : r.id ≠ r'.id) :
    r'.position.before r.position = true := by
  unfold newestFirst at h
  rw [Position.before_iff]
  simp only [Bool.or_eq_true, Bool.and_eq_true, decide_eq_true_iff] at h
  refine h.imp_right fun ⟨htime, hle⟩ => ⟨htime.symm, ?_⟩
  by_contra hnot
  exact hid (String.le_antisymm (String.not_lt.1 hnot) hle)

/-- Records with positions that go down. -/
def Descending (records : List Invocation) : Prop := records.Pairwise fun r r' => r'.position.before r.position = true

variable {records : List Invocation} {claims : IsolationClaims}

theorem mem_listForClaims : r ∈ listForClaims claims none records ↔ r ∈ records ∧ r.isInScope claims = true := by
  unfold listForClaims
  rw [mem_mergeSort, mem_filter]
  simp

theorem nodup_listForClaims (hids : (records.map Invocation.id).Nodup)
    (claims : IsolationClaims) : ((listForClaims claims none records).map Invocation.id).Nodup := by
  have hfilter : ((records.filter fun r => r.isInScope claims && (none : Option InvocationState).all
      (r.state = ·)).map Invocation.id).Nodup := hids.sublist (filter_sublist.map _)
  exact ((mergeSort_perm _ newestFirst).map Invocation.id).nodup_iff.2 hfilter

theorem descending_listForClaims (hids : (records.map Invocation.id).Nodup)
    (claims : IsolationClaims) : Descending (listForClaims claims none records) := by
  have hsorted : (listForClaims claims none records).Pairwise fun r r' => newestFirst r r' = true :=
    @pairwise_mergeSort Invocation newestFirst (fun _ _ _ => newestFirst_trans) newestFirst_total _
  have hnodup := nodup_listForClaims hids claims
  exact (pairwise_map.1 hnodup).imp₂ (fun _ _ hid hnewest => before_of_newestFirst hnewest hid) hsorted

/-- The record comes after the cursor. -/
def isBelow (after : Option Position) (r : Invocation) : Bool := after.all r.position.before

/-- In a listing, what comes after a cursor is its end. -/
theorem drop_eq_filter (h : Descending records) (position : Position) :
    records.drop ((records.findIdx? fun r => r.position.before position).getD records.length) =
      records.filter fun r => r.position.before position := by
  induction records with
  | nil => rfl
  | cons r records ih =>
    obtain ⟨hr, h⟩ := pairwise_cons.1 h
    by_cases hbefore : r.position.before position = true
    · have hall : ∀ r' ∈ r :: records, r'.position.before position = true := fun r' hr' => by
        rcases mem_cons.1 hr' with rfl | hr'
        · exact hbefore
        · exact Position.before_trans (hr r' hr') hbefore
      rw [findIdx?_cons, if_pos hbefore, Option.getD_some, drop_zero, filter_eq_self.2 hall]
    · have hfilter : (r :: records).filter (fun r => r.position.before position) =
          records.filter fun r => r.position.before position := by simp [hbefore]
      rw [findIdx?_cons, if_neg hbefore, hfilter, ← ih h]
      cases records.findIdx? fun r => r.position.before position <;> simp

/-- What a request is answered with: the first records after its cursor, and whether there are more. -/
structure PageOf (codec : CursorCodec) (claims : IsolationClaims) (after : Option Position)
    (records : List Invocation) (page : ListPage) : Prop where
  exists_take : ∃ limit, 0 < limit ∧
    page.data = ((listForClaims claims none records).filter (isBelow after)).take limit ∧
    page.hasMore = decide (limit < ((listForClaims claims none records).filter (isBelow after)).length)
  nextCursor : page.hasMore = true → page.nextCursor = page.data.getLast?.map fun inv => codec.encode inv.position

variable {listed : List Invocation}

theorem drop_listStart (after : Option Position) (h : Descending listed) :
    listed.drop (listStart after listed) = listed.filter (isBelow after) := by
  cases after with
  | none => exact (filter_eq_self.2 fun _ _ => rfl).symm
  | some position => exact drop_eq_filter h position

variable {limit : ℕ}

theorem listPage_spec (codec : CursorCodec) (hlimit : 0 < limit) (after : Option Position) (h : Descending listed) :
    (listPage codec limit after listed).data = (listed.filter (isBelow after)).take limit ∧
      (listPage codec limit after listed).hasMore = decide (limit < (listed.filter (isBelow after)).length) := by
  have hlength : (listed.filter (isBelow after)).length = listed.length - listStart after listed := by
    rw [← drop_listStart after h, length_drop]
  simp only [listPage, drop_listStart after h, length_take, hlength, true_and]
  refine decide_eq_decide.2 ?_
  omega

theorem listLimit_pos {raw : Option String} (h : listLimit raw = .ok limit) : 0 < limit := by
  unfold listLimit at h
  split at h
  next =>
    cases h
    decide
  next raw =>
    split at h
    next n hn =>
      cases h
      exact (of_decide_eq_true (Option.filter_eq_some_iff.1 hn).2).1
    next => cases h

variable {codec : CursorCodec}

theorem listAfter_encode (hcodec : codec.RoundTrips) (after : Option Position) :
    listAfter codec (after.map codec.encode) = .ok after := by
  cases after with
  | none => rfl
  | some position => simp [listAfter, hcodec position]

variable {limit : Option String} {page : ListPage} {s : Server}

/-- **What a request answers**, from the first page or a cursor on. -/
theorem pageOf_handler (hcodec : codec.RoundTrips) {after : Option Position}
    (h : listInvocationsHandler codec s claims (some ⟨limit, after.map codec.encode, none⟩) = .ok page) :
    ∃ records, s.records = some records ∧
      ((records.map Invocation.id).Nodup → PageOf codec claims after records page) := by
  have hafter := listAfter_encode hcodec after
  unfold listInvocationsHandler at h
  cases hlimit : listLimit limit with
  | error e => simp [hlimit, bind, Except.bind] at h
  | ok n =>
    cases hrecords : s.records with
    | none => simp [hlimit, hafter, hrecords, listFilter, bind, Except.bind] at h
    | some records =>
      simp only [hlimit, hafter, hrecords, listFilter, bind, Except.bind, Except.ok.injEq] at h
      refine ⟨records, rfl, fun hids => ?_⟩
      obtain ⟨hdata, hmore⟩ := listPage_spec codec (listLimit_pos hlimit) after (descending_listForClaims hids claims)
      rw [h] at hdata hmore
      refine ⟨⟨n, listLimit_pos hlimit, hdata, hmore⟩, fun hmore => ?_⟩
      rw [← h] at hmore ⊢
      exact if_pos hmore

section Page

variable {codec : CursorCodec} {claims : IsolationClaims} {after : Option Position} {records : List Invocation}
  {page : ListPage}

theorem PageOf.mem (h : PageOf codec claims after records page) (hr : r ∈ page.data) :
    r ∈ records ∧ r.isInScope claims = true ∧ isBelow after r = true := by
  obtain ⟨limit, -, hdata, -⟩ := h.exists_take
  rw [hdata] at hr
  obtain ⟨hlisted, hbelow⟩ := mem_filter.1 (mem_of_mem_take hr)
  obtain ⟨hmem, hscope⟩ := mem_listForClaims.1 hlisted
  exact ⟨hmem, hscope, hbelow⟩

theorem PageOf.descending (h : PageOf codec claims after records page)
    (hids : (records.map Invocation.id).Nodup) : Descending page.data := by
  obtain ⟨limit, -, hdata, -⟩ := h.exists_take
  rw [hdata]
  exact (descending_listForClaims hids claims).sublist ((take_sublist _ _).trans filter_sublist)

theorem PageOf.nodup (h : PageOf codec claims after records page) (hids : (records.map Invocation.id).Nodup) :
    (page.data.map Invocation.id).Nodup := by
  obtain ⟨limit, -, hdata, -⟩ := h.exists_take
  rw [hdata]
  exact (nodup_listForClaims hids claims).sublist (((take_sublist _ _).trans filter_sublist).map _)

/-- The last page has all that comes after its cursor. -/
theorem PageOf.mem_of_last (h : PageOf codec claims after records page) (hlast : page.hasMore = false)
    (hr : r ∈ records) (hscope : r.isInScope claims = true) (hbelow : isBelow after r = true) : r ∈ page.data := by
  obtain ⟨limit, -, hdata, hmore⟩ := h.exists_take
  rw [hlast] at hmore
  rw [hdata, take_of_length_le (not_lt.1 (of_decide_eq_false hmore.symm))]
  exact mem_filter.2 ⟨mem_listForClaims.2 ⟨hr, hscope⟩, hbelow⟩

/-- A page with more after it names its last record, and the rest comes after that. -/
theorem PageOf.next (h : PageOf codec claims after records page) (hids : (records.map Invocation.id).Nodup)
    (hmore : page.hasMore = true) :
    ∃ last ∈ page.data, page.nextCursor = (some last.position).map codec.encode ∧
      (∀ r ∈ page.data, ∀ p, Position.before p last.position = true → p.before r.position = true) ∧
      ∀ r ∈ records, r.isInScope claims = true → isBelow after r = true →
        r ∈ page.data ∨ isBelow (some last.position) r = true := by
  have hdescending := h.descending hids
  obtain ⟨limit, hpos, hdata, hlength⟩ := h.exists_take
  have hne : page.data ≠ [] := by
    rw [hlength, decide_eq_true_eq] at hmore
    refine ne_nil_of_length_pos ?_
    rw [hdata, length_take]
    omega
  have hgetLast := getLast?_eq_some_getLast hne
  refine ⟨page.data.getLast hne, getLast_mem hne, ?_, fun r hr p hp => ?_, fun r hr hscope hbelow => ?_⟩
  · rw [h.nextCursor hmore, hgetLast]
    rfl
  · rw [← dropLast_append_getLast hne] at hr hdescending
    rcases mem_append.1 hr with hr | hr
    · exact Position.before_trans hp ((pairwise_append.1 hdescending).2.2 r hr _ (mem_singleton.2 rfl))
    · obtain rfl := mem_singleton.1 hr
      exact hp
  · have hall := (descending_listForClaims hids claims).sublist
      (filter_sublist (p := isBelow after))
    have hmem : r ∈ (listForClaims claims none records).filter (isBelow after) :=
      mem_filter.2 ⟨mem_listForClaims.2 ⟨hr, hscope⟩, hbelow⟩
    rw [← take_append_drop limit ((listForClaims claims none records).filter (isBelow after)), ← hdata]
      at hmem hall
    refine (mem_append.1 hmem).imp_right fun hdrop => ?_
    exact (pairwise_append.1 hall).2.2 _ (getLast_mem hne) r hdrop

end Page

/-! ### All pages -/

/-- The requests of a client: it follows `next_cursor` until there is no more, with any limit each time, and between
two requests other steps are taken. -/
inductive Walk (codec : CursorCodec) (cfg : InvocationStoreConfig) (claims : IsolationClaims) :
    List Step → Option String → List (List Step) → List ListPage → Prop
  | last {history : List Step} {after limit : Option String} {page : ListPage} :
      listInvocationsHandler codec (init.run cfg history) claims (some ⟨limit, after, none⟩) = .ok page →
      page.hasMore = false → Walk codec cfg claims history after [] [page]
  | next {history steps : List Step} {after limit : Option String} {page : ListPage} {rest : List (List Step)}
      {pages : List ListPage} :
      listInvocationsHandler codec (init.run cfg history) claims (some ⟨limit, after, none⟩) = .ok page →
      page.hasMore = true → Walk codec cfg claims (history ++ steps) page.nextCursor rest pages →
      Walk codec cfg claims history after (steps :: rest) (page :: pages)

/-- All records that the pages show. -/
def returned (pages : List ListPage) : List Invocation := pages.flatMap ListPage.data

/-- Time, tenant and project of a record stay. -/
structure SamePlace (r r' : Invocation) : Prop where
  id_eq : r'.id = r.id
  createdAt : r'.createdAt = r.createdAt
  scope : ∀ claims, r'.isInScope claims = r.isInScope claims

theorem Descends.samePlace (h : Descends r r') : SamePlace r r' := by
  induction h with
  | refl => exact ⟨rfl, rfl, fun _ => rfl⟩
  | tail _ hchange ih =>
    obtain ⟨st, hchange⟩ := hchange
    cases hchange <;> exact ⟨ih.id_eq, ih.createdAt, ih.scope⟩

theorem SamePlace.position (h : SamePlace r r') : r'.position = r.position := by
  unfold Invocation.position
  rw [h.createdAt, h.id_eq]

section Walks

variable {codec : CursorCodec} {cfg : InvocationStoreConfig} {claims : IsolationClaims}

variable {history : List Step} {after : Option Position}

theorem pageOf_run (hcodec : codec.RoundTrips) (huuids : UuidsDistinct history)
    (h : listInvocationsHandler codec (init.run cfg history) claims
      (some ⟨limit, after.map codec.encode, none⟩) = .ok page) :
    PageOf codec claims after (init.run cfg history).file page ∧
      ((init.run cfg history).file.map Invocation.id).Nodup := by
  obtain ⟨records, hrecords, hpage⟩ := pageOf_handler hcodec h
  obtain rfl := (sound_run cfg history).records_eq hrecords
  exact ⟨hpage (nodup_ids huuids), nodup_ids huuids⟩

variable {between : List (List Step)} {pages : List ListPage} {cursor : Option String}

section

variable (hcodec : codec.RoundTrips) (h : Walk codec cfg claims history cursor between pages)
  (huuids : UuidsDistinct (history ++ between.flatten)) (hcursor : cursor = after.map codec.encode)

include hcodec h huuids hcursor

/-- What the pages show comes after the cursor, and was stored at some request. -/
theorem Walk.mem (hr : r ∈ returned pages) :
    isBelow after r = true ∧ ∃ later rest, between.flatten = later ++ rest ∧
      r ∈ (init.run cfg (history ++ later)).file := by
  induction h generalizing after with
  | @last history cursor limit page hanswer hlast =>
    subst hcursor
    rw [flatten_nil, append_nil] at huuids
    obtain ⟨hpage, -⟩ := pageOf_run hcodec huuids hanswer
    obtain ⟨hmem, -, hbelow⟩ := hpage.mem (by simpa [returned] using hr)
    exact ⟨hbelow, [], [], rfl, by rwa [append_nil]⟩
  | @next history steps cursor limit page rest pages hanswer hmore hwalk ih =>
    subst hcursor
    obtain ⟨hpage, hids⟩ := pageOf_run hcodec huuids.left hanswer
    rw [returned, flatMap_cons, mem_append] at hr
    obtain hr | hr := hr
    · obtain ⟨hmem, -, hbelow⟩ := hpage.mem hr
      exact ⟨hbelow, [], (steps :: rest).flatten, rfl, by rwa [append_nil]⟩
    · obtain ⟨last, hlast, hnext, -, -⟩ := hpage.next hids hmore
      rw [flatten_cons, ← append_assoc] at huuids
      obtain ⟨hbelow, later, rest', hflatten, hmem⟩ := ih huuids hnext hr
      refine ⟨?_, steps ++ later, rest', by rw [flatten_cons, hflatten, append_assoc], ?_⟩
      · have hlastBelow := (hpage.mem hlast).2.2
        cases after with
        | none => rfl
        | some position => exact Position.before_trans hbelow hlastBelow
      · rwa [← append_assoc]

/-- **Positions go down** over all pages. -/
theorem Walk.descending : Descending (returned pages) := by
  induction h generalizing after with
  | @last history cursor limit page hanswer hlast =>
    subst hcursor
    rw [flatten_nil, append_nil] at huuids
    obtain ⟨hpage, hids⟩ := pageOf_run hcodec huuids hanswer
    simpa [returned] using hpage.descending hids
  | @next history steps cursor limit page rest pages hanswer hmore hwalk ih =>
    subst hcursor
    obtain ⟨hpage, hids⟩ := pageOf_run hcodec huuids.left hanswer
    obtain ⟨last, -, hnext, hbefore, -⟩ := hpage.next hids hmore
    rw [flatten_cons, ← append_assoc] at huuids
    refine pairwise_append.2 ⟨hpage.descending hids, ih huuids hnext, fun r hr r' hr' => ?_⟩
    exact hbefore r hr r'.position (hwalk.mem hcodec huuids hnext hr').1

/-- **What stays is shown.** -/
theorem Walk.complete (hr : r ∈ (init.run cfg history).file) (hscope : r.isInScope claims = true)
    (hbelow : isBelow after r = true) (hr' : r' ∈ (init.run cfg (history ++ between.flatten)).file)
    (hid : r'.id = r.id) :
    r.id ∈ (returned pages).map Invocation.id := by
  induction h generalizing after r with
  | @last history cursor limit page hanswer hlast =>
    subst hcursor
    rw [flatten_nil, append_nil] at huuids
    obtain ⟨hpage, -⟩ := pageOf_run hcodec huuids hanswer
    have hmem := hpage.mem_of_last hlast hr hscope hbelow
    exact mem_map_of_mem (by simpa [returned] using hmem)
  | @next history steps cursor limit page rest pages hanswer hmore hwalk ih =>
    subst hcursor
    obtain ⟨hpage, hids⟩ := pageOf_run hcodec huuids.left hanswer
    obtain ⟨last, -, hnext, -, hall⟩ := hpage.next hids hmore
    rw [flatten_cons, ← append_assoc] at huuids hr'
    rw [returned, flatMap_cons, map_append, mem_append]
    obtain hshown | hrest := hall r hr hscope hbelow
    · exact .inl (mem_map_of_mem hshown)
    · -- The record is still there at the next request, at the same place.
      right
      obtain ⟨r₁, hr₁, hdescends⟩ | hdrawn := descends_or_isDrawn cfg (history ++ steps) rest.flatten r' hr'
      · have hid₁ : r₁.id = r.id := by rw [← hdescends.evolves.id_eq, hid]
        have hplace := (descends_of_id_eq huuids.left hr hr₁ hid₁).samePlace
        rw [← hid₁]
        refine ih huuids hnext hr₁ ?_ ?_ hr' hdescends.evolves.id_eq
        · rw [hplace.scope, hscope]
        · unfold isBelow at hrest ⊢
          rwa [hplace.position]
      · rw [hid] at hdrawn
        have hold := (isDrawn_of_mem hr).append_left steps
        exact absurd hold (huuids.not_isDrawn hdrawn)

/-- Nothing is shown twice. -/
theorem Walk.nodup : ((returned pages).map Invocation.id).Nodup := by
  induction h generalizing after with
  | @last history cursor limit page hanswer hlast =>
    subst hcursor
    rw [flatten_nil, append_nil] at huuids
    obtain ⟨hpage, hids⟩ := pageOf_run hcodec huuids hanswer
    simpa [returned] using hpage.nodup hids
  | @next history steps cursor limit page rest pages hanswer hmore hwalk ih =>
    subst hcursor
    obtain ⟨hpage, hids⟩ := pageOf_run hcodec huuids.left hanswer
    obtain ⟨last, -, hnext, hbefore, -⟩ := hpage.next hids hmore
    rw [flatten_cons, ← append_assoc] at huuids
    rw [returned, flatMap_cons, map_append]
    refine nodup_append.2 ⟨hpage.nodup hids, ih huuids hnext, ?_⟩
    rintro _ hid _ hid' rfl
    obtain ⟨r, hr, rfl⟩ := mem_map.1 hid
    obtain ⟨r', hr', hid'⟩ := mem_map.1 hid'
    -- A record of a later page comes strictly after one of this page, and an id keeps its place.
    obtain ⟨hbelow, later, rest', hflatten, hmem⟩ := hwalk.mem hcodec huuids hnext hr'
    rw [hflatten, ← append_assoc] at huuids
    rw [append_assoc] at hmem
    have huuids' := huuids.left
    rw [append_assoc] at huuids'
    have hplace := (descends_of_id_eq huuids' (hpage.mem hr).1 hmem hid').samePlace
    have hstrict := hbefore r hr r'.position hbelow
    rw [hplace.position, Position.before_irrefl] at hstrict
    cases hstrict

end

/-- **Every invocation of the scope that is stored from the first request to the last one is shown exactly once, none
is shown twice, and the pages go down by time and id.** -/
theorem pagination_complete (hcodec : codec.RoundTrips) {history : List Step} {between : List (List Step)}
    {pages : List ListPage} (h : Walk codec cfg claims history none between pages)
    (huuids : UuidsDistinct (history ++ between.flatten)) :
    (∀ r r', (init.run cfg history).Stores r → r.isInScope claims = true →
      (init.run cfg (history ++ between.flatten)).Stores r' → r'.id = r.id →
      ((returned pages).map Invocation.id).count r.id = 1) ∧
    ((returned pages).map Invocation.id).Nodup ∧
    (returned pages).Pairwise fun r r' => r'.position.before r.position = true := by
  have hcursor : (none : Option String) = (none : Option Position).map codec.encode := rfl
  have hnodup := h.nodup hcodec huuids hcursor
  refine ⟨fun r r' hr hscope hr' hid => ?_, hnodup, h.descending hcodec huuids hcursor⟩
  refine count_eq_one_of_mem hnodup ?_
  exact h.complete hcodec huuids hcursor ((sound_run cfg history).stores_iff.1 hr) hscope rfl
    ((sound_run cfg _).stores_iff.1 hr') hid

end Walks

/-- The position of a record with the id `inv_b`, one microsecond after the epoch. -/
def samplePosition : Position := (⟨1⟩, "inv_b")

/-- A number in unary. -/
def unary : ℤ → List Char
  | .ofNat n => List.replicate n '+'
  | .negSucc n => List.replicate (n + 1) '-'

theorem comma_notMem_unary (n : ℤ) : ∀ c ∈ unary n, decide (c ≠ ',') = true := by
  intro c hc
  cases n <;> obtain rfl := eq_of_mem_replicate hc <;> decide

theorem count_unary (n : ℤ) : ((unary n).count '+' : ℤ) - (unary n).count '-' = n := by
  cases n with
  | ofNat n => simp [unary, count_replicate]
  | negSucc n =>
    simp only [unary, count_replicate]
    exact (Int.negSucc_eq n).symm ▸ by simp

/-- A codec that encodes this position as the source does, and the others as plain text. -/
def sampleCodec : CursorCodec where
  encode p :=
    if p = samplePosition then "WyIxOTcwLTAxLTAxVDAwOjAwOjAwLjAwMDAwMVoiLCJpbnZfYiJd"
    else String.ofList (unary p.1.micros ++ ',' :: p.2.toList)
  decode s :=
    if s = "WyIxOTcwLTAxLTAxVDAwOjAwOjAwLjAwMDAwMVoiLCJpbnZfYiJd" then some samplePosition
    else
      let number := s.toList.takeWhile (· ≠ ',')
      some (⟨(number.count '+' : ℤ) - number.count '-'⟩, String.ofList (s.toList.dropWhile (· ≠ ',')).tail)

theorem sampleCodec_roundTrips : sampleCodec.RoundTrips := by
  intro p
  simp only [sampleCodec]
  by_cases hp : p = samplePosition
  · rw [if_pos hp, if_pos rfl, hp]
  · rw [if_neg hp, if_neg, String.toList_ofList]
    · rw [takeWhile_append_of_pos (comma_notMem_unary _), dropWhile_append_of_pos (comma_notMem_unary _)]
      simp [count_unary]
    · intro heq
      have hmem : ',' ∈ (String.ofList (unary p.1.micros ++ ',' :: p.2.toList)).toList := by simp
      rw [heq] at hmem
      exact absurd hmem (by decide)

/-- Records that are in the order of a listing already. -/
theorem handler_of_ordered (hcodec : codec.RoundTrips) {n : ℕ} (hlimit : listLimit limit = .ok n)
    (hrecords : s.records = some records)
    (hordered : (records.filter fun r => r.isInScope claims && true).Pairwise fun r r' => newestFirst r r' = true)
    (after : Option Position) :
    listInvocationsHandler codec s claims (some ⟨limit, after.map codec.encode, none⟩) =
      .ok (listPage codec n after (records.filter fun r => r.isInScope claims && true)) := by
  have hlisted : listForClaims claims none records = records.filter fun r => r.isInScope claims && true :=
    mergeSort_of_pairwise hordered
  simp only [listInvocationsHandler, hlimit, listAfter_encode hcodec, hrecords, listFilter, hlisted, bind, Except.bind]

/-- Two creates of one time. -/
def twoCreates : List Step :=
  [⟨.restart 0, 0, .ok ()⟩, ⟨.create acme ⟨plainRequest, none, none, none⟩ "b", 1000, .ok ()⟩,
    ⟨.create acme ⟨plainRequest, none, none, none⟩ "a", 1000, .ok ()⟩]

def cancelFirst : List Step := [⟨.transition acme "inv_b" none .cancelled {}, 2000, .ok ()⟩]

/-- The records of a run. -/
def sampleRecords (steps : List Step) : List Invocation :=
  (init.run ⟨days 7, 32, hours 24⟩ steps).file.filter fun r => r.isInScope acme && true

/-- A page of one record, and then one of up to twenty. -/
def twoPages : List ListPage :=
  [listPage sampleCodec 1 none (sampleRecords twoCreates),
    listPage sampleCodec 20 (some samplePosition) (sampleRecords (twoCreates ++ cancelFirst))]

theorem pagination_complete_twoPages :
    (returned twoPages).map Invocation.id = ["inv_b", "inv_a"] ∧ ((returned twoPages).map Invocation.id).Nodup := by
  refine ⟨by decide +kernel, ?_⟩
  have hopen : ∀ steps, (init.run ⟨days 7, 32, hours 24⟩ steps).records.isSome = true →
      (init.run ⟨days 7, 32, hours 24⟩ steps).records = some (init.run ⟨days 7, 32, hours 24⟩ steps).file := by
    intro steps hsome
    refine (sound_run _ steps).synced.resolve_left fun hnone => ?_
    rw [hnone] at hsome
    cases hsome
  have hsecond : Walk sampleCodec ⟨days 7, 32, hours 24⟩ acme (twoCreates ++ cancelFirst)
      ((some samplePosition).map sampleCodec.encode) [] _ :=
    .last (handler_of_ordered sampleCodec_roundTrips (rfl : listLimit none = .ok 20)
      (hopen _ (by decide +kernel)) (by decide +kernel) (some samplePosition)) (by decide +kernel)
  have hcursor : (listPage sampleCodec 1 none (sampleRecords twoCreates)).nextCursor =
      (some samplePosition).map sampleCodec.encode := by decide +kernel
  have hwalk : Walk sampleCodec ⟨days 7, 32, hours 24⟩ acme twoCreates none [cancelFirst] twoPages :=
    .next (handler_of_ordered sampleCodec_roundTrips (by decide +kernel : listLimit (some "1") = .ok 1)
      (hopen _ (by decide +kernel)) (by decide +kernel) none) (by decide +kernel) (hcursor ▸ hsecond)
  exact (pagination_complete sampleCodec_roundTrips hwalk (by decide +kernel)).2.1

end WildAgentOs.Invocations
