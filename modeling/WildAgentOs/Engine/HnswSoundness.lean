import WildAgentOs.Engine.HnswVectors

/-!
# What a search returns

Searches of any index that calls have led to, of any size and with or without a set of allowed ids.

* `selectSmallest`, `Answers`, `Rooted.searchWithFilter`, `History`.
-/

namespace WildAgentOs.Engine

open GraphSearch GraphSearch.Space List Function Option

/-! ### Selection -/

section Selection

variable {α : Type}

/-- `select_nth_unstable_by`: what it puts up to a position is no greater than what comes from there on. -/
structure Selects (before : α → α → Bool) (select : ℕ → List α → List α) : Prop where
  perm : ∀ k l, (select k l).Perm l
  split : ∀ k l, k < l.length → ∀ a ∈ (select k l).take k, ∀ b ∈ (select k l).drop k, before a b = true

/-- The end of `exact_filtered_search`: select, truncate and sort. -/
def selectSmallest (before : α → α → Bool) (select : ℕ → List α → List α) (topK : ℕ) (l : List α) : List α :=
  let l := if topK < l.length then (select topK l).take topK else l
  l.insertionSort fun a b => before a b = true

variable {before : α → α → Bool} {select : ℕ → List α → List α}

/-- **Selecting first is sorting all and keeping the first.** -/
theorem selectSmallest_eq [Std.Total fun a b => before a b = true] [IsTrans α fun a b => before a b = true]
    (h : Selects before select) {l : List α} (hanti : ∀ a ∈ l, ∀ b ∈ l, before a b = true → before b a = true → a = b)
    (topK : ℕ) : selectSmallest before select topK l = (l.insertionSort fun a b => before a b = true).take topK := by
  unfold selectSmallest
  by_cases hlt : topK < l.length
  · have hperm : ((select topK l).take topK ++ (select topK l).drop topK).Perm l := by
      rw [take_append_drop]
      exact h.perm topK l
    have hmin := perm_insertionSort (fun a b => before a b = true) ((select topK l).take topK)
    have hmax := perm_insertionSort (fun a b => before a b = true) ((select topK l).drop topK)
    have hsorted : (((select topK l).take topK).insertionSort (fun a b => before a b = true) ++
        ((select topK l).drop topK).insertionSort fun a b => before a b = true).Pairwise
        fun a b => before a b = true := by
      refine pairwise_append.2 ⟨pairwise_insertionSort _ _, pairwise_insertionSort _ _, ?_⟩
      exact fun a ha b hb => h.split topK l hlt a (hmin.mem_iff.1 ha) b (hmax.mem_iff.1 hb)
    have hall := perm_insertionSort (fun a b => before a b = true) l
    have heq : l.insertionSort (fun a b => before a b = true) =
        ((select topK l).take topK).insertionSort (fun a b => before a b = true) ++
          ((select topK l).drop topK).insertionSort fun a b => before a b = true := by
      have hboth := (hmin.append hmax).trans hperm
      refine Perm.eq_of_pairwise (fun a b ha hb => ?_) (pairwise_insertionSort _ _) hsorted
        (hall.trans hboth.symm)
      exact hanti a (hall.mem_iff.1 ha) b (hboth.mem_iff.1 hb)
    have hlen : (((select topK l).take topK).insertionSort fun a b => before a b = true).length = topK := by
      rw [length_insertionSort, length_take, (h.perm topK l).length_eq]
      exact min_eq_left hlt.le
    simp only [if_pos hlt]
    rw [heq, take_left' hlen]
  · simp only [if_neg hlt]
    rw [take_of_length_le]
    rw [length_insertionSort]
    exact not_lt.1 hlt

end Selection

/-! ### The order of candidates -/

variable {c c' : UInt32 × F64}

/-- Candidates are in the order of their distances, and then of their ids. -/
theorem candidateBefore_iff : candidateBefore c c' = true ↔
      c.2.totalRank < c'.2.totalRank ∨ c.2.totalRank = c'.2.totalRank ∧ c.1.toNat ≤ c'.1.toNat := by
  unfold candidateBefore F64.totalLe
  split_ifs with h
  · simp [h, UInt32.le_iff_toNat_le]
  · simp [h, lt_iff_le_and_ne]

instance : Std.Total fun c c' : UInt32 × F64 => candidateBefore c c' = true :=
  ⟨fun c c' => by
    rw [candidateBefore_iff, candidateBefore_iff]
    omega⟩

instance : IsTrans (UInt32 × F64) fun c c' => candidateBefore c c' = true :=
  ⟨fun a b c hab hbc => by
    rw [candidateBefore_iff] at hab hbc ⊢
    omega⟩

theorem totalLe_of_candidateBefore (h : candidateBefore c c' = true) : F64.totalLe c.2 c'.2 = true := by
  rw [candidateBefore_iff] at h
  refine decide_eq_true ?_
  omega

theorem fst_eq_of_candidateBefore (h : candidateBefore c c' = true)
    (h' : candidateBefore c' c = true) : c.1 = c'.1 := by
  rw [candidateBefore_iff] at h h'
  refine UInt32.toNat_inj.1 ?_
  omega

/-! ### Answers -/

/-- The vectors of the live ids. -/
abbrev Vectors := UInt32 → Option EmbeddingVector

/-- The nearest of some ids, by distance and then by id. -/
structure Nearest (env : HnswEnv) (vectors : Vectors) (query : EmbeddingVector) (topK : ℕ) (allowed : Bitmap)
    (results : List (UInt32 × F64)) : Prop where
  ordered : results.Pairwise fun r r' => candidateBefore r r' = true
  complete : ∀ i ∈ allowed, ∀ v, vectors i = some v →
    (i, env.metric.value query v) ∈ results ∨
      results.length = topK ∧ ∀ r ∈ results, candidateBefore r (i, env.metric.value query v) = true

/-- What a search may return: at most `topK` live ids, each once and with its distance, the nearest first; if there are
allowed ids, only those, and if they are few, the nearest of them. -/
structure Answers (env : HnswEnv) (vectors : Vectors) (query : EmbeddingVector) (topK : ℕ) (allowed : Option Bitmap)
    (results : List (UInt32 × F64)) : Prop where
  length_le : results.length ≤ topK
  nodup : (results.map Prod.fst).Nodup
  dist_eq : ∀ r ∈ results, ∃ v, vectors r.1 = some v ∧ r.2 = env.metric.value query v
  sorted : results.Pairwise fun r r' => F64.totalLe r.2 r'.2 = true
  mem_allowed : ∀ ids ∈ allowed, ∀ r ∈ results, r.1 ∈ ids
  nearest : ∀ ids ∈ allowed, ids.card ≤ 5000 → Nearest env vectors query topK ids results

/-- `binary_search_by` with `total_cmp`: where it finds a distance or would put it. -/
def BinarySearch (position : List F64 → F64 → ℕ) : Prop :=
  ∀ (l : List F64) (d : F64), (l.Pairwise fun e f => F64.totalLe e f = true) →
    (∀ e ∈ l.take (position l d), F64.totalLe e d = true) ∧ ∀ e ∈ l.drop (position l d), F64.totalLe d e = true

namespace IncrementalHNSW

variable {env : HnswEnv} {dim : ℕ} {idx idx' : IncrementalHNSW} {live : Finset UInt32} {query : EmbeddingVector}

/-! ### The exact search -/

/-- The distances that `exact_filtered_search` computes. -/
def distances (env : HnswEnv) (idx : IncrementalHNSW) (query : EmbeddingVector) (allowed : Bitmap) :
    List (UInt32 × F64) :=
  (allowed.sort (· ≤ ·)).filterMap fun i => (idx.vectorAt i).map fun v => (i, env.metric.value query v)

theorem mem_distances {allowed : Bitmap} {r : UInt32 × F64} : r ∈ idx.distances env query allowed ↔
      r.1 ∈ allowed ∧ ∃ v, idx.vectorAt r.1 = some v ∧ r.2 = env.metric.value query v := by
  simp only [distances, mem_filterMap, Finset.mem_sort, map_eq_some_iff]
  constructor
  · rintro ⟨i, hi, v, hv, rfl⟩
    exact ⟨hi, v, hv, rfl⟩
  · rintro ⟨hi, v, hv, hd⟩
    exact ⟨r.1, hi, v, hv, by rw [← hd]⟩

theorem nodup_distances (env : HnswEnv) (idx : IncrementalHNSW) (query : EmbeddingVector) (allowed : Bitmap) :
    ((idx.distances env query allowed).map Prod.fst).Nodup := by
  unfold distances
  rw [map_filterMap]
  refine List.Nodup.filterMap (fun a b i hi hi' => ?_) (Finset.sort_nodup allowed (· ≤ ·))
  simp only [Option.map_map, mem_def, map_eq_some_iff, comp] at hi hi'
  obtain ⟨-, -, rfl⟩ := hi
  obtain ⟨-, -, rfl⟩ := hi'
  rfl

/-- No distance of a sound index fails. -/
theorem Sound.mapM_distance (h : Sound env dim idx live) (hq : env.metric.Admits dim query) (ids : List UInt32) :
    ((ids.filterMap fun i => (idx.node? i).map (Prod.mk i)).mapM fun p => do
      let d ← env.metric.distance query p.2.vector
      some (p.1, d)) =
    some (ids.filterMap fun i => (idx.vectorAt i).map fun v => (i, env.metric.value query v)) := by
  induction ids with
  | nil => rfl
  | cons i ids ih =>
    cases hn : idx.node? i with
    | none => simpa [vectorAt, hn] using ih
    | some n =>
      have hd := Metric.distance_some hq (h.admits i n hn)
      have hv : idx.vectorAt i = some n.vector := by rw [vectorAt, hn, map_some]
      simp only [filterMap_cons, hn, hv, map_some, mapM_cons, ih, hd]
      rfl

/-- **The exact search sorts the distances of the allowed ids and keeps the first.** -/
theorem Sound.exactFilteredSearch (h : Sound env dim idx live) (hq : env.metric.Admits dim query) (topK : ℕ)
    (allowed : Bitmap) :
    idx.exactFilteredSearch env query topK allowed =
      some (((idx.distances env query allowed).insertionSort fun c c' => candidateBefore c c' = true).take topK) := by
  unfold IncrementalHNSW.exactFilteredSearch
  simp only [h.mapM_distance hq]
  rfl

/-- `exact_filtered_search` with its selection. -/
def exactFilteredSearchBy (select : ℕ → List (UInt32 × F64) → List (UInt32 × F64)) (env : HnswEnv)
    (idx : IncrementalHNSW) (query : EmbeddingVector) (topK : ℕ) (allowed : Bitmap) :
    Option (List (UInt32 × F64)) := do
  let live := (allowed.sort (· ≤ ·)).filterMap fun i => (idx.node? i).map (Prod.mk i)
  let results ← live.mapM fun p => do
    let d ← env.metric.distance query p.2.vector
    some (p.1, d)
  some (selectSmallest candidateBefore select topK results)

/-- **The selection of the exact search makes no difference.** -/
theorem Sound.exactFilteredSearchBy (h : Sound env dim idx live) (hq : env.metric.Admits dim query)
    {select : ℕ → List (UInt32 × F64) → List (UInt32 × F64)} (hselect : Selects candidateBefore select) (topK : ℕ)
    (allowed : Bitmap) :
    IncrementalHNSW.exactFilteredSearchBy select env idx query topK allowed =
      idx.exactFilteredSearch env query topK allowed := by
  have hanti : ∀ c ∈ idx.distances env query allowed, ∀ c' ∈ idx.distances env query allowed,
      candidateBefore c c' = true → candidateBefore c' c = true → c = c' := fun c hc c' hc' hle hle' =>
    inj_on_of_nodup_map (nodup_distances env idx query allowed) hc hc' (fst_eq_of_candidateBefore hle hle')
  rw [h.exactFilteredSearch hq, ← selectSmallest_eq hselect hanti]
  unfold IncrementalHNSW.exactFilteredSearchBy
  simp only [h.mapM_distance hq]
  rfl

theorem nearest_distances (env : HnswEnv) (idx : IncrementalHNSW) (query : EmbeddingVector) (topK : ℕ)
    (allowed : Bitmap) :
    Nearest env idx.vectorAt query topK allowed
      (((idx.distances env query allowed).insertionSort fun c c' => candidateBefore c c' = true).take topK) := by
  have hsorted := pairwise_insertionSort (fun c c' => candidateBefore c c' = true)
    (idx.distances env query allowed)
  have hperm := perm_insertionSort (fun c c' => candidateBefore c c' = true) (idx.distances env query allowed)
  generalize (idx.distances env query allowed).insertionSort (fun c c' => candidateBefore c c' = true) = l
    at hsorted hperm
  refine ⟨hsorted.sublist (take_sublist topK l), fun i hi v hv => ?_⟩
  have hmem : (i, env.metric.value query v) ∈ l := hperm.mem_iff.2 (mem_distances.2 ⟨hi, v, hv, rfl⟩)
  rw [← take_append_drop topK l] at hmem hsorted
  rcases mem_append.1 hmem with hkept | hcut
  · exact .inl hkept
  · refine .inr ⟨?_, fun r hr => (pairwise_append.1 hsorted).2.2 r hr _ hcut⟩
    have hlt : topK < l.length := by
      by_contra hge
      rw [drop_of_length_le (not_lt.1 hge)] at hcut
      cases hcut
    rw [length_take]
    exact min_eq_left hlt.le

theorem answers_distances (env : HnswEnv) (idx : IncrementalHNSW) (query : EmbeddingVector) (topK : ℕ)
    (allowed : Bitmap) :
    Answers env idx.vectorAt query topK (some allowed)
      (((idx.distances env query allowed).insertionSort fun c c' => candidateBefore c c' = true).take topK) := by
  have hnearest := nearest_distances env idx query topK allowed
  have hperm := perm_insertionSort (fun c c' => candidateBefore c c' = true) (idx.distances env query allowed)
  have hnodup := (hperm.map Prod.fst).nodup_iff.2 (nodup_distances env idx query allowed)
  have hmem : ∀ r ∈ ((idx.distances env query allowed).insertionSort fun c c' => candidateBefore c c' = true).take topK,
      r.1 ∈ allowed ∧ ∃ v, idx.vectorAt r.1 = some v ∧ r.2 = env.metric.value query v :=
    fun r hr => mem_distances.1 (hperm.mem_iff.1 (mem_of_mem_take hr))
  refine ⟨length_take_le _ _, hnodup.sublist ((take_sublist _ _).map Prod.fst), fun r hr => (hmem r hr).2,
    hnearest.ordered.imp totalLe_of_candidateBefore, ?_, ?_⟩
  · rintro ids ⟨rfl⟩ r hr
    exact (hmem r hr).1
  · rintro ids ⟨rfl⟩ -
    exact hnearest

/-! ### The beam search -/

theorem space_sortedPlaces (hposition : BinarySearch env.position) (idx : IncrementalHNSW) (layer gen : ℕ) :
    SortedPlaces (idx.space env layer query gen) fun d e => F64.totalLe d e = true :=
  hposition

variable {results : List (UInt32 × F64)}

/-- What a beam search of layer 0 returns. -/
theorem Sound.exact_searchLayer (h : Sound env dim idx live) (hposition : BinarySearch env.position)
    (hq : env.metric.Admits dim query) {layer ef : ℕ} {entry : UInt32} (hentry : entry ∈ live)
    (hrun : idx.searchLayer env layer entry query ef = some (results, idx')) :
    (results.map Prod.fst).Nodup ∧ (∀ r ∈ results, ∃ v, idx.vectorAt r.1 = some v ∧ r.2 = env.metric.value query v) ∧
      results.Pairwise fun r r' => F64.totalLe r.2 r'.2 = true := by
  have hv : idx.Tags idx.generation idx.visitedGen := ⟨h.visited_length, fun g hg => (h.visited_lt g hg).le⟩
  unfold IncrementalHNSW.searchLayer at hrun
  simp only at hrun
  split_ifs at hrun with hcontains
  · obtain ⟨b, hbeam, hrun⟩ := bind_eq_some_iff.1 hrun
    cases hrun
    have hexact := beam_exact (h.space_closed hq (closedAt_live idx live layer) idx.generation)
      (space_places idx layer idx.generation) (space_sortedPlaces hposition idx layer idx.generation)
      (h.space_marks (Finset.Subset.refl live) layer idx.generation) hv hentry hbeam
    refine ⟨hexact.nodup, fun r hr => ?_, pairwise_map.1 hexact.sorted⟩
    obtain ⟨n, hn, hd⟩ := bind_eq_some_iff.1 (hexact.dist_eq r hr)
    rw [Metric.distance_some hq (h.admits r.1 n hn)] at hd
    exact ⟨n.vector, by rw [vectorAt, hn, map_some], (some.inj hd).symm⟩
  · exact absurd ((h.contains_iff entry).2 hentry) hcontains

variable {allowed : Option Bitmap}

/-- Filtering and truncating the results of the beam search. -/
theorem answers_beam (hnodup : (results.map Prod.fst).Nodup)
    (hdist : ∀ r ∈ results, ∃ v, idx.vectorAt r.1 = some v ∧ r.2 = env.metric.value query v)
    (hsorted : results.Pairwise fun r r' => F64.totalLe r.2 r'.2 = true) (topK : ℕ)
    (hlarge : ∀ ids ∈ allowed, ¬ids.card ≤ 5000) :
    Answers env idx.vectorAt query topK allowed
      ((match allowed with
        | some ids => results.filter fun r : UInt32 × F64 => r.1 ∈ ids
        | none => results).take topK) := by
  generalize hkept : (match allowed with
    | some ids => results.filter fun r : UInt32 × F64 => r.1 ∈ ids
    | none => results) = kept
  have hsub : kept.Sublist results := by
    cases allowed with
    | none => exact hkept ▸ Sublist.refl _
    | some ids => exact hkept ▸ filter_sublist
  have htake := (take_sublist topK kept).trans hsub
  refine ⟨length_take_le _ _, hnodup.sublist (htake.map Prod.fst), fun r hr => hdist r (htake.subset hr),
    hsorted.sublist htake, ?_, fun ids hids hcard => absurd hcard (hlarge ids hids)⟩
  rintro ids ⟨rfl⟩ r hr
  have hmem := mem_of_mem_take hr
  rw [← hkept] at hmem
  exact of_decide_eq_true (mem_filter.1 hmem).2

/-! ### The search -/

theorem sameVectors_head (idx : IncrementalHNSW) (generation : ℕ) (visitedGen : List ℕ) :
    SameVectors idx { idx with generation, visitedGen } := fun _ => rfl

theorem answers_nil (env : HnswEnv) (vectors : Vectors) (query : EmbeddingVector) (topK : ℕ)
    (hlarge : ∀ ids ∈ allowed, ¬ids.card ≤ 5000) : Answers env vectors query topK allowed [] :=
  ⟨Nat.zero_le _, nodup_nil, by simp, List.Pairwise.nil, by simp,
    fun ids hids hcard => absurd hcard (hlarge ids hids)⟩

/-- **A search of a rooted index goes through, answers, and keeps the index rooted with the same vectors.** -/
theorem Rooted.searchWithFilter (h : Rooted env dim idx live) (hposition : BinarySearch env.position)
    (hq : env.metric.Admits dim query) (topK : ℕ) (allowed : Option Bitmap) :
    ∃ results idx', idx.searchWithFilter env query topK allowed = some (results, idx') ∧
      Answers env idx.vectorAt query topK allowed results ∧ Rooted env dim idx' live ∧ SameVectors idx idx' := by
  unfold IncrementalHNSW.searchWithFilter
  cases hfew : allowed.filter fun ids => ids.card ≤ exactFilteredSearchLimit with
  | some ids =>
    obtain ⟨rfl, -⟩ := filter_eq_some_iff.1 hfew
    refine ⟨_, idx, by simp only [h.toSound.exactFilteredSearch hq]; rfl, answers_distances env idx query topK ids, h,
      .refl idx⟩
  | none =>
    have hlarge : ∀ ids ∈ allowed, ¬ids.card ≤ 5000 := fun ids hids hcard => by
      rw [mem_def.1 hids] at hfew
      simp [exactFilteredSearchLimit, hcard] at hfew
    have hfix : ¬(idx.entryPoint ≠ noEntry ∧ ¬idx.contains idx.entryPoint = true) := by
      rintro ⟨hne, hnot⟩
      exact hnot ((h.contains_iff _).2 (h.entry.resolve_left hne))
    simp only [if_neg hfix]
    by_cases hne : idx.entryPoint = noEntry
    · exact ⟨[], idx, if_pos hne, answers_nil env _ query topK hlarge, h, .refl idx⟩
    · obtain ⟨e, he, hdescend⟩ := h.toSound.descendExternal hq
        (fun l (_ : l ∈ layersDown 0 idx.maxLayer) => closedAt_live idx live l) (h.entry.resolve_left hne)
      obtain ⟨results, visited, hrun, hsound, -⟩ :=
        h.toSound.searchLayer hq (closedAt_live idx live 0) he (idx.filterAwareEf topK allowed)
      obtain ⟨hnodup, hdist, hsorted⟩ := h.toSound.exact_searchLayer hposition hq he hrun
      refine ⟨_, { idx with generation := idx.generation + 1, visitedGen := visited }, ?_,
        answers_beam hnodup hdist hsorted topK hlarge, ⟨hsound, h.entry⟩, sameVectors_head idx _ visited⟩
      cases allowed <;> simp [hne, hdescend, searchLayer0External, hrun]

end IncrementalHNSW

/-! ### Histories -/

/-- How an index came about: a new one, a call on an index, or the import of another's export. -/
inductive History
  | new (config : HnswConfig)
  | insert (h : History) (id : UInt32) (vector : EmbeddingVector) (level : ℕ)
  | remove (h : History) (id : UInt32)
  | importNodes (target source : History)
  | search (h : History) (query : EmbeddingVector) (topK : ℕ) (allowed : Option Bitmap)

namespace History

/-- The index; an insert with the level it draws. -/
def index (env : HnswEnv) : History → Option IncrementalHNSW
  | new config => some (.new config)
  | insert h id vector level => do
    let idx ← h.index env
    idx.insert env id vector level
  | remove h id => do
    let idx ← h.index env
    some (idx.remove id)
  | importNodes target source => do
    let idx ← target.index env
    let exported ← source.index env
    some (idx.importNodes env exported.exportNodes)
  | search h query topK allowed => do
    let idx ← h.index env
    let (_, idx) ← idx.searchWithFilter env query topK allowed
    some idx

/-- The live ids with the vectors they were last inserted with, which an import tags with its own metric. -/
def vectors (env : HnswEnv) : History → Vectors
  | new _ => fun _ => none
  | insert h id vector _ => update (h.vectors env) id (some vector)
  | remove h id => update (h.vectors env) id none
  | importNodes _ source => fun i => (source.vectors env i).map fun v => { v with metric := env.metric.kind }
  | search h _ _ _ => h.vectors env

/-- All vectors and queries have the length that the metric asks for. -/
def Admits (env : HnswEnv) (dim : ℕ) : History → Prop
  | new _ => True
  | insert h _ vector _ => h.Admits env dim ∧ env.metric.Admits dim vector
  | remove h _ => h.Admits env dim
  | importNodes target source => target.Admits env dim ∧ source.Admits env dim
  | search h query _ _ => h.Admits env dim ∧ env.metric.Admits dim query

variable {env : HnswEnv} {dim : ℕ}

open IncrementalHNSW

/-- **No call panics, and the index is rooted and has the vectors of its live ids.** -/
theorem rooted (hposition : BinarySearch env.position) {h : History} (hadmits : h.Admits env dim) :
    ∃ idx live, h.index env = some idx ∧ Rooted env dim idx live ∧ idx.vectorAt = h.vectors env := by
  induction h with
  | new config =>
    exact ⟨_, ∅, rfl, (entered_new config).rooted, rfl⟩
  | insert h id vector level ih =>
    obtain ⟨idx, live, hrun, hrooted, hvectors⟩ := ih hadmits.1
    obtain ⟨idx', hinsert, hsound, hentry⟩ := hrooted.insert hadmits.2 id level
    refine ⟨idx', Insert.insert id live, by simp [index, hrun, hinsert], ⟨hsound, .inr hentry⟩, ?_⟩
    funext i
    rw [vectorAt_insert hinsert, vectors, ← hvectors, update_apply]
  | remove h id ih =>
    obtain ⟨idx, live, hrun, hrooted, hvectors⟩ := ih hadmits
    refine ⟨idx.remove id, live.erase id, by simp [index, hrun], hrooted.remove id, ?_⟩
    funext i
    rw [vectorAt_remove, vectors, ← hvectors, update_apply]
  | importNodes target source ihtarget ihsource =>
    obtain ⟨idx, old, hrun, hrooted, -⟩ := ihtarget hadmits.1
    obtain ⟨exported, live, hrun', hrooted', hvectors⟩ := ihsource hadmits.2
    refine ⟨idx.importNodes env exported.exportNodes, live, by simp [index, hrun, hrun'],
      hrooted'.toSound.rooted_importNodes hrooted.toSound, ?_⟩
    funext i
    have hi : source.vectors env i = (exported.node? i).map Node.vector := congrFun hvectors.symm i
    simp only [vectorAt, node?_importNodes, vectors, hi, Option.map_map]
    rfl
  | search h query topK allowed ih =>
    obtain ⟨idx, live, hrun, hrooted, hvectors⟩ := ih hadmits.1
    obtain ⟨results, idx', hsearch, -, hrooted', hsame⟩ := hrooted.searchWithFilter hposition hadmits.2 topK allowed
    refine ⟨idx', live, by simp [index, hrun, hsearch], hrooted', ?_⟩
    funext i
    rw [hsame i, hvectors, vectors]

theorem binarySearch_axisEnv : BinarySearch axisEnv.position := by
  intro l d hl
  induction l with
  | nil => simp
  | cons e l ih =>
    obtain ⟨he, hl⟩ := pairwise_cons.1 hl
    obtain ⟨hbefore, hafter⟩ := ih hl
    simp only [axisEnv] at hbefore hafter ⊢
    by_cases hd : F64.totalLe d e = true
    · -- The distance comes first, since the list is sorted.
      have hall : ∀ x ∈ l, F64.totalLe d x = true := fun x hx => by
        have hx := he x hx
        simp only [F64.totalLe, decide_eq_true_eq] at hd hx ⊢
        exact hd.trans hx
      have hnone : l.filter (fun x => !F64.totalLe d x) = [] := filter_eq_nil_iff.2 fun x hx => by simp [hall x hx]
      simpa [hd, hnone] using hall
    · have hle : F64.totalLe e d = true := by
        simp only [F64.totalLe, decide_eq_true_eq, not_le] at hd ⊢
        exact hd.le
      simpa [hd, hle] using ⟨hbefore, hafter⟩

/-- A history with an upsert of the entry point, an import over another index, and a removal. -/
def sample : History :=
  .remove (.importNodes (.insert (.new ⟨50, 16, 32⟩) 9 axisX 2)
    (.insert (.insert (.insert (.new ⟨50, 16, 32⟩) 1 axisX 1) 2 axisY 0) 1 axisY 0)) 2

end History

end WildAgentOs.Engine
