import WildAgentOs.Engine.HnswSearch

/-!
# Recall of small HNSW collections

Runs of `insert`, `remove`, `import_nodes(export_nodes())` and `search` during which at most `m0`
ids are live.

* `Complete`;
* `Complete.insert`, `Complete.remove`, `Complete.importNodes`, `Complete.search`: one step;
* `search_run`: after clean calls a search that asks for all live ids returns them all.

An insert keeps the index complete if its search of layer 0 starts at another node than the one
it inserts.  The new node has no links yet: a search that starts at it ends there.
-/

namespace WildAgentOs.Engine

open GraphSearch GraphSearch.Space List Option Finset

namespace IncrementalHNSW

variable {env : HnswEnv} {dim : ℕ} {idx : IncrementalHNSW} {live : Finset UInt32}

/-- A sound index in which every live node links every other one in layer 0, entered at a live
node unless it is empty. -/
structure Complete (env : HnswEnv) (dim : ℕ) (idx : IncrementalHNSW) (live : Finset UInt32) :
    Prop extends Sound env dim idx live where
  noEntry_notMem : noEntry ∉ live
  entry : (live = ∅ ∧ idx.entryPoint = noEntry) ∨ idx.entryPoint ∈ live
  linked : ∀ a ∈ live, (idx.links 0 a).Nodup ∧ ∀ b ∈ live, b ≠ a → b ∈ idx.links 0 a

/-- Where the search of layer 0 of an insert starts; an index without a node is not searched. -/
def layer0Start (env : HnswEnv) (idx : IncrementalHNSW) (id : UInt32) (vector : EmbeddingVector)
    (level : ℕ) : Option UInt32 := do
  let idx := idx.place id vector level
  let slot ← idx.nodes[idx.entryPoint.toNat]?
  let upper ← idx.connectUpper env id level ((slot.map Node.level).getD 0)
  some upper.2

/-! ### The new node -/

variable {α : Type}

theorem length_resize {l : List α} {n : ℕ} {x : α} (h : l.length ≤ n) : (resize l n x).length = n := by
  rw [resize, length_append, length_replicate]
  omega

theorem node?_place (idx : IncrementalHNSW) (id : UInt32) (vector : EmbeddingVector) (level : ℕ) (j : UInt32) :
    (idx.place id vector level).node? j =
      if j = id then some ⟨vector, [], List.replicate level [], level⟩ else idx.node? j := by
  have hlen : id.toNat < (resize idx.nodes (id.toNat + 1) none).length := by
    rw [resize, length_append, length_replicate]
    omega
  simp only [node?, place, getElem?_set, UInt32.toNat_inj, hlen, if_true]
  rcases eq_or_ne j id with rfl | hne
  · simp
  · simp only [hne.symm, hne, if_false, resize, getElem?_append, getElem?_replicate]
    split_ifs with hlt hrep
    · rfl
    · rw [getElem?_eq_none (by omega)]
      rfl
    · rw [getElem?_eq_none (by omega)]

theorem contains_place (idx : IncrementalHNSW) (id : UInt32) (vector : EmbeddingVector) (level : ℕ) (j : UInt32) :
    (idx.place id vector level).contains j = (decide (j = id) || idx.contains j) := by
  simp only [contains, node?_place]
  split_ifs with hj <;> simp [hj]

variable {vector : EmbeddingVector}

theorem Sound.place (h : Sound env dim idx live) (hv : env.metric.Admits dim vector) (id : UInt32) (level : ℕ) :
    Sound env dim (idx.place id vector level) (Insert.insert id live) where
  contains_iff := fun j => by
    rw [contains_place, mem_insert, Bool.or_eq_true, decide_eq_true_eq, h.contains_iff]
  admits := fun j n hn => by
    rw [node?_place] at hn
    split_ifs at hn with hj
    · cases hn
      exact hv
    · exact h.admits j n hn
  length_le := by
    have hlen := h.length_le
    have hid : id.toNat < 2 ^ 32 := id.toNat_lt
    simp only [IncrementalHNSW.place, length_set, resize, length_append, length_replicate]
    omega
  generation_pos := h.generation_pos
  visited_length := by
    have := h.visited_length
    simp only [IncrementalHNSW.place, length_set, resize, length_append, length_replicate]
    split_ifs with hle
    · rw [length_append, length_replicate]
      omega
    · omega
  visited_lt := fun g hg => by
    simp only [IncrementalHNSW.place] at hg ⊢
    split_ifs at hg
    · rcases mem_append.1 hg with hg | hg
      · exact h.visited_lt g hg
      · exact (eq_of_mem_replicate hg).symm ▸ h.generation_pos
    · exact h.visited_lt g hg

/-- The new node has no links, the other ones keep theirs. -/
theorem links_place (idx : IncrementalHNSW) (id : UInt32) (vector : EmbeddingVector) (level : ℕ) (l : ℕ) (j : UInt32) :
    (idx.place id vector level).links l j = if j = id then [] else idx.links l j := by
  simp only [links, node?_place]
  split_ifs
  · cases l with
    | zero => rfl
    | succ l =>
      simp only [map_some, getD_some, Node.neighbors, getD_eq_getElem?_getD, getElem?_replicate]
      split_ifs <;> rfl
  · rfl

/-! ### The upper layers -/

variable {U : Finset UInt32} {layers : List ℕ} {query : EmbeddingVector} {entry : UInt32}

theorem Sound.descendExternal (h : Sound env dim idx live) (hq : env.metric.Admits dim query)
    (hU : ∀ layer ∈ layers, ClosedAt idx live layer U) (hentry : entry ∈ U) :
    ∃ e ∈ U,
      layers.foldlM (fun currEp layer => idx.searchLayerSingleExternal env layer currEp query)
        entry = some e := by
  induction layers generalizing entry with
  | nil => exact ⟨entry, hentry, rfl⟩
  | cons layer layers ih =>
    obtain ⟨e₁, he₁, hrun₁⟩ := h.searchLayerSingleExternal hq (hU layer mem_cons_self) hentry
    obtain ⟨e₂, he₂, hrun₂⟩ := ih (fun l hl => hU l (mem_cons_of_mem layer hl)) he₁
    exact ⟨e₂, he₂, by simp [foldlM_cons, hrun₁, hrun₂]⟩

variable {id : UInt32}

theorem Sound.descend (h : Sound env dim idx live) (hid : id ∈ live)
    (hU : ∀ layer ∈ layers, ClosedAt idx live layer U) (hentry : entry ∈ U) :
    ∃ e ∈ U, layers.foldlM (fun currEp layer => idx.searchLayerSingle env layer currEp id) entry = some e := by
  obtain ⟨n, hn⟩ := h.node hid
  obtain ⟨e, he, hrun⟩ := h.descendExternal (h.admits id n hn) hU hentry
  exact ⟨e, he, by simpa only [searchLayerSingle, hn] using hrun⟩

theorem mem_layersDown {lo hi layer : ℕ} : layer ∈ layersDown lo hi ↔ lo < layer ∧ layer ≤ hi := by
  rw [layersDown, mem_reverse, mem_range'_1]
  omega

theorem nodup_layersDown (lo hi : ℕ) : (layersDown lo hi).Nodup := nodup_reverse.2 nodup_range'

/-- Connecting upper layers from a set that is closed in each of them. -/
theorem Sound.connectAll (h : Sound env dim idx live) {curr : UInt32} (hid : id ∈ live) (hcurr : curr ∈ U)
    (hnodup : layers.Nodup)
    (hpos : ∀ layer ∈ layers, 0 < layer) (hU : ∀ layer ∈ layers, ClosedAt idx live layer U) :
    ∃ idx' e, layers.foldlM (IncrementalHNSW.connect env id) (idx, curr) = some (idx', e) ∧
      e ∈ U ∧ Sound env dim idx' live ∧ (∀ a, idx'.links 0 a = idx.links 0 a) ∧
      SameHead idx idx' := by
  induction layers generalizing idx curr with
  | nil => exact ⟨idx, curr, rfl, hcurr, h, fun _ => rfl, .refl idx⟩
  | cons layer layers ih =>
    obtain ⟨hnot, hnodup⟩ := nodup_cons.1 hnodup
    obtain ⟨idx₁, e₁, hrun₁, he₁, h₁, hlinks₁, hhead₁⟩ := h.connect (hU layer mem_cons_self) hid hcurr
    have hU₁ : ∀ l ∈ layers, ClosedAt idx₁ live l U := fun l hl =>
      (hU l (mem_cons_of_mem layer hl)).congr (hlinks₁ l fun heq => hnot (heq ▸ hl))
    obtain ⟨idx₂, e₂, hrun₂, he₂, h₂, hlinks₂, hhead₂⟩ :=
      ih h₁ he₁ hnodup (fun l hl => hpos l (mem_cons_of_mem layer hl)) hU₁
    have hzero : (0 : ℕ) ≠ layer := (hpos layer mem_cons_self).ne
    refine ⟨idx₂, e₂, ?_, he₂, h₂, fun a => (hlinks₂ a).trans (hlinks₁ 0 hzero a), hhead₁.trans hhead₂⟩
    rw [foldlM_cons, hrun₁]
    exact hrun₂

/-- The upper layers of an insert: the search stays in a set that is closed in each of them. -/
theorem Sound.connectUpper (h : Sound env dim idx live) (hid : id ∈ live)
    (hentry : idx.entryPoint ∈ U) (hU : ∀ layer, 0 < layer → ClosedAt idx live layer U)
    (level epLevel : ℕ) :
    ∃ idx' e, idx.connectUpper env id level epLevel = some (idx', e) ∧ e ∈ U ∧
      Sound env dim idx' live ∧ (∀ a, idx'.links 0 a = idx.links 0 a) ∧ SameHead idx idx' := by
  have hpos : ∀ layer ∈ layersDown 0 (min level (max epLevel level)), 0 < layer := fun _ hl => (mem_layersDown.1 hl).1
  have hnodup := nodup_layersDown 0 (min level (max epLevel level))
  unfold IncrementalHNSW.connectUpper
  by_cases hlevel : level < epLevel
  · obtain ⟨e₁, he₁, hrun₁⟩ : ∃ e ∈ U, (layersDown level (max epLevel level)).foldlM _ _ = some e :=
      h.descend hid (fun l hl => hU l (Nat.zero_lt_of_lt (mem_layersDown.1 hl).1)) hentry
    obtain ⟨idx₂, e₂, hrun₂, hrest⟩ := h.connectAll hid he₁ hnodup hpos fun l hl => hU l (hpos l hl)
    refine ⟨idx₂, e₂, ?_, hrest⟩
    simp only [if_pos hlevel, hrun₁, bind_eq_bind, bind_some, hrun₂]
  · obtain ⟨idx₂, e₂, hrun₂, hrest⟩ :=
      h.connectAll hid hentry hnodup hpos fun l hl => hU l (hpos l hl)
    refine ⟨idx₂, e₂, ?_, hrest⟩
    simp only [if_neg hlevel, bind_eq_bind, bind_some, hrun₂]

/-! ### One step -/

theorem complete_new (config : HnswConfig) : Complete env dim (new config) ∅ where
  contains_iff := fun i => by simp [contains, node?, new]
  admits := fun i n hn => by simp [node?, new] at hn
  length_le := Nat.zero_le _
  generation_pos := Nat.one_pos
  visited_length := le_rfl
  visited_lt := by simp [new]
  noEntry_notMem := notMem_empty _
  entry := .inl ⟨rfl, rfl⟩
  linked := by simp

/-- Only the head of the index changes. -/
theorem Complete.with_head (h : Complete env dim idx live) {entryPoint : UInt32} (hentry : entryPoint ∈ live)
    (maxLayer : ℕ) : Complete env dim { idx with entryPoint, maxLayer } live :=
  ⟨⟨h.contains_iff, h.admits, h.length_le, h.generation_pos, h.visited_length, h.visited_lt⟩,
    h.noEntry_notMem, .inr hentry, h.linked⟩

variable {level : ℕ}

/-- **An insert that does not start its search of layer 0 at its own node keeps the index
complete.** -/
theorem Complete.insert (h : Complete env dim idx live) (hv : env.metric.Admits dim vector) (hid : id ≠ noEntry)
    (hcard : (Insert.insert id live).card ≤ idx.config.m0)
    (hstart : (∃ b ∈ live, b ≠ id) → idx.layer0Start env id vector level ≠ some id) :
    ∃ idx', idx.insert env id vector level = some idx' ∧
      Complete env dim idx' (Insert.insert id live) ∧ idx'.config = idx.config := by
  have hsound := h.toSound.place hv id level
  have hidlive : id ∈ Insert.insert id live := mem_insert_self id live
  have hmax : noEntry ∉ Insert.insert id live := by
    rw [mem_insert, not_or]
    exact ⟨hid.symm, h.noEntry_notMem⟩
  rcases h.entry with ⟨hempty, hentry⟩ | hentry
  · -- The first node.
    refine ⟨{ idx.place id vector level with entryPoint := id, maxLayer := level }, ?_, ?_, rfl⟩
    · exact if_pos hentry
    · refine ⟨⟨hsound.contains_iff, hsound.admits, hsound.length_le, hsound.generation_pos,
        hsound.visited_length, hsound.visited_lt⟩, hmax, .inr hidlive, fun a ha => ?_⟩
      have haid : a = id := by simpa [hempty] using ha
      have hlinks : IncrementalHNSW.links
          { idx.place id vector level with entryPoint := id, maxLayer := level } 0 a = [] := by
        have := links_place idx id vector level 0 a
        rwa [if_pos haid] at this
      rw [hlinks]
      refine ⟨nodup_nil, fun b hb hne => absurd ?_ hne⟩
      rw [haid]
      simpa [hempty] using hb
  · have hne : idx.entryPoint ≠ noEntry := fun heq => h.noEntry_notMem (heq ▸ hentry)
    have hentry' : (idx.place id vector level).entryPoint ∈ Insert.insert id live := mem_insert_of_mem hentry
    obtain ⟨n, hn⟩ := hsound.node hentry'
    have hslot : (idx.place id vector level).nodes[idx.entryPoint.toNat]? = some (some n) := join_eq_some_iff.1 hn
    obtain ⟨idx₁, e, hrun₁, he, h₁, hlinks₁, hhead₁⟩ :=
      hsound.connectUpper hidlive hentry' (fun l _ => closedAt_live _ _ l) level n.level
    have hstart₁ : (∃ b ∈ Insert.insert id live, b ≠ id) → e ≠ id := by
      rintro ⟨b, hb, hbid⟩ rfl
      refine hstart ⟨b, mem_of_mem_insert_of_ne hb hbid, hbid⟩ ?_
      have hslot' : (idx.place e vector level).nodes[(idx.place e vector level).entryPoint.toNat]? =
          some (some n) := hslot
      simp [layer0Start, hslot', hrun₁]
    have hothers : ∀ a ∈ Insert.insert id live, a ≠ id → (idx₁.links 0 a).Nodup ∧
        ∀ b ∈ Insert.insert id live, b ≠ a → b ≠ id → b ∈ idx₁.links 0 a := by
      intro a ha haid
      have halive := mem_of_mem_insert_of_ne ha haid
      rw [hlinks₁, links_place, if_neg haid]
      refine ⟨(h.linked a halive).1, fun b hb hba hbid => ?_⟩
      exact (h.linked a halive).2 b (mem_of_mem_insert_of_ne hb hbid) hba
    have hcard₁ : (Insert.insert id live).card ≤ idx₁.config.m0 := by
      rw [hhead₁.config]
      exact hcard
    obtain ⟨idx₂, e₂, hrun₂, h₂, hlinked₂, hhead₂⟩ := h₁.connect_zero hidlive he hcard₁ hothers hstart₁
    have hhead := hhead₁.trans hhead₂
    have hcomplete : Complete env dim idx₂ (Insert.insert id live) := by
      refine ⟨h₂, hmax, .inr ?_, hlinked₂⟩
      rw [hhead.entryPoint]
      exact hentry'
    refine ⟨if n.level < level then { idx₂ with entryPoint := id, maxLayer := level } else idx₂, ?_, ?_, ?_⟩
    · have hne' : (idx.place id vector level).entryPoint ≠ noEntry := hne
      have hslot' : (idx.place id vector level).nodes[
          (idx.place id vector level).entryPoint.toNat]? = some (some n) := hslot
      simp [IncrementalHNSW.insert, hne', hslot', hrun₁, hrun₂]
    · split_ifs
      · exact hcomplete.with_head hidlive level
      · exact hcomplete
    · split_ifs <;> exact hhead.config

/-! ### The entry point -/

variable {pick : Option α → α → Option α} {best : Option α} {cs : List α}

/-- A running choice between the best so far and the next one is one of those it chose between. -/
theorem mem_of_foldl_eq_some (hpick : ∀ best c, pick best c = some c ∨ pick best c = best) {c : α}
    (h : cs.foldl pick best = some c) : c ∈ cs ∨ best = some c := by
  induction cs generalizing best with
  | nil => exact .inr h
  | cons c' cs ih =>
    rcases ih h with hmem | hbest
    · exact .inl (mem_cons_of_mem c' hmem)
    · rcases hpick best c' with hnew | hold
      · obtain rfl := some.inj (hnew.symm.trans hbest)
        exact .inl mem_cons_self
      · exact .inr (hold.symm.trans hbest)

/-- And it ends with one as soon as there is one. -/
theorem isSome_foldl (hpick : ∀ best c, (pick best c).isSome = true) (h : cs ≠ [] ∨ best.isSome = true) :
    (cs.foldl pick best).isSome = true := by
  induction cs generalizing best with
  | nil => exact h.resolve_left (by simp)
  | cons c cs ih => exact ih (.inr (hpick best c))

variable {i : UInt32}

theorem highest_mem (h : idx.highest = some (i, level))
    (hlen : idx.nodes.length ≤ 2 ^ 32) : ∃ n, idx.node? i = some n ∧ n.level = level := by
  have hor : (i, level) ∈ idx.nodes.zipIdx.filterMap (fun p => p.1.map fun n => (UInt32.ofNat p.2, n.level)) ∨
      none = some (i, level) := by
    refine mem_of_foldl_eq_some (fun best c => ?_) h
    cases best with
    | none => exact .inl rfl
    | some b =>
      simp only
      split_ifs
      · exact .inl rfl
      · exact .inr rfl
  have hmem := hor.resolve_right (by simp)
  obtain ⟨⟨slot, k⟩, hk, hslot⟩ := mem_filterMap.1 hmem
  obtain ⟨n, rfl, heq⟩ := map_eq_some_iff.1 hslot
  cases heq
  have hget := mem_zipIdx_iff_getElem?.1 hk
  have hlt : k < 2 ^ 32 := by
    by_contra hge
    rw [getElem?_eq_none (by omega)] at hget
    cases hget
  have hnat : (UInt32.ofNat k).toNat = k := UInt32.toNat_ofNat_of_lt' hlt
  exact ⟨n, by rw [node?, hnat, hget]; rfl, rfl⟩

theorem highest_some {n : Node} (h : idx.node? i = some n) : ∃ best, idx.highest = some best := by
  refine isSome_iff_exists.1 (isSome_foldl (fun best c => ?_) (.inl (ne_nil_of_mem (a := (i, n.level)) ?_)))
  · cases best with
    | none => rfl
    | some b =>
      simp only
      split_ifs <;> rfl
  · have hget : idx.nodes[i.toNat]? = some (some n) := join_eq_some_iff.1 h
    exact mem_filterMap.2 ⟨(some n, i.toNat), mem_zipIdx_iff_getElem?.2 hget, by simp⟩

/-- The repaired entry point is live, if any id is. -/
theorem Sound.fixEntryPoint_entry (h : Sound env dim idx live) :
    (live = ∅ ∧ idx.fixEntryPoint.entryPoint = noEntry) ∨ idx.fixEntryPoint.entryPoint ∈ live := by
  simp only [fixEntryPoint]
  cases hbest : idx.highest with
  | none =>
    left
    refine ⟨eq_empty_of_forall_notMem fun i hi => ?_, rfl⟩
    obtain ⟨n, hn⟩ := h.node hi
    obtain ⟨best, hsome⟩ := highest_some hn
    rw [hbest] at hsome
    cases hsome
  | some best =>
    right
    have hbest' : idx.highest = some (best.1, best.2) := hbest
    obtain ⟨n, hn, -⟩ := highest_mem hbest' h.length_le
    exact (h.contains_iff _).1 (contains_iff_node?.2 ⟨n, hn⟩)

theorem Sound.complete_fixEntryPoint (h : Sound env dim idx live) (hmax : noEntry ∉ live)
    (hlinked : ∀ a ∈ live, (idx.links 0 a).Nodup ∧ ∀ b ∈ live, b ≠ a → b ∈ idx.links 0 a) :
    Complete env dim idx.fixEntryPoint live :=
  ⟨⟨h.contains_iff, h.admits, h.length_le, h.generation_pos, h.visited_length, h.visited_lt⟩,
    hmax, h.fixEntryPoint_entry, hlinked⟩

/-! ### Removal -/

theorem node?_clear (idx : IncrementalHNSW) (id j : UInt32) :
    IncrementalHNSW.node? { idx with nodes := idx.nodes.set id.toNat none } j =
      if j = id then none else idx.node? j := by
  simp only [node?, getElem?_set, UInt32.toNat_inj]
  rcases eq_or_ne j id with rfl | hne
  · simp only [if_true]
    split_ifs <;> rfl
  · simp [hne, hne.symm]

theorem Sound.clear (h : Sound env dim idx live) (id : UInt32) :
    Sound env dim { idx with nodes := idx.nodes.set id.toNat none } (live.erase id) := by
  refine ⟨fun j => ?_, fun j n hn => ?_, by simpa using h.length_le, h.generation_pos,
    by simpa using h.visited_length, h.visited_lt⟩
  · have hj := h.contains_iff j
    simp only [contains, node?_clear, mem_erase] at hj ⊢
    split_ifs with hjid
    · simp [hjid]
    · simp [hjid, hj]
  · rw [node?_clear] at hn
    split_ifs at hn
    exact h.admits j n hn

/-- **A removal keeps the index complete.** -/
theorem Complete.remove (h : Complete env dim idx live) (id : UInt32) :
    Complete env dim (idx.remove id) (live.erase id) ∧ (idx.remove id).config = idx.config := by
  have hsound := h.toSound.clear id
  have hlinks : ∀ a ∈ live.erase id,
      IncrementalHNSW.links { idx with nodes := idx.nodes.set id.toNat none } 0 a = idx.links 0 a := by
    intro a ha
    rw [links, node?_clear, if_neg (ne_of_mem_erase ha), links]
  have hlinked : ∀ a ∈ live.erase id,
      (IncrementalHNSW.links { idx with nodes := idx.nodes.set id.toNat none } 0 a).Nodup ∧
        ∀ b ∈ live.erase id, b ≠ a →
          b ∈ IncrementalHNSW.links { idx with nodes := idx.nodes.set id.toNat none } 0 a := by
    intro a ha
    rw [hlinks a ha]
    obtain ⟨hnodup, hall⟩ := h.linked a (mem_of_mem_erase ha)
    exact ⟨hnodup, fun b hb => hall b (mem_of_mem_erase hb)⟩
  have hmax : noEntry ∉ live.erase id := fun hmem =>
    h.noEntry_notMem (mem_of_mem_erase hmem)
  unfold IncrementalHNSW.remove
  by_cases heq : idx.entryPoint = id
  · rw [if_pos heq]
    exact ⟨hsound.complete_fixEntryPoint hmax hlinked, rfl⟩
  · rw [if_neg heq]
    refine ⟨⟨⟨hsound.contains_iff, hsound.admits, hsound.length_le, hsound.generation_pos,
      hsound.visited_length, hsound.visited_lt⟩, hmax, ?_, hlinked⟩, rfl⟩
    rcases h.entry with ⟨rfl, hentry⟩ | hentry
    · exact .inl ⟨rfl, hentry⟩
    · exact .inr (mem_erase.2 ⟨heq, hentry⟩)

/-! ### Export and import -/

theorem node?_importNodes (idx target : IncrementalHNSW) (j : UInt32) :
    (target.importNodes env idx.exportNodes).node? j =
      (idx.node? j).map fun n =>
        { n with vector := { n.vector with metric := env.metric.kind } } := by
  simp only [node?, importNodes, exportNodes, fixEntryPoint, getElem?_map]
  cases idx.nodes[j.toNat]? with
  | none => rfl
  | some slot => cases slot <;> rfl

variable {target : IncrementalHNSW}

theorem Sound.importNodes (h : Sound env dim idx live)
    (hpos : 0 < target.generation) (hlt : ∀ g ∈ target.visitedGen, g < target.generation) :
    Sound env dim (target.importNodes env idx.exportNodes) live := by
  refine ⟨fun j => ?_, fun j n hn => ?_, ?_, hpos, ?_, ?_⟩
  · rw [contains, node?_importNodes, isSome_map, ← contains, h.contains_iff]
  · rw [node?_importNodes] at hn
    obtain ⟨n', hn', rfl⟩ := map_eq_some_iff.1 hn
    exact h.admits j n' hn'
  · simpa [IncrementalHNSW.importNodes, exportNodes, fixEntryPoint] using h.length_le
  · simp only [IncrementalHNSW.importNodes, fixEntryPoint]
    rw [length_resize (by omega)]
    omega
  · intro g hg
    rcases mem_append.1 hg with hg | hg
    · exact hlt g hg
    · exact (eq_of_mem_replicate hg).symm ▸ hpos

/-- **An export imported into the same index, or a fresh one, keeps it complete.** -/
theorem Complete.importNodes (h : Complete env dim idx live)
    (hpos : 0 < target.generation) (hlt : ∀ g ∈ target.visitedGen, g < target.generation) :
    Complete env dim (target.importNodes env idx.exportNodes) live := by
  have hlinks : ∀ a, (target.importNodes env idx.exportNodes).links 0 a = idx.links 0 a := by
    intro a
    rw [links, node?_importNodes, links]
    cases idx.node? a <;> rfl
  have hsound : Sound env dim (target.importNodes env idx.exportNodes) live := h.toSound.importNodes hpos hlt
  refine ⟨hsound, h.noEntry_notMem, hsound.fixEntryPoint_entry, fun a ha => ?_⟩
  rw [hlinks]
  exact h.linked a ha

/-! ### Search -/

/-- **A search of a complete index goes through, and returns each live id exactly once if it
asks for all of them.** -/
theorem Complete.search (h : Complete env dim idx live) (hq : env.metric.Admits dim query) (topK : ℕ) :
    ∃ results idx', idx.search env query topK = some (results, idx') ∧
      Complete env dim idx' live ∧ idx'.config = idx.config ∧
      (live.card ≤ topK → (results.map Prod.fst).Nodup ∧ ∀ i, i ∈ results.map Prod.fst ↔ i ∈ live) := by
  rcases h.entry with ⟨rfl, hentry⟩ | hentry
  · exact ⟨[], idx, by simp [IncrementalHNSW.search, searchWithFilter, hentry], h, rfl,
      fun _ => by simp⟩
  have hne : idx.entryPoint ≠ noEntry := fun heq => h.noEntry_notMem (heq ▸ hentry)
  obtain ⟨e, he, hrun⟩ := h.toSound.descendExternal hq
    (fun l (_ : l ∈ layersDown 0 idx.maxLayer) => closedAt_live idx live l) hentry
  obtain ⟨results, visited, hsearch, hsound, hfound⟩ :=
    h.toSound.searchLayer hq (closedAt_live idx live 0) he (max idx.config.efSearch topK)
  refine ⟨results.take topK, _, ?_, ⟨hsound, h.noEntry_notMem, .inr hentry, h.linked⟩, rfl, fun htop => ?_⟩
  · simp [IncrementalHNSW.search, searchWithFilter, hne, (h.contains_iff _).2 hentry, hrun, filterAwareEf,
    searchLayer0External, hsearch]
  · obtain ⟨hnodup, hmem, hall⟩ := hfound.wide (htop.trans (le_max_right _ _))
    have hiff : ∀ i, i ∈ results.map Prod.fst ↔ i ∈ live := by
      refine fun i => ⟨hfound.mem i, fun hi => ?_⟩
      by_cases hie : i = e
      · rwa [hie]
      · exact hall i (h.toSound.mem_getNeighbors.2 ⟨hi, (h.linked e he).2 i hi hie⟩)
    have hlen : results.length ≤ topK := by
      rw [← length_map (f := Prod.fst), ← toFinset_card_of_nodup hnodup]
      refine (card_le_card fun i hi => ?_).trans htop
      exact hfound.mem i (List.mem_toFinset.1 hi)
    rw [take_of_length_le hlen]
    exact ⟨hnodup, hiff⟩

/-! ### Runs -/

/-- A call of the index; an insert with the level it draws, `restore` an import into a new
index. -/
inductive HnswOp
  | insert (id : UInt32) (vector : EmbeddingVector) (level : ℕ)
  | remove (id : UInt32)
  | reimport
  | restore
  | search (query : EmbeddingVector) (topK : ℕ)
  deriving DecidableEq

/-- The ids that are live after a call. -/
def HnswOp.lives (live : Finset UInt32) : HnswOp → Finset UInt32
  | insert id _ _ => Insert.insert id live
  | remove id => live.erase id
  | _ => live

def liveAfter (ops : List HnswOp) : Finset UInt32 := ops.foldl HnswOp.lives ∅

def apply (env : HnswEnv) (idx : IncrementalHNSW) : HnswOp → Option IncrementalHNSW
  | .insert id vector level => idx.insert env id vector level
  | .remove id => some (idx.remove id)
  | .reimport => some (idx.importNodes env idx.exportNodes)
  | .restore => some ((new idx.config).importNodes env idx.exportNodes)
  | .search query topK => (idx.search env query topK).map Prod.snd

def run (env : HnswEnv) (config : HnswConfig) (ops : List HnswOp) : Option IncrementalHNSW :=
  ops.foldlM (apply env) (new config)

/-- The call takes vectors the metric admits, and an insert neither takes the id that stands for
an empty index nor, where other ids are live, starts its search of layer 0 at its own node. -/
def CleanOp (env : HnswEnv) (dim : ℕ) (idx : IncrementalHNSW) (live : Finset UInt32) : HnswOp → Prop
  | .insert id vector level =>
    env.metric.Admits dim vector ∧ id ≠ noEntry ∧ ((∃ b ∈ live, b ≠ id) → idx.layer0Start env id vector level ≠ some id)
  | .search query _ => env.metric.Admits dim query
  | _ => True

/-- Every call of the run is clean in the state it meets. -/
def CleanRun (env : HnswEnv) (dim : ℕ) : IncrementalHNSW → Finset UInt32 → List HnswOp → Prop
  | _, _, [] => True
  | idx, live, op :: ops =>
    CleanOp env dim idx live op ∧ match idx.apply env op with
      | some idx' => CleanRun env dim idx' (op.lives live) ops
      | none => True

instance (dim : ℕ) (v : EmbeddingVector) : Decidable (env.metric.Admits dim v) := inferInstanceAs (Decidable (_ → _))

instance (op : HnswOp) : Decidable (CleanOp env dim idx live op) := by
  cases op <;> unfold CleanOp <;> infer_instance

instance decidableCleanRun (env : HnswEnv) (dim : ℕ) :
    ∀ (ops : List HnswOp) (idx : IncrementalHNSW) (live : Finset UInt32), Decidable (CleanRun env dim idx live ops)
  | [], _, _ => isTrue trivial
  | op :: ops, idx, live => by
    have := decidableCleanRun env dim ops
    unfold CleanRun
    cases idx.apply env op <;> infer_instance

/-- After the calls a search goes through and returns every live id exactly once and no other. -/
def SearchExact (env : HnswEnv) (config : HnswConfig) (ops : List HnswOp)
    (query : EmbeddingVector) (topK : ℕ) : Prop :=
  ∃ idx results idx', run env config ops = some idx ∧
    idx.search env query topK = some (results, idx') ∧ (results.map Prod.fst).Nodup ∧
    ∀ i, i ∈ results.map Prod.fst ↔ i ∈ liveAfter ops

theorem Complete.apply (h : Complete env dim idx live) {op : HnswOp} (hclean : CleanOp env dim idx live op)
    (hcard : (op.lives live).card ≤ idx.config.m0) :
    ∃ idx', idx.apply env op = some idx' ∧ Complete env dim idx' (op.lives live) ∧ idx'.config = idx.config := by
  cases op with
  | insert id vector level => exact h.insert hclean.1 hclean.2.1 hcard hclean.2.2
  | remove id => exact ⟨_, rfl, h.remove id⟩
  | reimport => exact ⟨_, rfl, h.importNodes h.generation_pos h.visited_lt, rfl⟩
  | restore => exact ⟨_, rfl, h.importNodes Nat.one_pos (by simp [new]), rfl⟩
  | search query topK =>
    obtain ⟨results, idx', hrun, h', hconfig, -⟩ := h.search hclean topK
    exact ⟨idx', by simp [IncrementalHNSW.apply, hrun], h', hconfig⟩

theorem Complete.applyAll (h : Complete env dim idx live) {ops : List HnswOp} (hclean : CleanRun env dim idx live ops)
    (hcard : ∀ n, ((ops.take n).foldl HnswOp.lives live).card ≤ idx.config.m0) :
    ∃ idx', ops.foldlM (IncrementalHNSW.apply env) idx = some idx' ∧
      Complete env dim idx' (ops.foldl HnswOp.lives live) := by
  induction ops generalizing idx live with
  | nil => exact ⟨idx, rfl, h⟩
  | cons op ops ih =>
    obtain ⟨idx₁, hrun₁, h₁, hconfig⟩ := h.apply hclean.1 (hcard 1)
    have hclean₁ := hclean.2
    rw [hrun₁] at hclean₁
    obtain ⟨idx₂, hrun₂, h₂⟩ := ih h₁ hclean₁ fun n => by
      rw [hconfig]
      exact hcard (n + 1)
    exact ⟨idx₂, by simp [foldlM_cons, hrun₁, hrun₂], h₂⟩

/-- The cosine distance of unit vectors along the axes, `0.0` or `1.0`, and a binary search. -/
def axisEnv : HnswEnv where
  metric := ⟨.cosine, fun a b => if a.coords = b.coords then ⟨0⟩ else ⟨0x3FF0000000000000⟩⟩
  position l d := (l.filter fun x => !F64.totalLe d x).length
  position_le := length_filter_not_totalLe_le

/-- The unit vectors of the plane along the axes. -/
def axisX : EmbeddingVector := ⟨[⟨0x3FF0000000000000⟩, ⟨0⟩], .cosine, ⟨0⟩⟩

def axisY : EmbeddingVector := ⟨[⟨0⟩, ⟨0x3FF0000000000000⟩], .cosine, ⟨0⟩⟩

/-- Two inserts, and an upsert of the first id. -/
def upsertEntry : List HnswOp := [.insert 1 axisX 0, .insert 2 axisY 0, .insert 1 axisX 0]

end IncrementalHNSW

end WildAgentOs.Engine
