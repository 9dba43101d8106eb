import WildAgentOs.Engine.HnswSoundness

/-!
# Where an HNSW index is entered

`hnsw.rs`: `insert`, `remove` and `import_nodes` each set the entry point and `max_layer` in a way of their own.

* `EntersAtTop`, `Fits`, `Outranked`;
* `Layered.insert`, `Layered.remove`, `layered_importNodes`: one step;
* `entersAtTop_index`: any history.

A second insert of the entry point replaces its level before that level is read, so the new level is never greater.
-/

namespace WildAgentOs.Engine

open List Option

namespace IncrementalHNSW

variable {env : HnswEnv} {idx idx' : IncrementalHNSW}

/-- The level of the node of an id. -/
def levelAt (idx : IncrementalHNSW) (j : UInt32) : Option ℕ := (idx.node? j).map Node.level

/-- The index is entered at a live node of the highest level, which is `max_layer`, unless no node is live. -/
structure EntersAtTop (idx : IncrementalHNSW) : Prop where
  empty_iff : idx.entryPoint = noEntry ↔ ∀ j, idx.contains j = false
  top : idx.entryPoint ≠ noEntry →
    idx.levelAt idx.entryPoint = some idx.maxLayer ∧ ∀ j, ∀ l ∈ idx.levelAt j, l ≤ idx.maxLayer

/-- Such an index, with no more nodes than there are ids. -/
structure Layered (idx : IncrementalHNSW) : Prop extends EntersAtTop idx where
  length_le : idx.nodes.length ≤ 2 ^ 32

/-- The insert leaves the level of the entry point, and does not enter the index at `u32::MAX`. -/
def Fits (idx : IncrementalHNSW) (id : UInt32) (level : ℕ) : Prop :=
  (id = idx.entryPoint → ∀ l ∈ idx.levelAt id, l = level) ∧
    (id = noEntry → idx.entryPoint ≠ noEntry ∧ level ≤ idx.maxLayer)

instance (id : UInt32) (level : ℕ) : Decidable (idx.Fits id level) := inferInstanceAs (Decidable (_ ∧ _))

/-- A node of the id `u32::MAX` lies below one of those. -/
def Outranked (idx : IncrementalHNSW) (those : UInt32 → Prop) : Prop :=
  ∀ l ∈ idx.levelAt noEntry, ∃ j, those j ∧ ∃ l' ∈ idx.levelAt j, l < l'

/-! ### Levels -/

theorem contains_eq_false_iff {j : UInt32} : idx.contains j = false ↔ idx.levelAt j = none := by
  rw [contains, levelAt, map_eq_none_iff, isSome_eq_false_iff, isNone_iff_eq_none]

theorem entersAtTop_of_levelAt (hentry : idx.entryPoint ≠ noEntry)
    (hlevel : idx.levelAt idx.entryPoint = some idx.maxLayer) (hle : ∀ j, ∀ l ∈ idx.levelAt j, l ≤ idx.maxLayer) :
    EntersAtTop idx := by
  refine ⟨⟨fun h => absurd h hentry, fun h => ?_⟩, fun _ => ⟨hlevel, hle⟩⟩
  rw [contains_eq_false_iff.1 (h idx.entryPoint)] at hlevel
  cases hlevel

theorem EntersAtTop.levelAt_eq_none (h : EntersAtTop idx) (hentry : idx.entryPoint = noEntry) (j : UInt32) :
    idx.levelAt j = none :=
  contains_eq_false_iff.1 (h.empty_iff.1 hentry j)

theorem Relinked.levelAt (h : Relinked idx idx') (j : UInt32) : idx'.levelAt j = idx.levelAt j := by
  have hnode := congrArg (Option.map Prod.snd) (h.node? j)
  rwa [Option.map_map, Option.map_map] at hnode

theorem levelAt_place (id : UInt32) (vector : EmbeddingVector) (level : ℕ) (j : UInt32) :
    (idx.place id vector level).levelAt j = if j = id then some level else idx.levelAt j := by
  rw [levelAt, node?_place]
  split_ifs <;> rfl

theorem Relinked.entersAtTop (h : Relinked idx idx') (htop : EntersAtTop idx) : EntersAtTop idx' := by
  refine ⟨?_, ?_⟩
  · rw [h.entryPoint, htop.empty_iff]
    simp only [contains_eq_false_iff, h.levelAt]
  · rw [h.entryPoint, h.maxLayer]
    simpa only [h.levelAt] using htop.top

theorem Relinked.layered (h : Relinked idx idx') (hlayered : Layered idx) : Layered idx' :=
  ⟨h.entersAtTop hlayered.toEntersAtTop, h.length.trans_le hlayered.length_le⟩

theorem outranked_of_levelAt (h : idx.levelAt noEntry = none) (those : UInt32 → Prop) : idx.Outranked those := by
  intro l hl
  cases h.symm.trans hl

/-! ### The highest node -/

theorem le_of_foldl_pick {cs : List (UInt32 × ℕ)} {start : Option (UInt32 × ℕ)} {best : UInt32 × ℕ}
    (h : cs.foldl (fun best c =>
      match best with
      | some b => if b.2 ≤ c.2 then some c else some b
      | none => some c) start = some best) :
    (∀ b ∈ start, b.2 ≤ best.2) ∧ ∀ c ∈ cs, c.2 ≤ best.2 := by
  induction cs generalizing start with
  | nil =>
    obtain rfl : start = some best := h
    simp
  | cons c cs ih =>
    rw [foldl_cons] at h
    obtain ⟨hpicked, hcs⟩ := ih h
    rw [forall_mem_cons]
    cases start with
    | none => exact ⟨by simp, hpicked c rfl, hcs⟩
    | some b =>
      simp only at hpicked
      split_ifs at hpicked with hle
      · have hc := hpicked c rfl
        refine ⟨?_, hc, hcs⟩
        rintro b' ⟨⟩
        omega
      · have hb := hpicked b rfl
        refine ⟨?_, ?_, hcs⟩
        · rintro b' ⟨⟩
          exact hb
        · omega

theorem le_of_highest {i j : UInt32} {level l : ℕ} (h : idx.highest = some (i, level)) (hl : l ∈ idx.levelAt j) :
    l ≤ level := by
  obtain ⟨n, hn, rfl⟩ := map_eq_some_iff.1 hl
  have hget : idx.nodes[j.toNat]? = some (some n) := join_eq_some_iff.1 hn
  refine (le_of_foldl_pick h).2 (j, n.level) ?_
  exact mem_filterMap.2 ⟨(some n, j.toNat), mem_zipIdx_iff_getElem?.2 hget, by simp⟩

/-- The repaired entry point is a node of the highest level, if it is not taken for that of an empty index. -/
theorem entersAtTop_fixEntryPoint (hlen : idx.nodes.length ≤ 2 ^ 32) (hmax : idx.Outranked fun _ => True) :
    EntersAtTop idx.fixEntryPoint := by
  cases hbest : idx.highest with
  | none =>
    have hhead : idx.fixEntryPoint = { idx with entryPoint := noEntry, maxLayer := 0 } := by simp [fixEntryPoint, hbest]
    rw [hhead]
    refine ⟨⟨fun _ j => ?_, fun _ => rfl⟩, fun h => absurd rfl h⟩
    rw [← Bool.not_eq_true]
    intro hj
    obtain ⟨n, hn⟩ := contains_iff_node?.1 hj
    obtain ⟨best, hsome⟩ : ∃ best, idx.highest = some best := highest_some hn
    cases hbest.symm.trans hsome
  | some best =>
    obtain ⟨i, level⟩ := best
    have hhead : idx.fixEntryPoint = { idx with entryPoint := i, maxLayer := level } := by simp [fixEntryPoint, hbest]
    obtain ⟨n, hn, rfl⟩ := highest_mem hbest hlen
    have hi : idx.levelAt i = some n.level := by rw [levelAt, hn, map_some]
    rw [hhead]
    refine entersAtTop_of_levelAt (fun hentry => ?_) hi fun j l hl => le_of_highest hbest hl
    obtain rfl : i = noEntry := hentry
    obtain ⟨j, -, l, hl, hlt⟩ := hmax n.level hi
    have hle := le_of_highest hbest hl
    omega

/-! ### Steps -/

theorem layered_new (config : HnswConfig) : Layered (new config) :=
  ⟨⟨⟨fun _ _ => rfl, fun _ => rfl⟩, fun h => absurd rfl h⟩, Nat.zero_le _⟩

theorem length_place (idx : IncrementalHNSW) (id : UInt32) (vector : EmbeddingVector) (level : ℕ) :
    (idx.place id vector level).nodes.length = max idx.nodes.length (id.toNat + 1) := by
  simp only [place, length_set, resize, length_append, length_replicate]
  omega

variable {id : UInt32}

/-- **An insert that fits.** -/
theorem Layered.insert (h : Layered idx) {vector : EmbeddingVector} {level : ℕ}
    (hfits : idx.Fits id level) (hrun : idx.insert env id vector level = some idx') : Layered idx' := by
  have hlen : (idx.place id vector level).nodes.length ≤ 2 ^ 32 := by
    have hid := id.toNat_lt
    have hold := h.length_le
    rw [length_place]
    omega
  have hown : (idx.place id vector level).levelAt id = some level := by rw [levelAt_place, if_pos rfl]
  obtain ⟨hentry, rfl⟩ | ⟨hentry, slot, idx₁, hslot, hlinked, rfl⟩ := insert_cases hrun
  · refine ⟨entersAtTop_of_levelAt (fun hid => (hfits.2 hid).1 hentry) hown fun j l hl => ?_, hlen⟩
    have hlevel := (levelAt_place id vector level j).symm.trans hl
    split_ifs at hlevel
    · exact (some.inj hlevel).ge
    · cases (h.levelAt_eq_none hentry j).symm.trans hlevel
  · obtain ⟨htop, hle⟩ := h.top hentry
    -- The entry point has its level also after it was replaced.
    have hkept : (idx.place id vector level).levelAt idx.entryPoint = some idx.maxLayer := by
      rw [levelAt_place]
      split_ifs with hid
      · rw [hfits.1 hid.symm idx.maxLayer (hid ▸ htop)]
      · exact htop
    have hread : (slot.map Node.level).getD 0 = idx.maxLayer := by
      rw [levelAt, IncrementalHNSW.node?, hslot, join_some] at hkept
      rw [hkept, getD_some]
    have hbelow : ∀ j, ∀ l ∈ (idx.place id vector level).levelAt j, l ≤ max idx.maxLayer level := by
      intro j l hl
      rw [levelAt_place] at hl
      split_ifs at hl
      · exact (some.inj hl).ge.trans (le_max_right _ _)
      · exact (hle j l hl).trans (le_max_left _ _)
    rw [hread]
    refine ⟨?_, by split_ifs <;> exact hlinked.length.trans_le hlen⟩
    split_ifs with hlt
    · refine entersAtTop_of_levelAt (fun hid => ?_) ((hlinked.levelAt id).trans hown) fun j l hl => ?_
      · exact absurd (hfits.2 hid).2 (not_le.2 hlt)
      · exact (hbelow j l ((hlinked.levelAt j).symm.trans hl)).trans (max_le hlt.le le_rfl)
    · refine hlinked.entersAtTop (entersAtTop_of_levelAt hentry hkept fun j l hl => ?_)
      exact (hbelow j l hl).trans (max_le le_rfl (not_lt.1 hlt))

theorem levelAt_clear (idx : IncrementalHNSW) (id j : UInt32) :
    levelAt { idx with nodes := idx.nodes.set id.toNat none } j = if j = id then none else idx.levelAt j := by
  rw [levelAt, node?_clear]
  split_ifs <;> rfl

/-- The highest level, where it is known. -/
theorem maxLayer_fixMaxLayer {top : ℕ} {e : UInt32} (hlen : idx.nodes.length ≤ 2 ^ 32) (htop : idx.levelAt e = some top)
    (hle : ∀ j, ∀ l ∈ idx.levelAt j, l ≤ top) : idx.fixMaxLayer.maxLayer = top := by
  apply le_antisymm
  · refine max_le_of_forall_le _ top fun l hl => ?_
    obtain ⟨n, hn, rfl⟩ := List.mem_map.1 hl
    obtain ⟨slot, hslot, rfl⟩ := mem_filterMap.1 hn
    obtain ⟨k, hk⟩ := mem_iff_getElem?.1 hslot
    have hlt : k < 2 ^ 32 := (List.getElem?_eq_some_iff.1 hk).1.trans_le hlen
    refine hle (UInt32.ofNat k) n.level ?_
    show ((idx.nodes[(UInt32.ofNat k).toNat]?).join).map Node.level = _
    rw [UInt32.toNat_ofNat_of_lt' hlt, hk]
    rfl
  · obtain ⟨n, hn, rfl⟩ := map_eq_some_iff.1 htop
    have hmem : some n ∈ idx.nodes := mem_of_getElem? (join_eq_some_iff.1 hn)
    exact le_max_of_le (List.mem_map.2 ⟨n, mem_filterMap.2 ⟨some n, hmem, rfl⟩, rfl⟩) le_rfl

/-- **A removal**, of the entry point if `u32::MAX` does not take its place. -/
theorem Layered.remove (h : Layered idx)
    (hmax : id = idx.entryPoint → idx.Outranked (· ≠ id)) : Layered (idx.remove id) := by
  have hlen : (idx.nodes.set id.toNat none).length ≤ 2 ^ 32 := by simpa using h.length_le
  unfold IncrementalHNSW.remove
  by_cases hid : idx.entryPoint = id
  · rw [if_pos hid]
    refine ⟨entersAtTop_fixEntryPoint hlen fun l hl => ?_, hlen⟩
    rw [levelAt_clear] at hl
    split_ifs at hl
    · cases hl
    · obtain ⟨j, hj, l', hl', hlt⟩ := hmax hid.symm l hl
      exact ⟨j, trivial, l', by rwa [levelAt_clear, if_neg hj], hlt⟩
  · rw [if_neg hid]
    refine ⟨?_, hlen⟩
    by_cases hentry : idx.entryPoint = noEntry
    · refine ⟨⟨fun _ j => contains_eq_false_iff.2 ?_, fun _ => hentry⟩, fun hne => absurd hentry hne⟩
      refine (levelAt_clear idx id j).trans ?_
      rw [h.levelAt_eq_none hentry j, ite_self]
    · obtain ⟨htop, hle⟩ := h.top hentry
      have hstays : levelAt { idx with nodes := idx.nodes.set id.toNat none } idx.entryPoint = some idx.maxLayer := by
        rw [levelAt_clear, if_neg hid, htop]
      have hbelow : ∀ j, ∀ l ∈ levelAt { idx with nodes := idx.nodes.set id.toNat none } j, l ≤ idx.maxLayer := by
        intro j l hl
        rw [levelAt_clear] at hl
        split_ifs at hl
        · cases hl
        · exact hle j l hl
      have hfixed := maxLayer_fixMaxLayer hlen hstays hbelow
      refine entersAtTop_of_levelAt hentry (hstays.trans (congrArg some hfixed.symm)) fun j l hl => ?_
      exact (hbelow j l hl).trans_eq hfixed.symm

theorem layered_importNodes {source : IncrementalHNSW} (target : IncrementalHNSW) (h : Layered source)
    (hmax : source.Outranked fun _ => True) : Layered (target.importNodes env source.exportNodes) := by
  have hlinked : ∀ j, (target.importNodes env source.exportNodes).levelAt j = source.levelAt j := by
    intro j
    simp only [levelAt, node?, importNodes, exportNodes, fixEntryPoint, getElem?_map]
    cases source.nodes[j.toNat]? with
    | none => rfl
    | some slot => cases slot <;> rfl
  have hlen : (target.importNodes env source.exportNodes).nodes.length ≤ 2 ^ 32 := by
    simpa [importNodes, exportNodes, fixEntryPoint] using h.length_le
  have hfixed : EntersAtTop (target.importNodes env source.exportNodes).fixEntryPoint := by
    refine entersAtTop_fixEntryPoint hlen fun l hl => ?_
    obtain ⟨j, -, l', hl', hlt⟩ := hmax l (by rwa [← hlinked])
    exact ⟨j, trivial, l', by rwa [hlinked], hlt⟩
  exact ⟨⟨hfixed.empty_iff, hfixed.top⟩, hlen⟩

/-- A search leaves the head and the nodes of an index that is entered at a live node. -/
theorem relinked_searchWithFilter (h : EntersAtTop idx) {query : EmbeddingVector} {topK : ℕ} {allowed : Option Bitmap}
    {results : List (UInt32 × F64)} (hrun : idx.searchWithFilter env query topK allowed = some (results, idx')) :
    Relinked idx idx' := by
  have hfix : ¬(idx.entryPoint ≠ noEntry ∧ ¬idx.contains idx.entryPoint = true) := by
    rintro ⟨hentry, hnot⟩
    have hlevel := (h.top hentry).1
    rw [contains_eq_false_iff.1 (Bool.eq_false_iff.2 hnot)] at hlevel
    cases hlevel
  unfold searchWithFilter at hrun
  split at hrun
  · obtain ⟨found, -, hrun⟩ := bind_eq_some_iff.1 hrun
    cases hrun
    exact .refl idx
  · simp only [if_neg hfix] at hrun
    split_ifs at hrun
    · cases hrun
      exact .refl idx
    · obtain ⟨entry, -, hrun⟩ := bind_eq_some_iff.1 hrun
      obtain ⟨⟨found, searched⟩, hsearched, hrun⟩ := bind_eq_some_iff.1 hrun
      cases hrun
      exact relinked_searchLayer hsearched

end IncrementalHNSW

/-! ### Histories -/

namespace History

open IncrementalHNSW

variable {env : HnswEnv}

/-- Every insert fits, and `u32::MAX` is never the highest node where a new entry point is looked for. -/
def KeepsTop (env : HnswEnv) : History → Prop
  | new _ => True
  | insert h id _ level => h.KeepsTop env ∧ ∀ idx ∈ h.index env, idx.Fits id level
  | remove h id => h.KeepsTop env ∧ ∀ idx ∈ h.index env, id = idx.entryPoint → idx.Outranked (· ≠ id)
  | importNodes _ source => source.KeepsTop env ∧ ∀ idx ∈ source.index env, idx.Outranked fun _ => True
  | search h _ _ _ => h.KeepsTop env

theorem layered_index {h : History} (hkeeps : h.KeepsTop env) {idx : IncrementalHNSW} (hrun : h.index env = some idx) :
    Layered idx := by
  induction h generalizing idx with
  | new config =>
    cases hrun
    exact layered_new config
  | insert h id vector level ih =>
    obtain ⟨idx₁, hrun₁, hrun⟩ := bind_eq_some_iff.1 hrun
    exact (ih hkeeps.1 hrun₁).insert (hkeeps.2 idx₁ hrun₁) hrun
  | remove h id ih =>
    obtain ⟨idx₁, hrun₁, hrun⟩ := bind_eq_some_iff.1 hrun
    cases hrun
    exact (ih hkeeps.1 hrun₁).remove (hkeeps.2 idx₁ hrun₁)
  | importNodes target source _ ih =>
    obtain ⟨idx₁, -, hrun⟩ := bind_eq_some_iff.1 hrun
    obtain ⟨idx₂, hrun₂, hrun⟩ := bind_eq_some_iff.1 hrun
    cases hrun
    exact layered_importNodes idx₁ (ih hkeeps.1 hrun₂) (hkeeps.2 idx₂ hrun₂)
  | search h query topK allowed ih =>
    obtain ⟨idx₁, hrun₁, hrun⟩ := bind_eq_some_iff.1 hrun
    obtain ⟨⟨results, idx₂⟩, hsearch, hrun⟩ := bind_eq_some_iff.1 hrun
    cases hrun
    have hlayered := ih hkeeps hrun₁
    exact (relinked_searchWithFilter hlayered.toEntersAtTop hsearch).layered hlayered

/-- **In every history whose calls fit, the index is entered at a live node of the highest level.** -/
theorem entersAtTop_index {h : History} (hkeeps : h.KeepsTop env) {idx : IncrementalHNSW}
    (hrun : h.index env = some idx) : idx.EntersAtTop :=
  (layered_index hkeeps hrun).toEntersAtTop

/-- Inserts at three levels, and of the entry point once more at its level. -/
def layeredSource : History :=
  .insert (.insert (.insert (.insert (.new ⟨50, 16, 32⟩) 1 axisX 1) 2 axisX 0) 1 axisX 1) 3 axisX 2

def layeredCopy : History := .importNodes (.new ⟨50, 16, 32⟩) layeredSource

/-- The entry point of the copy is removed. -/
def layeredHistory : History := .remove layeredCopy 3

theorem keepsTop_layeredHistory : layeredHistory.KeepsTop axisEnv := by
  have hsource : ∀ idx ∈ layeredSource.index axisEnv, idx.levelAt noEntry = none := by decide +kernel
  have hcopy : ∀ idx ∈ layeredCopy.index axisEnv, idx.levelAt noEntry = none := by decide +kernel
  refine ⟨⟨⟨⟨⟨⟨trivial, ?_⟩, ?_⟩, ?_⟩, ?_⟩, fun idx hidx => outranked_of_levelAt (hsource idx hidx) _⟩,
    fun idx hidx _ => outranked_of_levelAt (hcopy idx hidx) _⟩
  iterate 4 decide +kernel

theorem entersAtTop_layeredHistory : ∃ idx, layeredHistory.index axisEnv = some idx ∧ idx.EntersAtTop := by
  have hsome : (layeredHistory.index axisEnv).isSome = true := by decide +kernel
  obtain ⟨idx, hidx⟩ := isSome_iff_exists.1 hsome
  exact ⟨idx, hidx, entersAtTop_index keepsTop_layeredHistory hidx⟩

/-- The entry point is inserted once more, below its level. -/
def loweredEntry : History := .insert (.insert (.new ⟨50, 16, 32⟩) 1 axisX 2) 1 axisX 0

/-- The index is entered at a node of level 0 and descends from layer 2. -/
theorem not_entersAtTop_loweredEntry : ∃ idx, loweredEntry.index axisEnv = some idx ∧ ¬idx.EntersAtTop := by
  have hsome : (loweredEntry.index axisEnv).isSome = true := by decide +kernel
  have hhead : ∀ idx ∈ loweredEntry.index axisEnv, idx.entryPoint ≠ noEntry ∧
      idx.levelAt idx.entryPoint ≠ some idx.maxLayer := by decide +kernel
  obtain ⟨idx, hidx⟩ := isSome_iff_exists.1 hsome
  exact ⟨idx, hidx, fun h => (hhead idx hidx).2 (h.top (hhead idx hidx).1).1⟩

end History

end WildAgentOs.Engine
