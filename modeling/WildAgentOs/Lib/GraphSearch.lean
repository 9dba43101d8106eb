import Mathlib.Data.List.Sort
import Mathlib.Data.Finset.Card
import Mathlib.Tactic

/-!
# Greedy descent and beam search on a graph

The two searches of a navigable graph index, for any type of vertices and distances.  A
`Space` is what a search sees of the graph; looking up a distance may fail.  `greedy` moves to
the first strictly closer neighbour until there is none.  `beam` keeps a queue of candidates
and the best `width` results, and marks the vertices it has seen.

* `greedy_mem`, `beam_inv`, `beam_exact`.
-/

namespace GraphSearch

open List Prod

/-- What a search sees of a graph: `before` is the order in which candidates leave the queue,
`position` the place of a distance among those of the results, and `V` the type of marks. -/
structure Space (ι δ V : Type) where
  neighbors : ι → List ι
  dist : ι → Option δ
  lt : δ → δ → Bool
  before : ι × δ → ι × δ → Bool
  position : List δ → δ → ℕ
  seen : V → ι → Bool
  mark : V → ι → V

namespace Space

variable {ι δ V : Type} (S : Space ι δ V)

/-! ### Greedy descent -/

/-- The first of the vertices that is strictly closer than `best`. -/
def firstCloser (best : δ) : List ι → Option (Option (ι × δ))
  | [] => some none
  | i :: rest => do
    let d ← S.dist i
    if S.lt d best then some (some (i, d)) else firstCloser best rest

def descend : ℕ → ι → δ → Option ι
  | 0, _, _ => none
  | fuel + 1, i, best => do
    match ← S.firstCloser best (S.neighbors i) with
    | none => some i
    | some (j, d) => descend fuel j d

/-- Greedy descent from an entry vertex. -/
def greedy (fuel : ℕ) (entry : ι) : Option ι := do
  let d ← S.dist entry
  S.descend fuel entry d

/-! ### Beam search -/

structure Beam (ι δ V : Type) where
  candidates : List (ι × δ)
  results : List (ι × δ)
  visited : V

/-- Queue a vertex and place it among the results, which keep at most `width` entries. -/
def accept (width : ℕ) (b : Beam ι δ V) (i : ι) (d : δ) : Beam ι δ V :=
  let results := b.results.insertIdx (S.position (b.results.map Prod.snd) d) (i, d)
  { b with
    candidates := b.candidates.orderedInsert (fun c c' => S.before c c' = true) (i, d)
    results := if width < results.length then results.dropLast else results }

/-- One neighbour of the current vertex. -/
def visit (width : ℕ) (b : Beam ι δ V) (i : ι) : Option (Beam ι δ V) :=
  if S.seen b.visited i then some b
  else do
    let b := { b with visited := S.mark b.visited i }
    let d ← S.dist i
    if b.results.length < width then some (S.accept width b i d)
    else do
      let last ← b.results.getLast?
      some (if S.lt d last.2 then S.accept width b i d else b)

/-- The search stops at a candidate that is farther than the last of a full list of results. -/
def exhausted (width : ℕ) (b : Beam ι δ V) (current : δ) : Option Bool :=
  if b.results.length < width then some false
  else do
    let last ← b.results.getLast?
    some (S.lt last.2 current)

def loop (width : ℕ) : ℕ → Beam ι δ V → Option (Beam ι δ V)
  | 0, _ => none
  | fuel + 1, b =>
    match b.candidates with
    | [] => some b
    | (i, d) :: rest => do
      let b := { b with candidates := rest }
      if ← S.exhausted width b d then some b
      else do
        let b ← (S.neighbors i).foldlM (S.visit width) b
        loop width fuel b

/-- Beam search from an entry vertex. -/
def beam (width fuel : ℕ) (entry : ι) (visited : V) : Option (Beam ι δ V) := do
  let d ← S.dist entry
  S.loop width fuel ⟨[(entry, d)], [(entry, d)], S.mark visited entry⟩

/-! ### Closed sets of vertices -/

/-- Every neighbour of a vertex of `U` is in `U`, and no distance to a vertex of `U` fails. -/
structure Closed (U : Finset ι) : Prop where
  neighbors_mem : ∀ i ∈ U, ∀ j ∈ S.neighbors i, j ∈ U
  dist_some : ∀ i ∈ U, ∃ d, S.dist i = some d

/-- The distances are strictly ordered. -/
structure StrictLt : Prop where
  irrefl : ∀ d, S.lt d d = false
  trans : ∀ d e f, S.lt d e = true → S.lt e f = true → S.lt d f = true

/-- On marks with the property `ok`, marking a vertex of `U` makes it seen, and no other. -/
structure Marks (U : Finset ι) (ok : V → Prop) : Prop where
  ok_mark : ∀ v i, ok v → ok (S.mark v i)
  seen_mark : ∀ v, ok v → ∀ i ∈ U, ∀ j, S.seen (S.mark v i) j = true ↔ j = i ∨ S.seen v j = true

variable {S} {U : Finset ι} {ok : V → Prop} {w : ℕ} {l : List ι} {best : δ}

theorem firstCloser_mem (hU : S.Closed U) (hl : ∀ i ∈ l, i ∈ U) :
    ∃ r, S.firstCloser best l = some r ∧ ∀ i d, r = some (i, d) → i ∈ l ∧ S.dist i = some d ∧ S.lt d best = true := by
  induction l with
  | nil => exact ⟨none, rfl, fun i d h => by cases h⟩
  | cons i rest ih =>
    obtain ⟨d, hd⟩ := hU.dist_some i (hl i mem_cons_self)
    obtain ⟨r, hr, hmem⟩ := ih fun j hj => hl j (mem_cons_of_mem i hj)
    by_cases hlt : S.lt d best = true
    · refine ⟨some (i, d), by simp [firstCloser, hd, hlt], fun j e h => ?_⟩
      cases h
      exact ⟨mem_cons_self, hd, hlt⟩
    · refine ⟨r, by simp [firstCloser, hd, hlt, hr], fun j e h => ?_⟩
      obtain ⟨hj, he⟩ := hmem j e h
      exact ⟨mem_cons_of_mem i hj, he⟩

/-- The vertices of `U` that are strictly closer than `best`. -/
def closer (S : Space ι δ V) (U : Finset ι) (best : δ) : Finset ι :=
  U.filter fun i => (S.dist i).any fun d => S.lt d best

variable {i : ι}

theorem card_closer_lt (hS : S.StrictLt) (hi : i ∈ U) {d best : δ} (hd : S.dist i = some d)
    (hlt : S.lt d best = true) : (closer S U d).card < (closer S U best).card := by
  apply Finset.card_lt_card
  refine Finset.ssubset_iff_of_subset ?_ |>.2 ⟨i, ?_, ?_⟩
  · intro j hj
    simp only [closer, Finset.mem_filter, Option.any_eq_true_iff_get] at hj ⊢
    obtain ⟨hjU, hsome, hjd⟩ := hj
    exact ⟨hjU, hsome, hS.trans _ _ _ hjd hlt⟩
  · simp [closer, hi, hd, hlt]
  · simp [closer, hd, hS.irrefl]

variable {fuel : ℕ}

theorem descend_mem (hU : S.Closed U) (hS : S.StrictLt) (hi : i ∈ U)
    (hfuel : (closer S U best).card < fuel) : ∃ j ∈ U, S.descend fuel i best = some j := by
  induction fuel generalizing i best with
  | zero => omega
  | succ fuel ih =>
    obtain ⟨r, hr, hmem⟩ : ∃ r, S.firstCloser best (S.neighbors i) = some r ∧ _ :=
      firstCloser_mem hU (hU.neighbors_mem i hi)
    rw [descend, hr]
    cases r with
    | none => exact ⟨i, hi, rfl⟩
    | some p =>
      obtain ⟨hj, hd, hlt⟩ := hmem p.1 p.2 rfl
      have hjU : p.1 ∈ U := hU.neighbors_mem i hi p.1 hj
      have hcard : (closer S U p.2).card < fuel := by
        have := card_closer_lt hS hjU hd hlt
        omega
      exact ih hjU hcard

variable {entry : ι}

/-- **A descent in a closed set ends within it.** -/
theorem greedy_mem (hU : S.Closed U) (hS : S.StrictLt) (hentry : entry ∈ U)
    (hfuel : U.card < fuel) : ∃ j ∈ U, S.greedy fuel entry = some j := by
  obtain ⟨d, hd⟩ := hU.dist_some entry hentry
  have hcard : (closer S U d).card ≤ U.card := Finset.card_filter_le _ _
  obtain ⟨j, hj, hrun⟩ := descend_mem hU hS hentry (hcard.trans_lt hfuel)
  exact ⟨j, hj, by simp [greedy, hd, hrun]⟩

/-! ### Beam search: one neighbour -/

/-- The vertices of a list with their distances. -/
def ids (l : List (ι × δ)) : List ι := l.map Prod.fst

/-- The vertices of `U` that are not marked. -/
def unseen (S : Space ι δ V) (U : Finset ι) (v : V) : Finset ι := U.filter fun i => S.seen v i = false

/-- What holds of a beam throughout a search. -/
structure Inv (S : Space ι δ V) (U : Finset ι) (ok : V → Prop) (b : Beam ι δ V) : Prop where
  visited_ok : ok b.visited
  candidates_mem : ∀ i ∈ ids b.candidates, i ∈ U
  results_mem : ∀ i ∈ ids b.results, i ∈ U
  results_ne : b.results ≠ []

/-- The results are the marked vertices, each once. -/
structure Full (S : Space ι δ V) (U : Finset ι) (b : Beam ι δ V) : Prop where
  nodup : (ids b.results).Nodup
  mem_iff : ∀ i ∈ U, i ∈ ids b.results ↔ S.seen b.visited i = true

/-- The positions at which results are placed exist. -/
def Places (S : Space ι δ V) : Prop := ∀ l d, S.position l d ≤ l.length

/-- Every step pops a candidate or marks a vertex. -/
def work (S : Space ι δ V) (U : Finset ι) (b : Beam ι δ V) : ℕ := b.candidates.length + (unseen S U b.visited).card

theorem ids_insertIdx_perm (hP : S.Places) (l : List (ι × δ)) (i : ι) (d : δ) :
    (ids (l.insertIdx (S.position (l.map snd) d) (i, d))).Perm (i :: ids l) := by
  have hle : S.position (l.map snd) d ≤ l.length := by
    simpa using hP (l.map snd) d
  exact (perm_insertIdx (i, d) l hle).map fst

variable {v : V}

theorem card_unseen_mark (hM : S.Marks U ok) (hv : ok v) (hi : i ∈ U) (hseen : S.seen v i = false) :
    (unseen S U (S.mark v i)).card + 1 ≤ (unseen S U v).card := by
  have hlt : (unseen S U (S.mark v i)).card < (unseen S U v).card := by
    apply Finset.card_lt_card
    refine Finset.ssubset_iff_of_subset ?_ |>.2 ⟨i, ?_, ?_⟩
    · intro j hj
      simp only [unseen, Finset.mem_filter] at hj ⊢
      refine ⟨hj.1, Bool.eq_false_iff.2 fun h => ?_⟩
      rw [(hM.seen_mark v hv i hi j).2 (.inr h)] at hj
      exact absurd hj.2 (by decide)
    · simp [unseen, hi, hseen]
    · simp [unseen, (hM.seen_mark v hv i hi i).2 (.inl rfl)]
  omega

variable {b : Beam ι δ V}

/-- A vertex that is queued and placed. -/
theorem accept_inv (hP : S.Places) (hb : Inv S U ok b) (hi : i ∈ U) (d : δ) : Inv S U ok (S.accept w b i d) := by
  have hperm := ids_insertIdx_perm hP b.results i d
  have hmem : ∀ j ∈ ids (b.results.insertIdx (S.position (b.results.map snd) d) (i, d)), j ∈ U := by
    intro j hj
    rcases mem_cons.1 (hperm.mem_iff.1 hj) with rfl | hj
    · exact hi
    · exact hb.results_mem j hj
  have hlen : (b.results.insertIdx (S.position (b.results.map snd) d) (i, d)).length = b.results.length + 1 := by
    simpa [ids] using hperm.length_eq
  have hpos : 0 < b.results.length := length_pos_of_ne_nil hb.results_ne
  refine ⟨hb.visited_ok, ?_, ?_, ?_⟩
  · intro j hj
    obtain ⟨c, hc, rfl⟩ := mem_map.1 hj
    rcases (mem_orderedInsert _).1 hc with rfl | hc
    · exact hi
    · exact hb.candidates_mem _ (mem_map_of_mem hc)
  · intro j hj
    refine hmem j ?_
    simp only [accept] at hj
    split_ifs at hj
    · obtain ⟨c, hc, rfl⟩ := mem_map.1 hj
      exact mem_map_of_mem (dropLast_subset _ hc)
    · exact hj
  · simp only [accept]
    split_ifs
    · refine ne_nil_of_length_pos ?_
      rw [length_dropLast, hlen]
      omega
    · refine ne_nil_of_length_pos ?_
      omega

/-- In a beam as wide as the set nothing drops out of the results. -/
theorem accept_full (hP : S.Places) (hb : Inv S U ok b) (hM : S.Marks U ok) (hfull : Full S U b) (hw : U.card ≤ w)
    (hi : i ∈ U) (hseen : S.seen b.visited i = false) (d : δ) :
    Full S U (S.accept w { b with visited := S.mark b.visited i } i d) ∧
      i ∈ ids (S.accept w { b with visited := S.mark b.visited i } i d).results ∧
      ids b.results ⊆ ids (S.accept w { b with visited := S.mark b.visited i } i d).results := by
  classical
  have hperm := ids_insertIdx_perm hP b.results i d
  have hnot : i ∉ ids b.results := by
    rw [hfull.mem_iff i hi, hseen]
    decide
  have hnodup : (i :: ids b.results).Nodup := nodup_cons.2 ⟨hnot, hfull.nodup⟩
  -- The results and the new vertex are distinct members of `U`, so they fit the beam.
  have hfit : (i :: ids b.results).length ≤ w := by
    rw [← toFinset_card_of_nodup hnodup]
    refine (Finset.card_le_card fun j hj => ?_).trans hw
    rcases mem_cons.1 (mem_toFinset.1 hj) with rfl | hj
    · exact hi
    · exact hb.results_mem j hj
  have hkeep : ¬ w < (b.results.insertIdx (S.position (b.results.map snd) d) (i, d)).length := by
    have hlen := hperm.length_eq
    simp only [ids, length_map] at hlen hfit
    simp only [length_cons, length_map] at hlen hfit
    omega
  simp only [accept, if_neg hkeep]
  refine ⟨⟨hperm.nodup_iff.2 hnodup, fun j hj => ?_⟩, ?_, ?_⟩
  · rw [hperm.mem_iff, mem_cons, hfull.mem_iff j hj, hM.seen_mark b.visited hb.visited_ok i hi j]
  · exact hperm.mem_iff.2 mem_cons_self
  · exact fun j hj => hperm.mem_iff.2 (mem_cons_of_mem i hj)

theorem work_accept (i : ι) (d : δ) : work S U (S.accept w b i d) = work S U b + 1 := by
  simp only [work, accept, orderedInsert_length]
  omega

/-- `b'` holds all results of `b`. -/
def Extends (b b' : Beam ι δ V) : Prop := ids b.results ⊆ ids b'.results

/-- One neighbour: the search goes on, no step is lost, and in a wide beam the neighbour is
among the results. -/
theorem visit_inv (hU : S.Closed U) (hP : S.Places) (hM : S.Marks U ok) (hb : Inv S U ok b) (hi : i ∈ U) :
    ∃ b', S.visit w b i = some b' ∧ Inv S U ok b' ∧ work S U b' ≤ work S U b ∧
      (U.card ≤ w → Full S U b → Full S U b' ∧ i ∈ ids b'.results ∧ Extends b b') := by
  by_cases hseen : S.seen b.visited i = true
  · refine ⟨b, by simp [visit, hseen], hb, le_rfl, fun _ hfull => ⟨hfull, ?_, fun j hj => hj⟩⟩
    exact (hfull.mem_iff i hi).2 hseen
  · have hfresh : S.seen b.visited i = false := by simpa using hseen
    obtain ⟨d, hd⟩ := hU.dist_some i hi
    have hinv : Inv S U ok { b with visited := S.mark b.visited i } :=
      ⟨hM.ok_mark _ _ hb.visited_ok, hb.candidates_mem, hb.results_mem, hb.results_ne⟩
    have hcard := card_unseen_mark hM hb.visited_ok hi hfresh
    have hwork : work S U (S.accept w { b with visited := S.mark b.visited i } i d) ≤ work S U b := by
      rw [work_accept]
      simp only [work]
      omega
    by_cases hroom : b.results.length < w
    · refine ⟨S.accept w { b with visited := S.mark b.visited i } i d, ?_,
        accept_inv hP hinv hi d, hwork, fun hw hfull => ?_⟩
      · simp [visit, hfresh, hd, hroom]
      · exact accept_full hP hb hM hfull hw hi hfresh d
    · obtain ⟨last, hlast⟩ : ∃ last, b.results.getLast? = some last :=
        ⟨_, getLast?_eq_some_getLast hb.results_ne⟩
      have hnarrow : U.card ≤ w → ¬ Full S U b := by
        classical
        intro hw hfull
        -- A full list of results would hold all of `U`, and this vertex is not among them.
        have hsub : insert i (ids b.results).toFinset ⊆ U := by
          intro j hj
          rcases Finset.mem_insert.1 hj with rfl | hj
          · exact hi
          · exact hb.results_mem j (mem_toFinset.1 hj)
        have hnot : i ∉ (ids b.results).toFinset := by
          rw [mem_toFinset, hfull.mem_iff i hi, hfresh]
          decide
        have hle := Finset.card_le_card hsub
        rw [Finset.card_insert_of_notMem hnot, toFinset_card_of_nodup hfull.nodup] at hle
        simp only [ids, length_map] at hle
        omega
      by_cases hlt : S.lt d last.2 = true
      · refine ⟨S.accept w { b with visited := S.mark b.visited i } i d, ?_,
          accept_inv hP hinv hi d, hwork, fun hw hfull => absurd hfull (hnarrow hw)⟩
        simp [visit, hfresh, hd, hroom, hlast, hlt]
      · refine ⟨{ b with visited := S.mark b.visited i }, ?_, hinv, ?_, fun hw hfull => absurd hfull (hnarrow hw)⟩
        · simp [visit, hfresh, hd, hroom, hlast, hlt]
        · simp only [work]
          omega

/-! ### Beam search: the loop -/

theorem visitAll_inv (hU : S.Closed U) (hP : S.Places) (hM : S.Marks U ok) (hl : ∀ i ∈ l, i ∈ U) (hb : Inv S U ok b) :
    ∃ b', l.foldlM (S.visit w) b = some b' ∧ Inv S U ok b' ∧ work S U b' ≤ work S U b ∧
      (U.card ≤ w → Full S U b → Full S U b' ∧ (∀ i ∈ l, i ∈ ids b'.results) ∧ Extends b b') := by
  induction l generalizing b with
  | nil => exact ⟨b, rfl, hb, le_rfl, fun _ h => ⟨h, by simp, fun j hj => hj⟩⟩
  | cons i l ih =>
    obtain ⟨b₁, hrun₁, hinv₁, hwork₁, hfull₁⟩ := visit_inv (w := w) hU hP hM hb (hl i mem_cons_self)
    obtain ⟨b₂, hrun₂, hinv₂, hwork₂, hfull₂⟩ := ih (fun j hj => hl j (mem_cons_of_mem i hj)) hinv₁
    refine ⟨b₂, by simp [foldlM_cons, hrun₁, hrun₂], hinv₂, hwork₂.trans hwork₁,
      fun hw hfull => ?_⟩
    obtain ⟨hf₁, hi, hext₁⟩ := hfull₁ hw hfull
    obtain ⟨hf₂, hall, hext₂⟩ := hfull₂ hw hf₁
    refine ⟨hf₂, ?_, fun j hj => hext₂ (hext₁ hj)⟩
    intro j hj
    rcases mem_cons.1 hj with rfl | hj
    · exact hext₂ hi
    · exact hall j hj

theorem exhausted_some (hne : b.results ≠ []) (d : δ) : ∃ stop, S.exhausted w b d = some stop := by
  unfold exhausted
  split_ifs
  · exact ⟨false, rfl⟩
  · rw [getLast?_eq_some_getLast hne]
    exact ⟨_, rfl⟩

theorem loop_inv (hU : S.Closed U) (hP : S.Places) (hM : S.Marks U ok) (hb : Inv S U ok b) (hfuel : work S U b < fuel) :
    ∃ b', S.loop w fuel b = some b' ∧ Inv S U ok b' ∧ (U.card ≤ w → Full S U b → Full S U b' ∧ Extends b b') := by
  induction fuel generalizing b with
  | zero => omega
  | succ fuel ih =>
    cases hc : b.candidates with
    | nil => exact ⟨b, by simp [loop, hc], hb, fun _ h => ⟨h, fun j hj => hj⟩⟩
    | cons c rest =>
      have hpop : Inv S U ok { b with candidates := rest } := by
        refine ⟨hb.visited_ok, fun j hj => hb.candidates_mem j ?_, hb.results_mem, hb.results_ne⟩
        rw [hc]
        exact mem_cons_of_mem _ hj
      have hcU : c.1 ∈ U := hb.candidates_mem c.1 (by simp [ids, hc])
      have hwork : work S U { b with candidates := rest } + 1 = work S U b := by
        simp only [work, hc, length_cons]
        omega
      obtain ⟨stop, hstop⟩ := exhausted_some (S := S) (w := w) hpop.results_ne c.2
      cases stop with
      | true =>
        refine ⟨{ b with candidates := rest }, by simp [loop, hc, hstop], hpop, fun _ h => ?_⟩
        exact ⟨⟨h.nodup, h.mem_iff⟩, fun j hj => hj⟩
      | false =>
        obtain ⟨b₁, hrun₁, hinv₁, hwork₁, hfull₁⟩ := visitAll_inv (w := w) hU hP hM (hU.neighbors_mem c.1 hcU) hpop
        obtain ⟨b₂, hrun₂, hinv₂, hfull₂⟩ := ih hinv₁ (by omega)
        refine ⟨b₂, by simp [loop, hc, hstop, hrun₁, hrun₂], hinv₂, fun hw hfull => ?_⟩
        obtain ⟨hf₁, -, hext₁⟩ := hfull₁ hw ⟨hfull.nodup, hfull.mem_iff⟩
        obtain ⟨hf₂, hext₂⟩ := hfull₂ hw hf₁
        exact ⟨hf₂, fun j hj => hext₂ (hext₁ hj)⟩

/-! ### Beam search from an entry -/

/-- **A beam search in a closed set ends within it.  If the beam is as wide as the set and
nothing is marked at its start, the results are distinct and miss neither the entry nor any of
its neighbours.** -/
theorem beam_inv (hU : S.Closed U) (hP : S.Places) (hM : S.Marks U ok)
    (hS : ∀ d, S.lt d d = false) (hv : ok v) (hentry : entry ∈ U)
    (hfuel : U.card + 1 < fuel) :
    ∃ b, S.beam w fuel entry v = some b ∧ Inv S U ok b ∧
      (U.card ≤ w → (∀ i ∈ U, S.seen v i = false) →
        Full S U b ∧ entry ∈ ids b.results ∧ ∀ i ∈ S.neighbors entry, i ∈ ids b.results) := by
  obtain ⟨d, hd⟩ := hU.dist_some entry hentry
  obtain ⟨fuel, rfl⟩ := Nat.exists_eq_succ_of_ne_zero (by omega : fuel ≠ 0)
  have hstart : Inv S U ok ⟨[], [(entry, d)], S.mark v entry⟩ :=
    ⟨hM.ok_mark v entry hv, by simp [ids], by simpa [ids] using hentry, by simp⟩
  have hstop : S.exhausted w (⟨[], [(entry, d)], S.mark v entry⟩ : Beam ι δ V) d = some false := by
    simp [exhausted, hS]
  obtain ⟨b₁, hrun₁, hinv₁, hwork₁, hfull₁⟩ := visitAll_inv (w := w) hU hP hM (hU.neighbors_mem entry hentry) hstart
  have hwork : work S U b₁ < fuel := by
    have hle : (unseen S U (S.mark v entry)).card ≤ U.card := Finset.card_filter_le _ _
    simp only [work, length_nil] at hwork₁ ⊢
    omega
  obtain ⟨b₂, hrun₂, hinv₂, hfull₂⟩ := loop_inv (w := w) hU hP hM hinv₁ hwork
  refine ⟨b₂, by simp [beam, hd, loop, hstop, hrun₁, hrun₂], hinv₂, fun hw hclear => ?_⟩
  have hfull : Full S U ⟨[], [(entry, d)], S.mark v entry⟩ := by
    refine ⟨by simp [ids], fun i hi => ?_⟩
    rw [hM.seen_mark v hv entry hentry, hclear i hi]
    simp [ids]
  obtain ⟨hf₁, hall, hext₁⟩ := hfull₁ hw hfull
  obtain ⟨hf₂, hext₂⟩ := hfull₂ hw hf₁
  exact ⟨hf₂, hext₂ (hext₁ (by simp [ids])), fun i hi => hext₂ (hall i hi)⟩

/-! ### What the results say -/

/-- In a sorted list, a distance is placed after those that are no greater and before those that are no less. -/
def SortedPlaces (S : Space ι δ V) (le : δ → δ → Prop) : Prop :=
  ∀ (l : List δ) (d : δ), l.Pairwise le →
    (∀ e ∈ l.take (S.position l d), le e d) ∧ ∀ e ∈ l.drop (S.position l d), le d e

/-- Distinct marked vertices with their distances, the nearest first. -/
structure Exact (S : Space ι δ V) (le : δ → δ → Prop) (b : Beam ι δ V) : Prop where
  nodup : (ids b.results).Nodup
  seen : ∀ i ∈ ids b.results, S.seen b.visited i = true
  dist_eq : ∀ r ∈ b.results, S.dist r.1 = some r.2
  sorted : (b.results.map Prod.snd).Pairwise le

variable {le : δ → δ → Prop} {d : δ}

theorem pairwise_insertIdx {l : List δ} {n : ℕ} (hl : l.Pairwise le) (hbefore : ∀ e ∈ l.take n, le e d)
    (hafter : ∀ e ∈ l.drop n, le d e) : (l.insertIdx n d).Pairwise le := by
  induction l generalizing n with
  | nil => cases n <;> simp
  | cons a l ih =>
    cases n with
    | zero => exact pairwise_cons.2 ⟨hafter, hl⟩
    | succ n =>
      obtain ⟨ha, hl⟩ := pairwise_cons.1 hl
      have hrest : (l.insertIdx n d).Pairwise le := ih hl (fun e he => hbefore e (mem_cons_of_mem a he)) hafter
      refine pairwise_cons.2 ⟨fun e he => ?_, hrest⟩
      rcases eq_or_mem_of_mem_insertIdx he with rfl | he
      · exact hbefore a mem_cons_self
      · exact ha e he

variable {b' : Beam ι δ V}

/-- Dropping the last result, or none. -/
theorem Exact.of_sublist (h : Exact S le b) (hvisited : b'.visited = b.visited)
    (hsub : b'.results.Sublist b.results) : Exact S le b' where
  nodup := h.nodup.sublist (hsub.map fst)
  seen := fun i hi => hvisited ▸ h.seen i ((hsub.map fst).subset hi)
  dist_eq := fun r hr => h.dist_eq r (hsub.subset hr)
  sorted := h.sorted.sublist (hsub.map snd)

/-- A vertex that was not marked, queued and placed. -/
theorem accept_exact (hP : S.Places) (hsort : SortedPlaces S le) (hM : S.Marks U ok) (hb : Inv S U ok b)
    (hexact : Exact S le b) (hi : i ∈ U) (hseen : S.seen b.visited i = false) (hd : S.dist i = some d) :
    Exact S le (S.accept w { b with visited := S.mark b.visited i } i d) := by
  have hperm := ids_insertIdx_perm hP b.results i d
  have hnot : i ∉ ids b.results := fun hmem => by
    rw [hexact.seen i hmem] at hseen
    cases hseen
  obtain ⟨hbefore, hafter⟩ := hsort _ d hexact.sorted
  have hplaced : Exact S le ⟨b.candidates,
      b.results.insertIdx (S.position (b.results.map snd) d) (i, d), S.mark b.visited i⟩ := by
    refine ⟨hperm.nodup_iff.2 (nodup_cons.2 ⟨hnot, hexact.nodup⟩), fun j hj => ?_, fun r hr => ?_, ?_⟩
    · refine (hM.seen_mark b.visited hb.visited_ok i hi j).2 ?_
      exact (mem_cons.1 (hperm.mem_iff.1 hj)).imp_right (hexact.seen j)
    · rcases eq_or_mem_of_mem_insertIdx hr with rfl | hr
      · exact hd
      · exact hexact.dist_eq r hr
    · rw [map_insertIdx]
      exact pairwise_insertIdx hexact.sorted hbefore hafter
  refine hplaced.of_sublist rfl ?_
  simp only [accept]
  split_ifs
  · exact dropLast_sublist _
  · exact Sublist.refl _

theorem Exact.mark (hM : S.Marks U ok) (hb : Inv S U ok b) (hexact : Exact S le b) (hi : i ∈ U) :
    Exact S le { b with visited := S.mark b.visited i } :=
  ⟨hexact.nodup, fun j hj => (hM.seen_mark b.visited hb.visited_ok i hi j).2 (.inr (hexact.seen j hj)),
    hexact.dist_eq, hexact.sorted⟩

theorem visit_exact (hP : S.Places) (hsort : SortedPlaces S le) (hM : S.Marks U ok)
    (hb : Inv S U ok b) (hexact : Exact S le b) (hi : i ∈ U) (h : S.visit w b i = some b') : Exact S le b' := by
  unfold visit at h
  split_ifs at h with hseen
  · cases h
    exact hexact
  · obtain ⟨d, hd, h⟩ := Option.bind_eq_some_iff.1 h
    have haccept := accept_exact (w := w) hP hsort hM hb hexact hi (by simpa using hseen) hd
    dsimp only at h
    split_ifs at h
    · cases h
      exact haccept
    · obtain ⟨last, -, h⟩ := Option.bind_eq_some_iff.1 h
      cases h
      split_ifs
      · exact haccept
      · exact hexact.mark hM hb hi

theorem visitAll_exact (hU : S.Closed U) (hP : S.Places) (hsort : SortedPlaces S le) (hM : S.Marks U ok)
    (hl : ∀ i ∈ l, i ∈ U) (hb : Inv S U ok b) (hexact : Exact S le b)
    (h : l.foldlM (S.visit w) b = some b') : Exact S le b' := by
  induction l generalizing b with
  | nil =>
    cases h
    exact hexact
  | cons i l ih =>
    obtain ⟨b₁, hrun₁, h⟩ := Option.bind_eq_some_iff.1 h
    obtain ⟨b₁', hrun₁', hinv₁, -, -⟩ := visit_inv (w := w) hU hP hM hb (hl i mem_cons_self)
    cases hrun₁.symm.trans hrun₁'
    have hexact₁ := visit_exact hP hsort hM hb hexact (hl i mem_cons_self) hrun₁
    exact ih (fun j hj => hl j (mem_cons_of_mem i hj)) hinv₁ hexact₁ h

theorem loop_exact (hU : S.Closed U) (hP : S.Places) (hsort : SortedPlaces S le) (hM : S.Marks U ok)
    (hb : Inv S U ok b) (hexact : Exact S le b) (h : S.loop w fuel b = some b') : Exact S le b' := by
  induction fuel generalizing b with
  | zero => cases h
  | succ fuel ih =>
    cases hc : b.candidates with
    | nil =>
      rw [loop, hc] at h
      cases h
      exact hexact
    | cons c rest =>
      have hpop : Inv S U ok { b with candidates := rest } := by
        refine ⟨hb.visited_ok, fun j hj => hb.candidates_mem j ?_, hb.results_mem, hb.results_ne⟩
        rw [hc]
        exact mem_cons_of_mem _ hj
      have hpop' : Exact S le { b with candidates := rest } := hexact.of_sublist rfl (Sublist.refl _)
      have hcU : c.1 ∈ U := hb.candidates_mem c.1 (by simp [ids, hc])
      rw [loop, hc] at h
      obtain ⟨stop, -, h⟩ := Option.bind_eq_some_iff.1 h
      cases stop with
      | true =>
        cases h
        exact hpop'
      | false =>
        obtain ⟨b₁, hrun₁, h⟩ := Option.bind_eq_some_iff.1 h
        obtain ⟨b₁', hrun₁', hinv₁, -, -⟩ := visitAll_inv (w := w) hU hP hM (hU.neighbors_mem c.1 hcU) hpop
        cases hrun₁.symm.trans hrun₁'
        exact ih hinv₁ (visitAll_exact hU hP hsort hM (hU.neighbors_mem c.1 hcU) hpop hpop' hrun₁) h

/-- **The results of a beam search in a closed set are distinct vertices with their distances, the nearest first.** -/
theorem beam_exact (hU : S.Closed U) (hP : S.Places) (hsort : SortedPlaces S le) (hM : S.Marks U ok) (hv : ok v)
    (hentry : entry ∈ U) (h : S.beam w fuel entry v = some b) : Exact S le b := by
  obtain ⟨d, hd, h⟩ := Option.bind_eq_some_iff.1 h
  have hstart : Inv S U ok ⟨[(entry, d)], [(entry, d)], S.mark v entry⟩ :=
    ⟨hM.ok_mark v entry hv, by simpa [ids] using hentry, by simpa [ids] using hentry, by simp⟩
  refine loop_exact hU hP hsort hM hstart ⟨by simp [ids], fun j hj => ?_, ?_, by simp⟩ h
  · exact (hM.seen_mark v hv entry hentry j).2 (.inl (by simpa [ids] using hj))
  · simpa using hd

end Space

end GraphSearch
