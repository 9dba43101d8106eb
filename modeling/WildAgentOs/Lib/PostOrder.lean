import WildAgentOs.Lib.Worklist

/-!
# Post-order

The depth-first walk along a successor function that lists a place after its successors.  A place is seen when the
walk enters it.

* `visit`, with fuel for the depth of the recursion: what is listed, and what is seen;
* `Lists`, `lists_visit`, `exists_visit`, `postOrder`.
-/

namespace PostOrder

open Worklist List

variable {α : Type*} {next : α → List α}

/-- The walk from a place, with the list and what is seen so far. -/
def visit [DecidableEq α] (next : α → List α) : ℕ → α → List α × List α → Option (List α × List α)
  | 0, _, _ => none
  | fuel + 1, a, (listed, seen) =>
    if a ∈ seen then some (listed, seen)
    else ((next a).foldlM (fun state b => visit next fuel b state) (listed, a :: seen)).map fun state =>
      (state.1 ++ [a], state.2)

/-- What is added where something is seen: each place once, its successors with it, and these before it unless
they lead back to it. -/
structure Lists (next : α → List α) (seen added : List α) : Prop where
  nodup : added.Nodup
  fresh : ∀ a ∈ added, a ∉ seen
  closed : ∀ a ∈ added, ∀ b ∈ next a, b ∈ seen ∨ b ∈ added
  before : ∀ l a l', added = l ++ a :: l' → ∀ b ∈ next a, b ∈ seen ∨ b ∈ l ∨ Reaches next b a

theorem Lists.nil {seen : List α} : Lists next seen [] where
  nodup := .nil
  fresh _ h := absurd h not_mem_nil
  closed _ h := absurd h not_mem_nil
  before l a l' h := by simp at h

theorem Lists.append {seen seen' added added' : List α} (h : Lists next seen added) (h' : Lists next seen' added')
    (hseen : ∀ a, a ∈ seen' ↔ a ∈ seen ∨ a ∈ added) : Lists next seen (added ++ added') where
  nodup := by
    refine nodup_append.2 ⟨h.nodup, h'.nodup, ?_⟩
    rintro a ha b hb rfl
    exact h'.fresh a hb ((hseen a).2 (.inr ha))
  fresh a ha := by
    rcases mem_append.1 ha with ha | ha
    · exact h.fresh a ha
    · exact fun hin => h'.fresh a ha ((hseen a).2 (.inl hin))
  closed a ha b hb := by
    rw [mem_append]
    rcases mem_append.1 ha with ha | ha
    · exact (h.closed a ha b hb).imp_right .inl
    · rcases h'.closed a ha b hb with hin | hin
      · exact ((hseen b).1 hin).imp_right .inl
      · exact .inr (.inr hin)
  before l a l' hsplit b hb := by
    rcases append_eq_append_iff.1 hsplit with ⟨m, rfl, hm⟩ | ⟨m, hm, hrest⟩
    · rcases h'.before m a l' hm b hb with hin | hin | hreach
      · exact ((hseen b).1 hin).imp_right fun hin => .inl (mem_append_left _ hin)
      · exact .inr (.inl (mem_append_right _ hin))
      · exact .inr (.inr hreach)
    · cases m with
      | nil =>
        simp only [append_nil] at hm
        subst hm
        rcases h'.before [] a l' (by simpa using hrest.symm) b hb with hin | hin | hreach
        · exact (hseen b).1 hin |>.imp_right .inl
        · exact absurd hin not_mem_nil
        · exact .inr (.inr hreach)
      | cons c m =>
        obtain ⟨rfl, -⟩ := cons.inj hrest
        exact h.before l a m hm b hb

/-- **The place itself comes last**: its successors are listed, or were seen, or lead back. -/
theorem Lists.concat {a : α} {seen added : List α} (h : Lists next (a :: seen) added) (ha : a ∉ seen)
    (hnext : ∀ b ∈ next a, b ∈ a :: seen ∨ b ∈ added) (hreach : ∀ b ∈ added, Reaches next a b) :
    Lists next seen (added ++ [a]) where
  nodup := by
    refine nodup_append.2 ⟨h.nodup, nodup_singleton a, ?_⟩
    rintro b hb c hc rfl
    exact h.fresh b hb (mem_singleton.1 hc ▸ mem_cons_self)
  fresh b hb := by
    rcases mem_append.1 hb with hb | hb
    · exact fun hin => h.fresh b hb (mem_cons_of_mem a hin)
    · exact mem_singleton.1 hb ▸ ha
  closed b hb c hc := by
    have hin : c ∈ a :: seen ∨ c ∈ added := by
      rcases mem_append.1 hb with hb | hb
      · exact h.closed b hb c hc
      · exact hnext c (mem_singleton.1 hb ▸ hc)
    simp only [mem_cons, mem_append, not_mem_nil, or_false] at hin ⊢
    tauto
  before l b l' hsplit c hc := by
    rcases append_eq_append_iff.1 hsplit with ⟨m, rfl, hm⟩ | ⟨m, rfl, hrest⟩
    · obtain ⟨rfl, rfl⟩ : m = [] ∧ b = a := by
        cases m with
        | nil => simp_all
        | cons d m => simp at hm
      rw [append_nil]
      rcases hnext c hc with hin | hin
      · rcases mem_cons.1 hin with rfl | hin
        · exact .inr (.inr .refl)
        · exact .inl hin
      · exact .inr (.inl hin)
    · cases m with
      | nil =>
        obtain ⟨rfl, -⟩ := cons.inj hrest
        rw [append_nil] at h hreach hnext
        rcases hnext c hc with hin | hin
        · rcases mem_cons.1 hin with rfl | hin
          · exact .inr (.inr .refl)
          · exact .inl hin
        · exact .inr (.inl hin)
      | cons d m =>
        obtain ⟨rfl, -⟩ := cons.inj hrest
        rcases h.before l b m rfl c hc with hin | hin | hback
        · rcases mem_cons.1 hin with rfl | hin
          · exact .inr (.inr (hreach b (by simp)))
          · exact .inl hin
        · exact .inr (.inl hin)
        · exact .inr (.inr hback)

/-- What one walk does. -/
structure Visits (next : α → List α) (starts : List α) (state state' : List α × List α) (added : List α) : Prop where
  listed : state'.1 = state.1 ++ added
  seen : ∀ b, b ∈ state'.2 ↔ b ∈ state.2 ∨ b ∈ added
  lists : Lists next state.2 added
  reaches : ∀ b ∈ added, ∃ a ∈ starts, Reaches next a b
  starts_seen : ∀ a ∈ starts, a ∈ state'.2

/-- Walks from several places, one after the other. -/
theorem visits_foldlM {walk : α → List α × List α → Option (List α × List α)}
    (hwalk : ∀ a state state', walk a state = some state' → ∃ added, Visits next [a] state state' added)
    {starts : List α} {state state' : List α × List α}
    (h : starts.foldlM (fun state b => walk b state) state = some state') :
    ∃ added, Visits next starts state state' added := by
  induction starts generalizing state with
  | nil =>
    cases h
    exact ⟨[], by simp, by simp, .nil, by simp, by simp⟩
  | cons a starts ih =>
    rw [foldlM_cons] at h
    obtain ⟨state₁, hfirst, hrest⟩ := Option.bind_eq_some_iff.1 h
    obtain ⟨added, hadded⟩ := hwalk a state state₁ hfirst
    obtain ⟨added', hadded'⟩ := ih hrest
    refine ⟨added ++ added', ?_, ?_, hadded.lists.append hadded'.lists hadded.seen, ?_, ?_⟩
    · rw [hadded'.listed, hadded.listed, append_assoc]
    · intro b
      rw [hadded'.seen, hadded.seen, mem_append, or_assoc]
    · intro b hb
      rcases mem_append.1 hb with hb | hb
      · obtain ⟨c, hc, hreach⟩ := hadded.reaches b hb
        exact ⟨a, mem_cons_self, mem_singleton.1 hc ▸ hreach⟩
      · obtain ⟨c, hc, hreach⟩ := hadded'.reaches b hb
        exact ⟨c, mem_cons_of_mem a hc, hreach⟩
    · intro b hb
      rcases mem_cons.1 hb with rfl | hb
      · exact (hadded'.seen b).2 (.inl (hadded.starts_seen b mem_cons_self))
      · exact hadded'.starts_seen b hb

variable [DecidableEq α]

/-- **What a walk lists.** -/
theorem lists_visit {fuel : ℕ} {a : α} {state state' : List α × List α} (h : visit next fuel a state = some state') :
    ∃ added, Visits next [a] state state' added ∧ (a ∉ state.2 → added.getLast? = some a) := by
  induction fuel generalizing a state state' with
  | zero => cases h
  | succ fuel ih =>
    obtain ⟨listed, seen⟩ := state
    rw [visit] at h
    split_ifs at h with hseen
    · cases h
      exact ⟨[], ⟨by simp, by simp, .nil, by simp, by simpa using hseen⟩, fun hnew => absurd hseen hnew⟩
    · obtain ⟨⟨listed₁, seen₁⟩, hfold, rfl⟩ := Option.map_eq_some_iff.1 h
      obtain ⟨added, hadded⟩ := visits_foldlM (fun b state state' hb => (ih hb).imp fun _ => And.left) hfold
      have hreach : ∀ b ∈ added, Reaches next a b := fun b hb => by
        obtain ⟨c, hc, hreach⟩ := hadded.reaches b hb
        exact .head hc hreach
      have hnext : ∀ b ∈ next a, b ∈ a :: seen ∨ b ∈ added := fun b hb =>
        (hadded.seen b).1 (hadded.starts_seen b hb)
      refine ⟨added ++ [a], ⟨?_, ?_, hadded.lists.concat hseen hnext hreach, ?_, ?_⟩, fun _ => by simp⟩
      · have hlisted : listed₁ = listed ++ added := hadded.listed
        simp [hlisted]
      · intro b
        have hseen₁ : b ∈ seen₁ ↔ b ∈ a :: seen ∨ b ∈ added := hadded.seen b
        simp only [hseen₁, mem_cons, mem_append, not_mem_nil, or_false]
        tauto
      · intro b hb
        refine ⟨a, mem_cons_self, ?_⟩
        rcases mem_append.1 hb with hb | hb
        · exact hreach b hb
        · exact mem_singleton.1 hb ▸ .refl
      · intro b hb
        exact (hadded.seen b).2 (.inl (mem_singleton.1 hb ▸ mem_cons_self))

/-- **A walk ends** with more fuel than there is left to see. -/
theorem exists_visit {U : Finset α} (hU : ∀ a ∈ U, ∀ b ∈ next a, b ∈ U) {fuel : ℕ} {a : α} (ha : a ∈ U)
    {state : List α × List α} (hfuel : (U \ state.2.toFinset).card < fuel) :
    ∃ state', visit next fuel a state = some state' := by
  induction fuel generalizing a state with
  | zero => omega
  | succ fuel ih =>
    obtain ⟨listed, seen⟩ := state
    rw [visit]
    split_ifs with hseen
    · exact ⟨_, rfl⟩
    · have hless : (U \ (a :: seen).toFinset).card < (U \ seen.toFinset).card := by
        refine Finset.card_lt_card (Finset.ssubset_iff_of_subset ?_ |>.2 ⟨a, ?_, ?_⟩)
        · intro b hb
          simp only [Finset.mem_sdiff, mem_toFinset, mem_cons, not_or] at hb ⊢
          exact ⟨hb.1, hb.2.2⟩
        · simp [ha, hseen]
        · simp
      have hfold : ∀ starts : List α, (∀ b ∈ starts, b ∈ U) → ∀ state : List α × List α,
          (∀ b ∈ a :: seen, b ∈ state.2) →
            ∃ state', starts.foldlM (fun state b => visit next fuel b state) state = some state' := by
        intro starts
        induction starts with
        | nil => exact fun _ state _ => ⟨state, rfl⟩
        | cons b starts ihs =>
          intro hstarts state hsub
          have hle : (U \ state.2.toFinset).card ≤ (U \ (a :: seen).toFinset).card := by
            refine Finset.card_le_card (Finset.sdiff_subset_sdiff (Finset.Subset.refl U) fun c hc => ?_)
            exact mem_toFinset.2 (hsub c (mem_toFinset.1 hc))
          have hb : (U \ state.2.toFinset).card < fuel := by
            have hbound : (U \ seen.toFinset).card < fuel + 1 := hfuel
            omega
          obtain ⟨state₁, hfirst⟩ := ih (hstarts b mem_cons_self) hb
          obtain ⟨added, hadded, -⟩ := lists_visit hfirst
          obtain ⟨state', hrest⟩ := ihs (fun c hc => hstarts c (mem_cons_of_mem b hc)) state₁
            fun c hc => (hadded.seen c).2 (.inl (hsub c hc))
          exact ⟨state', by rw [foldlM_cons, hfirst]; exact hrest⟩
      obtain ⟨state', hstate⟩ := hfold (next a) (hU a ha) (listed, a :: seen) fun _ hb => hb
      exact ⟨_, Option.map_eq_some_iff.2 ⟨state', hstate, rfl⟩⟩

/-- **The list of a walk from nothing seen**: what is reached, each place once, the start last, and each place after
its successors that do not lead back to it. -/
theorem postOrder {fuel : ℕ} {a : α} {l seen : List α} (h : visit next fuel a ([], []) = some (l, seen)) :
    l.Nodup ∧ l.getLast? = some a ∧ (∀ b, b ∈ l ↔ Reaches next a b) ∧
      ∀ before b after, l = before ++ b :: after → ∀ c ∈ next b, c ∈ before ∨ Reaches next c b := by
  obtain ⟨added, hadded, hlast⟩ := lists_visit h
  obtain rfl : l = added := by simpa using hadded.listed
  have hclosed : ∀ b ∈ l, ∀ c ∈ next b, c ∈ l := fun b hb c hc =>
    (hadded.lists.closed b hb c hc).resolve_left not_mem_nil
  refine ⟨hadded.lists.nodup, hlast not_mem_nil, fun b => ⟨fun hb => ?_, fun hreach => ?_⟩, ?_⟩
  · obtain ⟨c, hc, hreach⟩ := hadded.reaches b hb
    exact mem_singleton.1 hc ▸ hreach
  · induction hreach with
    | refl => exact mem_of_mem_getLast? (hlast not_mem_nil)
    | tail _ hstep ih => exact hclosed _ ih _ hstep
  · intro before b after hsplit c hc
    exact (hadded.lists.before before b after hsplit c hc).resolve_left not_mem_nil

end PostOrder
