import Mathlib.Data.Finset.Card
import Mathlib.Data.List.Chain
import Mathlib.Tactic

/-!
# Breadth-first search

The search along a successor function for a shortest path, with the place from which each place was seen first.

* `Search`, `offer`, `walkBack`, `search`, with fuel;
* `Rooted`, `Queued`, `IsPath`, `search_spec`.
-/

namespace BreadthFirst

open List

variable {α : Type*}

/-- A path along successors. -/
structure IsPath (next : α → List α) (source target : α) (path : List α) : Prop where
  head : path.head? = some source
  last : path.getLast? = some target
  chain : path.IsChain fun a b => b ∈ next a

/-- What is seen, from where it was seen first, and the queue. -/
structure Search (α : Type*) where
  seen : List α
  parent : List (α × α)
  queue : List α

variable [DecidableEq α]

/-- A successor is put in the queue if it was not seen. -/
def offer (a : α) (s : Search α) (b : α) : Search α :=
  if b ∈ s.seen then s else ⟨b :: s.seen, (b, a) :: s.parent, s.queue ++ [b]⟩

/-- The way back to where the search began. -/
def walkBack (parent : List (α × α)) : ℕ → α → Option (List α)
  | 0, _ => none
  | fuel + 1, a =>
    match parent.lookup a with
    | none => some [a]
    | some p => (walkBack parent fuel p).map (a :: ·)

/-- The search; there are no more steps back than places that were seen from others. -/
def search (next : α → List α) (target : α) : ℕ → Search α → Option (Option (List α))
  | 0, _ => none
  | fuel + 1, s =>
    match s.queue with
    | [] => some none
    | a :: queue =>
      if a = target then (walkBack s.parent (s.parent.length + 1) a).map fun path => some path.reverse
      else search next target fuel ((next a).foldl (offer a) { s with queue := queue })

/-- Each place that was seen, apart from the source, was seen from another one, one step nearer to the source. -/
structure Rooted (next : α → List α) (source : α) (depth : α → ℕ) (s : Search α) : Prop where
  seen : source ∈ s.seen
  depth_source : depth source = 0
  root : s.parent.lookup source = none
  parent : ∀ a ∈ s.seen, a ≠ source → ∃ p, s.parent.lookup a = some p ∧ p ∈ s.seen ∧ a ∈ next p ∧ depth a = depth p + 1
  bounded : ∀ a ∈ s.seen, depth a ≤ s.parent.length

/-- The queue is in the order of the steps and at most one step deep, and what is passed is not the target and has
its successors seen. -/
structure Queued (next : α → List α) (target : α) (depth : α → ℕ) (s : Search α) : Prop where
  seen : ∀ a ∈ s.queue, a ∈ s.seen
  sorted : s.queue.Pairwise fun a b => depth a ≤ depth b
  narrow : ∀ a ∈ s.seen, ∀ b ∈ s.queue, depth a ≤ depth b + 1
  ne_target : ∀ a ∈ s.seen, a ∉ s.queue → a ≠ target
  next_seen : ∀ a ∈ s.seen, a ∉ s.queue → ∀ b ∈ next a, b ∈ s.seen ∧ depth b ≤ depth a + 1

/-- The first place of the queue is passed: its successors that were not seen are put in the queue. -/
structure Passes (next : α → List α) (a : α) (queue : List α) (s : Search α) (fresh : List α) (s' : Search α) :
    Prop where
  first : s.queue = a :: queue
  nodup : fresh.Nodup
  mem_fresh : ∀ b, b ∈ fresh ↔ b ∈ next a ∧ b ∉ s.seen
  seen : ∀ b, b ∈ s'.seen ↔ b ∈ s.seen ∨ b ∈ fresh
  queue_eq : s'.queue = queue ++ fresh
  lookup : ∀ b, s'.parent.lookup b = if b ∈ fresh then some a else s.parent.lookup b
  length : s'.parent.length = s.parent.length + fresh.length

/-- The steps after a place is passed. -/
def deepen (depth : α → ℕ) (a : α) (fresh : List α) (b : α) : ℕ := if b ∈ fresh then depth a + 1 else depth b

variable {next : α → List α} {source target a : α} {depth : α → ℕ} {s s' : Search α} {queue fresh : List α}

/-- **All successors are offered.** -/
theorem exists_passes (hqueue : s.queue = a :: queue) :
    ∃ fresh, Passes next a queue s fresh ((next a).foldl (offer a) { s with queue := queue }) := by
  have hall : ∀ (l : List α) (s : Search α), ∃ fresh : List α, fresh.Nodup ∧ (∀ b, b ∈ fresh ↔ b ∈ l ∧ b ∉ s.seen) ∧
      (∀ b, b ∈ (l.foldl (offer a) s).seen ↔ b ∈ s.seen ∨ b ∈ fresh) ∧
      (l.foldl (offer a) s).queue = s.queue ++ fresh ∧
      (∀ b, (l.foldl (offer a) s).parent.lookup b = if b ∈ fresh then some a else s.parent.lookup b) ∧
      (l.foldl (offer a) s).parent.length = s.parent.length + fresh.length := by
    intro l
    induction l with
    | nil => exact fun s => ⟨[], by simp⟩
    | cons b l ih =>
      intro s
      obtain ⟨fresh, hnodup, hmem, hseen, hqueue, hparent, hlength⟩ := ih (offer a s b)
      rw [foldl_cons]
      by_cases hb : b ∈ s.seen
      · have hsame : offer a s b = s := if_pos hb
        rw [hsame] at hmem hseen hqueue hparent hlength ⊢
        refine ⟨fresh, hnodup, fun c => ?_, hseen, hqueue, hparent, hlength⟩
        rw [hmem, mem_cons]
        refine and_congr_left fun hc => (or_iff_right ?_).symm
        rintro rfl
        exact hc hb
      · have hnew : offer a s b = ⟨b :: s.seen, (b, a) :: s.parent, s.queue ++ [b]⟩ := if_neg hb
        rw [hnew] at hmem hseen hqueue hparent hlength ⊢
        have hnot : b ∉ fresh := fun h => ((hmem b).1 h).2 mem_cons_self
        refine ⟨b :: fresh, nodup_cons.2 ⟨hnot, hnodup⟩, fun c => ?_, fun c => ?_, ?_, fun c => ?_, ?_⟩
        · rw [mem_cons, hmem, mem_cons, mem_cons]
          by_cases hc : c = b
          · simp [hc, hb]
          · simp [hc]
        · simp only [hseen, mem_cons]
          tauto
        · rw [hqueue, append_assoc, singleton_append]
        · rw [hparent]
          by_cases hc : c = b
          · simp [hc, hnot]
          · have hne : (c == b) = false := by simpa using hc
            simp [hc, hne, lookup_cons]
        · rw [hlength, length_cons, length_cons]
          omega
  obtain ⟨fresh, hnodup, hmem, hseen, hqueued, hparent, hlength⟩ := hall (next a) { s with queue := queue }
  exact ⟨fresh, hqueue, hnodup, hmem, hseen, hqueued, hparent, hlength⟩

namespace Passes

variable (h : Passes next a queue s fresh s')
include h

theorem deepen_of_seen {b : α} (hb : b ∈ s.seen) : deepen depth a fresh b = depth b :=
  if_neg fun hin => ((h.mem_fresh b).1 hin).2 hb

theorem mem_queue : a ∈ s.queue := h.first ▸ mem_cons_self

theorem rooted (hroot : Rooted next source depth s) (ha : a ∈ s.seen) :
    Rooted next source (deepen depth a fresh) s' where
  seen := (h.seen _).2 (.inl hroot.seen)
  depth_source := by rw [h.deepen_of_seen hroot.seen, hroot.depth_source]
  root := by
    rw [h.lookup, if_neg fun hin => ((h.mem_fresh _).1 hin).2 hroot.seen, hroot.root]
  parent b hb hne := by
    rcases (h.seen b).1 hb with hb | hb
    · obtain ⟨p, hlookup, hp, hstep, hdepth⟩ := hroot.parent b hb hne
      refine ⟨p, ?_, (h.seen p).2 (.inl hp), hstep, ?_⟩
      · rw [h.lookup, if_neg fun hin => ((h.mem_fresh b).1 hin).2 hb, hlookup]
      · rw [h.deepen_of_seen hb, h.deepen_of_seen hp, hdepth]
    · refine ⟨a, ?_, (h.seen a).2 (.inl ha), ((h.mem_fresh b).1 hb).1, ?_⟩
      · rw [h.lookup, if_pos hb]
      · rw [h.deepen_of_seen ha]
        exact if_pos hb
  bounded b hb := by
    rw [h.length]
    rcases (h.seen b).1 hb with hb | hb
    · have hbound := hroot.bounded b hb
      rw [h.deepen_of_seen hb]
      omega
    · have hbound := hroot.bounded a ha
      have hpos := length_pos_of_mem hb
      have hdeep : deepen depth a fresh b = depth a + 1 := if_pos hb
      omega

theorem queued (hq : Queued next target depth s) (ha : a ≠ target) : Queued next target (deepen depth a fresh) s' := by
  have has : a ∈ s.seen := hq.seen a h.mem_queue
  have hsorted := hq.sorted
  rw [h.first, pairwise_cons] at hsorted
  have hmem : ∀ b ∈ queue, b ∈ s.queue := fun b hb => h.first ▸ mem_cons_of_mem a hb
  -- What is left in the queue is as near as `a` or one step behind it; what is new is one step behind it.
  have hleft : ∀ b ∈ queue, b ∈ s.seen ∧ deepen depth a fresh b = depth b ∧ depth a ≤ depth b ∧
      depth b ≤ depth a + 1 := fun b hb =>
    have hbs := hq.seen b (hmem b hb)
    ⟨hbs, h.deepen_of_seen hbs, hsorted.1 b hb, hq.narrow b hbs a h.mem_queue⟩
  have hnew : ∀ b ∈ fresh, deepen depth a fresh b = depth a + 1 := fun b hb => if_pos hb
  have hqueue : ∀ b, b ∈ s'.queue ↔ b ∈ queue ∨ b ∈ fresh := by simp [h.queue_eq]
  have hold : ∀ b ∈ s'.seen, b ∉ s'.queue → b ∈ s.seen ∧ (b = a ∨ b ∉ s.queue) := by
    intro b hb hout
    rw [hqueue, not_or] at hout
    refine ⟨((h.seen b).1 hb).resolve_right hout.2, ?_⟩
    rw [h.first, mem_cons]
    tauto
  refine ⟨fun b hb => ?_, ?_, fun b hb c hc => ?_, fun b hb hout => ?_, fun b hb hout c hc => ?_⟩
  · exact (h.seen b).2 (((hqueue b).1 hb).imp_left fun hb => (hleft b hb).1)
  · rw [h.queue_eq, pairwise_append]
    refine ⟨hsorted.2.imp_of_mem fun {b c} hb hc hle => ?_, ?_, fun b hb c hc => ?_⟩
    · rw [(hleft b hb).2.1, (hleft c hc).2.1]
      exact hle
    · exact pairwise_of_forall_mem_list fun b hb c hc => by rw [hnew b hb, hnew c hc]
    · rw [(hleft b hb).2.1, hnew c hc]
      exact (hleft b hb).2.2.2
  · have hnear : deepen depth a fresh b ≤ depth a + 1 := by
      rcases (h.seen b).1 hb with hb | hb
      · rw [h.deepen_of_seen hb]
        exact hq.narrow b hb a h.mem_queue
      · rw [hnew b hb]
    have hfar : depth a ≤ deepen depth a fresh c := by
      rcases (hqueue c).1 hc with hc | hc
      · rw [(hleft c hc).2.1]
        exact (hleft c hc).2.2.1
      · rw [hnew c hc]
        omega
    omega
  · obtain ⟨hbs, rfl | hnq⟩ := hold b hb hout
    · exact ha
    · exact hq.ne_target b hbs hnq
  · obtain ⟨hbs, hba⟩ := hold b hb hout
    rw [h.deepen_of_seen hbs]
    have hstep : c ∈ s.seen → c ∈ s'.seen ∧ (depth c ≤ depth b + 1 → deepen depth a fresh c ≤ depth b + 1) :=
      fun hcs => ⟨(h.seen c).2 (.inl hcs), fun hle => by rwa [h.deepen_of_seen hcs]⟩
    rcases hba with rfl | hnq
    · by_cases hcs : c ∈ s.seen
      · exact ⟨(hstep hcs).1, (hstep hcs).2 (hq.narrow c hcs b h.mem_queue)⟩
      · have hcf := (h.mem_fresh c).2 ⟨hc, hcs⟩
        exact ⟨(h.seen c).2 (.inr hcf), (hnew c hcf).le⟩
    · obtain ⟨hcs, hle⟩ := hq.next_seen b hbs hnq c hc
      exact ⟨(hstep hcs).1, (hstep hcs).2 hle⟩

end Passes

/-! ### What is found -/

variable {fuel : ℕ}

/-- **The way back** from a place that was seen. -/
theorem Rooted.walkBack (h : Rooted next source depth s) {a : α} (ha : a ∈ s.seen)
    (hfuel : depth a < fuel) : ∃ path, BreadthFirst.walkBack s.parent fuel a = some path ∧ path.head? = some a ∧
      path.getLast? = some source ∧ path.IsChain (fun a b => a ∈ next b) ∧ path.length = depth a + 1 ∧
      path.Pairwise fun a b => depth b < depth a := by
  induction fuel generalizing a with
  | zero => omega
  | succ fuel ih =>
    rw [BreadthFirst.walkBack]
    by_cases hsource : a = source
    · subst hsource
      rw [h.root]
      exact ⟨[a], rfl, rfl, rfl, isChain_singleton a, by simp [h.depth_source], pairwise_singleton _ a⟩
    · obtain ⟨p, hlookup, hp, hstep, hdepth⟩ := h.parent a ha hsource
      obtain ⟨path, hpath, hhead, hlast, hchain, hlength, hpairwise⟩ := ih hp (by omega)
      rw [hlookup]
      obtain ⟨rest, rfl⟩ : ∃ rest, path = p :: rest := by
        cases path with
        | nil => cases hhead
        | cons b rest =>
          cases hhead
          exact ⟨rest, rfl⟩
      refine ⟨a :: p :: rest, by simp [hpath], rfl, by simpa using hlast, hchain.cons_cons hstep, ?_, ?_⟩
      · simp only [length_cons] at hlength ⊢
        omega
      · refine pairwise_cons.2 ⟨fun b hb => ?_, hpairwise⟩
        rcases mem_cons.1 hb with rfl | hb
        · omega
        · have := (pairwise_cons.1 hpairwise).1 b hb
          omega

/-- **No path is shorter**: it leads to where the search has been in as few steps, or passes the queue before its
end. -/
theorem depth_le_or (hroot : Rooted next source depth s) (hq : Queued next target depth s) {path : List α} {b : α}
    (h : IsPath next source b path) :
    (b ∈ s.seen ∧ depth b + 1 ≤ path.length) ∨ ∃ q ∈ s.queue, depth q + 1 < path.length := by
  obtain ⟨hhead, hlast, hchain⟩ := h
  induction path using reverseRecOn generalizing b with
  | nil => cases hhead
  | append_singleton path c ih =>
    obtain rfl : c = b := by simpa using hlast
    rw [length_append, length_singleton]
    cases hprev : path.getLast? with
    | none =>
      obtain rfl := getLast?_eq_none_iff.1 hprev
      obtain rfl : c = source := by simpa using hhead
      exact .inl ⟨hroot.seen, by simp [hroot.depth_source]⟩
    | some d =>
      have hne : path ≠ [] := by
        rintro rfl
        cases hprev
      rw [isChain_append] at hchain
      have hstep : c ∈ next d := hchain.2.2 d hprev c rfl
      rw [head?_append_of_ne_nil _ hne] at hhead
      rcases ih hhead hprev hchain.1 with ⟨hd, hle⟩ | ⟨q, hqueue, hless⟩
      · by_cases hqueue : d ∈ s.queue
        · exact .inr ⟨d, hqueue, by omega⟩
        · obtain ⟨hc, hdepth⟩ := hq.next_seen d hd hqueue c hstep
          exact .inl ⟨hc, by omega⟩
      · exact .inr ⟨q, hqueue, by omega⟩

/-- **The search ends**, with a shortest path if there is one. -/
theorem search_spec {U : Finset α} (hU : ∀ a, ∀ b ∈ next a, b ∈ U)
    (hroot : Rooted next source depth s) (hq : Queued next target depth s)
    (hfuel : s.queue.length + (U \ s.seen.toFinset).card < fuel) :
    ∃ found, search next target fuel s = some found ∧
      (∀ path, found = some path → IsPath next source target path ∧ path.Nodup ∧
        ∀ other, IsPath next source target other → path.length ≤ other.length) ∧
      (found = none → ∀ other, ¬IsPath next source target other) := by
  induction fuel generalizing s depth with
  | zero => omega
  | succ fuel ih =>
    rw [search]
    cases hqueue : s.queue with
    | nil =>
      refine ⟨none, rfl, fun path h => (by cases h), fun _ other hother => ?_⟩
      rcases depth_le_or hroot hq hother with ⟨hseen, -⟩ | ⟨q, hin, -⟩
      · exact hq.ne_target target hseen (by simp [hqueue]) rfl
      · simp [hqueue] at hin
    | cons a queue =>
      have ha : a ∈ s.seen := hq.seen a (by simp [hqueue])
      simp only
      split_ifs with htarget
      · subst htarget
        obtain ⟨path, hpath, hhead, hlast, hchain, hlength, hpairwise⟩ :=
          hroot.walkBack ha (Nat.lt_succ_of_le (hroot.bounded a ha))
        refine ⟨some path.reverse, by rw [hpath]; rfl, ?_, fun h => by cases h⟩
        rintro _ ⟨⟩
        refine ⟨⟨by simpa using hlast, by simpa using hhead, ?_⟩, ?_, fun other hother => ?_⟩
        · exact isChain_reverse.2 hchain
        · rw [nodup_reverse]
          exact hpairwise.imp fun hless heq => by simp [heq] at hless
        · rw [length_reverse, hlength]
          rcases depth_le_or hroot hq hother with ⟨-, hle⟩ | ⟨q, hin, hless⟩
          · exact hle
          · have hsorted := hq.sorted
            rw [hqueue, pairwise_cons] at hsorted
            rw [hqueue] at hin
            rcases mem_cons.1 hin with rfl | hin
            · omega
            · have := hsorted.1 q hin
              omega
      · obtain ⟨fresh, hpasses⟩ := @exists_passes _ _ next a s queue hqueue
        refine ih (hpasses.rooted hroot ha) (hpasses.queued hq htarget) ?_
        generalize (next a).foldl (offer a) { s with queue := queue } = s' at hpasses
        -- What is put in the queue is no longer to be seen.
        have hcard : (U \ s'.seen.toFinset).card + fresh.length = (U \ s.seen.toFinset).card := by
          rw [← toFinset_card_of_nodup hpasses.nodup, ← Finset.card_union_of_disjoint]
          · congr 1
            ext b
            simp only [Finset.mem_union, Finset.mem_sdiff, mem_toFinset, hpasses.seen]
            have := hpasses.mem_fresh b
            have := hU a b
            tauto
          · rw [Finset.disjoint_left]
            intro b hb hin
            simp only [Finset.mem_sdiff, mem_toFinset, hpasses.seen] at hb hin
            tauto
        rw [hpasses.queue_eq, length_append]
        rw [hqueue, length_cons] at hfuel
        omega

end BreadthFirst
