import Mathlib.Algebra.BigOperators.Group.Finset.Basic
import Mathlib.Data.List.Infix
import Mathlib.Tactic

/-!
# Depth-first walks with a bound on the depth

A walk along successors with a stack, where a place is passed once: the first time it comes off the stack above the
bound, whatever the depth.  A place keeps the way on which it was reached, so that its depth is the length of the way.

* `Way`, `Shortest`, `Before`;
* `walk`, with fuel; `Explores`: what its result is, `explores_of_walk`, `exists_walk`;
* `Exact`, `InOrder`, `exact_iff_inOrder`;
* `sums_le`: depths that are told by two sums.
-/

namespace DepthWalk

open List Prod

variable {α : Type*}

/-! ### Ways -/

/-- A way to a place from the start, the last place before it first. -/
inductive Way (next : α → List α) (start : α) : α → List α → Prop
  | start : Way next start start []
  | step {x : α} {up : List α} {y : α} (h : Way next start x up) (hy : y ∈ next x) : Way next start y (x :: up)

/-- A way of the least length. -/
structure Shortest (next : α → List α) (start z : α) (up : List α) : Prop where
  way : Way next start z up
  le : ∀ up', Way next start z up' → up.length ≤ up'.length

variable {next : α → List α} {start x y z : α} {up up' : List α}

theorem Way.of_suffix (h : Way next start z up) (hsuffix : x :: up' <:+ z :: up) : Way next start x up' := by
  induction h with
  | start =>
    obtain ⟨rfl, rfl⟩ := cons.inj (hsuffix.eq_of_length_le (by simp))
    exact .start
  | step h hy ih =>
    rcases suffix_cons_iff.1 hsuffix with heq | hsuffix
    · obtain ⟨rfl, rfl⟩ := cons.inj heq
      exact .step h hy
    · exact ih hsuffix

theorem Way.mem_next (h : Way next start z (x :: up)) : z ∈ next x := by
  cases h with
  | step _ hy => exact hy

/-- All ways begin at the start. -/
theorem Way.start_suffix (h : Way next start z up) : [start] <:+ z :: up := by
  induction h with
  | start => exact suffix_rfl
  | step _ _ ih => exact ih.trans (suffix_cons _ _)

/-- A way can be taken on. -/
theorem Way.exists_append (h : Way next start z (x :: up)) (hx : Way next start x up') :
    Way next start z (x :: up') := .step hx h.mem_next

theorem exists_shortest (h : Way next start z up) : ∃ up', Shortest next start z up' := by
  classical
  have hex : ∃ n up, Way next start z up ∧ up.length = n := ⟨_, up, h, rfl⟩
  obtain ⟨up', hway, hlength⟩ := Nat.find_spec hex
  refine ⟨up', hway, fun other hother => ?_⟩
  have hle := Nat.find_min' hex ⟨other, hother, rfl⟩
  omega

/-- The start of a shortest way is a shortest way. -/
theorem Shortest.tail (h : Shortest next start z (x :: up)) : Shortest next start x up := by
  have hway := h.way.of_suffix (suffix_cons z (x :: up))
  refine ⟨hway, fun other hother => ?_⟩
  have hle := h.le _ (h.way.exists_append hother)
  simpa using hle

theorem Shortest.of_suffix (h : Shortest next start z up) (hsuffix : x :: up' <:+ z :: up) :
    Shortest next start x up' := by
  induction up generalizing z with
  | nil =>
    obtain ⟨rfl, rfl⟩ := cons.inj (hsuffix.eq_of_length_le (by simp))
    exact h
  | cons y up ih =>
    rcases suffix_cons_iff.1 hsuffix with heq | hsuffix
    · obtain ⟨rfl, rfl⟩ := cons.inj heq
      exact h
    · exact ih h.tail hsuffix

/-- A shortest way does not repeat itself. -/
theorem Shortest.nodup (h : Shortest next start z up) : (z :: up).Nodup := by
  induction up generalizing z with
  | nil => exact nodup_singleton z
  | cons y up ih =>
    refine nodup_cons.2 ⟨fun hmem => ?_, ih h.tail⟩
    obtain ⟨front, back, hsplit⟩ := append_of_mem hmem
    have hback : z :: back <:+ z :: y :: up := by
      rw [hsplit]
      exact (suffix_append front _).trans (suffix_cons z _)
    have hle := h.le back (h.way.of_suffix hback)
    have hlength := congrArg List.length hsplit
    simp only [length_append, length_cons] at hlength hle
    omega

/-- **Two ways part**, unless one goes on where the other ends. -/
theorem exists_parting (h : Way next start z up) (h' : Way next start y up') (hnot : ¬z :: up <:+ y :: up')
    (hnot' : ¬y :: up' <:+ z :: up) :
    ∃ x base a b front back, z :: up = front ++ a :: x :: base ∧ y :: up' = back ++ b :: x :: base ∧ a ≠ b := by
  induction h with
  | start => exact absurd h'.start_suffix hnot
  | @step w rest z h hz ih =>
    by_cases hsuffix : w :: rest <:+ y :: up'
    · obtain ⟨back, hback⟩ := hsuffix
      rcases eq_nil_or_concat back with rfl | ⟨back, b, rfl⟩
      · rw [nil_append] at hback
        exact absurd (hback ▸ suffix_cons z _) hnot'
      · rw [concat_eq_append, append_assoc, singleton_append] at hback
        refine ⟨w, rest, z, b, [], back, rfl, hback.symm, ?_⟩
        rintro rfl
        exact hnot ⟨back, hback⟩
    · obtain ⟨x, base, a, b, front, back, hfront, hback, hab⟩ :=
        ih hsuffix fun hs => hnot' (hs.trans (suffix_cons z _))
      exact ⟨x, base, a, b, z :: front, back, by rw [hfront]; rfl, hback, hab⟩

variable [DecidableEq α]

/-- Two ways part at a place, and the one goes on to a successor that comes before that of the other. -/
def Before (next : α → List α) (p q : List α) : Prop :=
  ∃ x base a b front back, p = front ++ a :: x :: base ∧ q = back ++ b :: x :: base ∧
    (next x).idxOf a < (next x).idxOf b

/-! ### The walk -/

/-- The places that were passed. -/
def places (done : List (α × List α)) : List α := done.map Prod.fst

omit [DecidableEq α] in
theorem mem_places {done : List (α × List α)} : z ∈ places done ↔ ∃ up, (z, up) ∈ done := by
  simp [places]

omit [DecidableEq α] in
@[simp] theorem mem_places_append {done : List (α × List α)} :
    y ∈ places (done ++ [(z, up)]) ↔ y ∈ places done ∨ y = z := by
  simp [places]

/-- The successors of a place that were not passed, with their way. -/
def children (next : α → List α) (passed : List α) (z : α) (up : List α) : List (α × List α) :=
  ((next z).filter fun y => decide (y ∉ passed)).map fun y => (y, z :: up)

/-- The walk, with what is passed and the stack. -/
def walk (next : α → List α) (max : ℕ) : ℕ → List (α × List α) → List (α × List α) → Option (List (α × List α))
  | 0, _, _ => none
  | _ + 1, done, [] => some done
  | fuel + 1, done, (z, up) :: stack =>
    if max ≤ up.length ∨ z ∈ places done then walk next max fuel done stack
    else walk next max fuel (done ++ [(z, up)]) (children next (places (done ++ [(z, up)])) z up ++ stack)

/-- A place is passed after these: below the bound and for the first time, after the successors that come before it,
and after all successors of those that it does not come from. -/
structure Taken (next : α → List α) (start : α) (max : ℕ) (done : List (α × List α)) (z : α) (up : List α) : Prop where
  short : up.length < max
  fresh : z ∉ places done
  parent : (up = [] ∧ z = start) ∨ ∃ x base, up = x :: base ∧ (x, base) ∈ done ∧ z ∈ next x ∧
    ∀ y ∈ next x, (next x).idxOf y < (next x).idxOf z → y ∈ places done
  finished : ∀ x base, (x, base) ∈ done → ¬x :: base <:+ up → base.length + 1 < max → ∀ y ∈ next x, y ∈ places done

/-- Each place was taken after those before it. -/
def AllTaken (next : α → List α) (start : α) (max : ℕ) (done : List (α × List α)) : Prop :=
  ∀ front z up back, done = front ++ (z, up) :: back → Taken next start max front z up

/-- **The result of a walk.** -/
structure Explores (next : α → List α) (start : α) (max : ℕ) (done : List (α × List α)) : Prop where
  taken : AllTaken next start max done
  closed : ∀ x base, (x, base) ∈ done → base.length + 1 < max → ∀ y ∈ next x, y ∈ places done
  start : 0 < max → start ∈ places done

/-- What holds of the stack: its ways lie in each other, it has all that is still to be passed, and for a successor
those that come before it stand above it. -/
structure Pending (next : α → List α) (start : α) (max : ℕ) (done stack : List (α × List α)) : Prop where
  taken : AllTaken next start max done
  entry : ∀ z up, (z, up) ∈ stack → (up = [] ∧ z = start ∧ stack = [(start, [])]) ∨
    ∃ x base, up = x :: base ∧ (x, base) ∈ done ∧ z ∈ next x
  nested : stack.Pairwise fun e f => f.2 <:+ e.2
  undone : ∀ x base, (x, base) ∈ done → base.length + 1 < max → ∀ y ∈ next x, y ∉ places done → (y, x :: base) ∈ stack
  above : ∀ front y x base back, stack = front ++ (y, x :: base) :: back → base.length + 1 < max →
    ∀ y' ∈ next x, (next x).idxOf y' < (next x).idxOf y → y' ∈ places done ∨ (y', x :: base) ∈ front
  start : 0 < max → start ∈ places done ∨ (start, []) ∈ stack

variable {max fuel : ℕ} {done stack : List (α × List α)}

theorem pending_start : Pending next start max [] [(start, [])] where
  taken front z up back h := by simp at h
  entry z up h := by
    obtain ⟨rfl, rfl⟩ := mk.inj (mem_singleton.1 h)
    exact .inl ⟨rfl, rfl, rfl⟩
  nested := pairwise_singleton _ _
  undone x base h := absurd h not_mem_nil
  above front y x base back h := by
    have hmem : (y, x :: base) ∈ [(start, ([] : List α))] := h ▸ by simp
    simp at hmem
  start _ := .inr (mem_singleton_self _)

/-- An entry that is too deep, or whose place was passed, is dropped. -/
theorem Pending.skip (h : Pending next start max done ((z, up) :: stack)) (hskip : max ≤ up.length ∨ z ∈ places done) :
    Pending next start max done stack where
  taken := h.taken
  entry y upy hmem := by
    rcases h.entry y upy (mem_cons_of_mem _ hmem) with ⟨-, -, heq⟩ | hparent
    · rw [(cons.inj heq).2] at hmem
      exact absurd hmem not_mem_nil
    · exact .inr hparent
  nested := (pairwise_cons.1 h.nested).2
  undone x base hx hdepth y hy hnot := by
    rcases mem_cons.1 (h.undone x base hx hdepth y hy hnot) with heq | hmem
    · cases heq
      rcases hskip with hdeep | hpassed
      · simp only [length_cons] at hdeep
        omega
      · exact absurd hpassed hnot
    · exact hmem
  above front y x base back heq hdepth y' hy' hlt := by
    rcases h.above ((z, up) :: front) y x base back (by rw [heq]; rfl) hdepth y' hy' hlt with hdone | hmem
    · exact .inl hdone
    · rcases mem_cons.1 hmem with hfirst | hmem
      · cases hfirst
        rcases hskip with hdeep | hpassed
        · simp only [length_cons] at hdeep
          omega
        · exact .inl hpassed
      · exact .inr hmem
  start hpos := by
    rcases h.start hpos with hdone | hmem
    · exact .inl hdone
    · rcases mem_cons.1 hmem with heq | hmem
      · cases heq
        rcases hskip with hdeep | hpassed
        · simp only [length_nil] at hdeep
          omega
        · exact .inl hpassed
      · exact .inr hmem

/-- An entry that comes off the stack below the bound for the first time is taken. -/
theorem Pending.taken_top (h : Pending next start max done ((z, up) :: stack)) (hshort : up.length < max)
    (hfresh : z ∉ places done) : Taken next start max done z up where
  short := hshort
  fresh := hfresh
  parent := by
    rcases h.entry z up mem_cons_self with ⟨hup, hz, -⟩ | ⟨x, base, hup, hx, hz⟩
    · exact .inl ⟨hup, hz⟩
    · subst hup
      refine .inr ⟨x, base, rfl, hx, hz, fun y hy hlt => ?_⟩
      rcases h.above [] z x base stack rfl hshort y hy hlt with hdone | hmem
      · exact hdone
      · exact absurd hmem not_mem_nil
  finished x base hx hnot hdepth y hy := by
    by_contra hundone
    rcases mem_cons.1 (h.undone x base hx hdepth y hy hundone) with heq | hmem
    · cases heq
      exact hnot suffix_rfl
    · exact hnot ((pairwise_cons.1 h.nested).1 _ hmem)

theorem mem_children {passed : List α} {y : α} {upy : List α} :
    (y, upy) ∈ children next passed z up ↔ y ∈ next z ∧ y ∉ passed ∧ upy = z :: up := by
  unfold children
  rw [mem_map]
  constructor
  · rintro ⟨a, ha, heq⟩
    cases heq
    obtain ⟨hnext, hnot⟩ := mem_filter.1 ha
    exact ⟨hnext, of_decide_eq_true hnot, rfl⟩
  · rintro ⟨hnext, hnot, rfl⟩
    exact ⟨y, mem_filter.2 ⟨hnext, decide_eq_true hnot⟩, rfl⟩

/-- What comes before an element of a filtered list, and passes the filter, stands before it there. -/
theorem mem_of_idxOf_lt {p : α → Bool} {l front back : List α} {a b : α} (h : l.filter p = front ++ a :: back)
    (hlt : l.idxOf b < l.idxOf a) (hb : p b = true) : b ∈ front := by
  obtain ⟨l₁, l₂, rfl, hfront, hrest⟩ := filter_eq_append_iff.1 h
  obtain ⟨l₃, l₄, rfl, hnot, -, -⟩ := filter_eq_cons_iff.1 hrest
  have hle : (l₁ ++ (l₃ ++ a :: l₄)).idxOf a ≤ (l₁ ++ l₃).length := by
    rw [← append_assoc]
    by_cases ha : a ∈ l₁ ++ l₃
    · rw [idxOf_append_of_mem ha]
      exact idxOf_le_length
    · rw [idxOf_append_of_notMem ha, idxOf_cons_self]
      omega
  have hmem : b ∈ l₁ ++ l₃ := by
    by_contra hnot_mem
    rw [← append_assoc, idxOf_append_of_notMem hnot_mem] at hlt
    rw [← append_assoc] at hle
    omega
  rcases mem_append.1 hmem with hmem | hmem
  · rw [← hfront]
    exact mem_filter.2 ⟨hmem, hb⟩
  · exact absurd hb (hnot b hmem)

/-- **An entry that is taken** gives way to the successors of its place. -/
theorem Pending.take (h : Pending next start max done ((z, up) :: stack)) (hshort : up.length < max)
    (hfresh : z ∉ places done) : Pending next start max (done ++ [(z, up)])
      (children next (places (done ++ [(z, up)])) z up ++ stack) where
  taken front y upy back heq := by
    rcases append_eq_append_iff.1 heq with ⟨rest, rfl, hrest⟩ | ⟨rest, rfl, hrest⟩
    · rcases rest with _ | ⟨e, rest⟩
      · obtain ⟨⟨rfl, rfl⟩, -⟩ := by simpa using hrest
        simpa using h.taken_top hshort hfresh
      · simp at hrest
    · rcases rest with _ | ⟨e, rest⟩
      · obtain ⟨⟨rfl, rfl⟩, -⟩ := by simpa using hrest
        simpa using h.taken_top hshort hfresh
      · obtain ⟨rfl, -⟩ := by simpa using hrest
        exact h.taken front y upy rest rfl
  entry y upy hmem := by
    rcases mem_append.1 hmem with hmem | hmem
    · obtain ⟨hy, -, rfl⟩ := mem_children.1 hmem
      exact .inr ⟨z, up, rfl, by simp, hy⟩
    · rcases h.entry y upy (mem_cons_of_mem _ hmem) with ⟨-, -, heq⟩ | ⟨x, base, hup, hx, hy⟩
      · rw [(cons.inj heq).2] at hmem
        exact absurd hmem not_mem_nil
      · exact .inr ⟨x, base, hup, mem_append_left _ hx, hy⟩
  nested := by
    refine pairwise_append.2 ⟨?_, (pairwise_cons.1 h.nested).2, ?_⟩
    · refine pairwise_iff_forall_sublist.2 fun {e f} hef => ?_
      obtain ⟨-, -, he⟩ := mem_children.1 (hef.subset mem_cons_self)
      obtain ⟨-, -, hf⟩ := mem_children.1 (hef.subset (mem_cons_of_mem _ mem_cons_self))
      rw [he, hf]
    · rintro ⟨y, upy⟩ hy f hf
      obtain ⟨-, -, rfl⟩ := mem_children.1 hy
      exact ((pairwise_cons.1 h.nested).1 f hf).trans (suffix_cons z up)
  undone x base hx hdepth y hy hnot := by
    rcases mem_append.1 hx with hx | hx
    · have hnot' : y ∉ places done := fun hin => hnot (mem_places_append.2 (.inl hin))
      rcases mem_cons.1 (h.undone x base hx hdepth y hy hnot') with heq | hmem
      · obtain ⟨rfl, -⟩ := mk.inj heq
        exact absurd (mem_places_append.2 (.inr rfl)) hnot
      · exact mem_append_right _ hmem
    · obtain ⟨rfl, rfl⟩ := mk.inj (mem_singleton.1 hx)
      exact mem_append_left _ (mem_children.2 ⟨hy, hnot, rfl⟩)
  above front y x base back heq hdepth y' hy' hlt := by
    rcases append_eq_append_iff.1 heq with ⟨rest, rfl, hrest⟩ | ⟨rest, hchildren, hrest⟩
    · rcases h.above ((z, up) :: rest) y x base back (by rw [hrest]; rfl) hdepth y' hy' hlt with hdone | hmem
      · exact .inl (mem_places_append.2 (.inl hdone))
      · rcases mem_cons.1 hmem with hfirst | hmem
        · obtain ⟨rfl, -⟩ := mk.inj hfirst
          exact .inl (mem_places_append.2 (.inr rfl))
        · exact .inr (mem_append_right _ hmem)
    · rcases rest with _ | ⟨e, rest⟩
      · rcases h.above [(z, up)] y x base back (by rw [← nil_append ((y, x :: base) :: back), hrest]; rfl) hdepth
          y' hy' hlt with hdone | hmem
        · exact .inl (mem_places_append.2 (.inl hdone))
        · obtain ⟨rfl, -⟩ := mk.inj (mem_singleton.1 hmem)
          exact .inl (mem_places_append.2 (.inr rfl))
      · obtain ⟨rfl, -⟩ := cons.inj hrest
        by_cases hdone : y' ∈ places (done ++ [(z, up)])
        · exact .inl hdone
        · right
          obtain ⟨front', back', hfilter, rfl, hback⟩ := map_eq_append_iff.1 hchildren
          obtain ⟨a, back'', rfl, ha, -⟩ := map_eq_cons_iff.1 hback
          obtain ⟨rfl, hbase⟩ := mk.inj ha
          obtain ⟨rfl, rfl⟩ := cons.inj hbase
          have hmem := mem_of_idxOf_lt hfilter hlt (by simpa using hdone)
          exact mem_map.2 ⟨y', hmem, rfl⟩
  start hpos := by
    rcases h.start hpos with hdone | hmem
    · exact .inl (mem_places_append.2 (.inl hdone))
    · rcases mem_cons.1 hmem with heq | hmem
      · obtain ⟨rfl, -⟩ := mk.inj heq
        exact .inl (mem_places_append.2 (.inr rfl))
      · exact .inr (mem_append_right _ hmem)

/-- **What a walk that ends has passed.** -/
theorem explores_of_walk {result : List (α × List α)} (h : walk next max fuel done stack = some result)
    (hpending : Pending next start max done stack) : Explores next start max result := by
  induction fuel generalizing done stack with
  | zero => cases h
  | succ fuel ih =>
    cases stack with
    | nil =>
      cases h
      refine ⟨hpending.taken, fun x base hx hdepth y hy => ?_, fun hpos => ?_⟩
      · by_contra hnot
        exact absurd (hpending.undone x base hx hdepth y hy hnot) not_mem_nil
      · exact (hpending.start hpos).resolve_right not_mem_nil
    | cons e stack =>
      obtain ⟨z, up⟩ := e
      rw [walk] at h
      split_ifs at h with hskip
      · exact ih h (hpending.skip hskip)
      · rw [not_or, not_le] at hskip
        exact ih h (hpending.take hskip.1 hskip.2)

/-- A walk ends: each step takes an entry off the stack, and a place puts its successors there once. -/
theorem exists_walk {U : Finset α} (hU : ∀ a ∈ U, ∀ b ∈ next a, b ∈ U) (hstack : ∀ e ∈ stack, e.1 ∈ U)
    (hfuel : stack.length + ∑ a ∈ U \ (places done).toFinset, (next a).length < fuel) :
    ∃ result, walk next max fuel done stack = some result := by
  induction fuel generalizing done stack with
  | zero => omega
  | succ fuel ih =>
    cases stack with
    | nil => exact ⟨done, rfl⟩
    | cons e stack =>
      obtain ⟨z, up⟩ := e
      have htail : ∀ e ∈ stack, e.1 ∈ U := fun e he => hstack e (mem_cons_of_mem _ he)
      rw [walk]
      simp only [length_cons] at hfuel
      split_ifs with hskip
      · exact ih htail (by omega)
      · rw [not_or] at hskip
        have hz : z ∈ U := hstack (z, up) mem_cons_self
        have hsum : ∑ a ∈ U \ (places done).toFinset, (next a).length =
            (next z).length + ∑ a ∈ U \ (places (done ++ [(z, up)])).toFinset, (next a).length := by
          have hinsert : U \ (places done).toFinset = insert z (U \ (places (done ++ [(z, up)])).toFinset) := by
            ext a
            simp only [Finset.mem_sdiff, mem_toFinset, Finset.mem_insert, mem_places_append]
            by_cases ha : a = z
            · simp [ha, hz, hskip.2]
            · simp [ha]
          rw [hinsert, Finset.sum_insert (by simp)]
        have hchildren : (children next (places (done ++ [(z, up)])) z up).length ≤ (next z).length := by
          unfold children
          rw [length_map]
          exact length_filter_le _ _
        refine ih (fun e he => ?_) (by rw [length_append]; omega)
        rcases mem_append.1 he with he | he
        · obtain ⟨hnext, -, -⟩ := mem_children.1 he
          exact hU z hz _ hnext
        · exact htail e he

/-! ### Walks that pass each place at its distance -/

/-- Each place that has successors is passed at its distance, if that is below the bound. -/
def Exact (next : α → List α) (start : α) (max : ℕ) (done : List (α × List α)) : Prop :=
  ∀ z up, next z ≠ [] → Shortest next start z up → up.length < max → ∃ up', (z, up') ∈ done ∧ up'.length = up.length

/-- **Ways that are too long come late**: before each way that does not repeat itself, and is not a shortest one but
below the bound, the walk follows a shortest one to the same place. -/
def InOrder (next : α → List α) (start : α) (max : ℕ) : Prop :=
  ∀ z up, next z ≠ [] → Way next start z up → (z :: up).Nodup → up.length < max → ¬Shortest next start z up →
    ∃ up', Shortest next start z up' ∧ Before next (z :: up') (z :: up)

variable {base : List α}

namespace AllTaken

variable {front back : List (α × List α)}

theorem of_append (h : AllTaken next start max (front ++ back)) : AllTaken next start max front := by
  intro front' z up back' heq
  exact h front' z up (back' ++ back) (by rw [heq]; simp)

section

variable (h : AllTaken next start max done)
include h

theorem exists_taken (hmem : (z, up) ∈ done) :
    ∃ front back, done = front ++ (z, up) :: back ∧ Taken next start max front z up := by
  obtain ⟨front, back, heq⟩ := append_of_mem hmem
  exact ⟨front, back, heq, h front z up back heq⟩

theorem nodup_places : (places done).Nodup := by
  induction done using reverseRecOn with
  | nil => exact nodup_nil
  | append_singleton done e ih =>
    have hfresh := (h done e.1 e.2 [] rfl).fresh
    simp only [places, map_append, map_cons, map_nil]
    exact List.Nodup.append (ih h.of_append) (nodup_singleton _) (disjoint_singleton.2 hfresh)

/-- A place is passed on one way. -/
theorem eq_of_mem (hmem : (z, up) ∈ done) (hmem' : (z, up') ∈ done) : up = up' := by
  have heq := inj_on_of_nodup_map h.nodup_places hmem hmem' rfl
  exact (mk.inj heq).2

/-- The places of a way were taken on it. -/
theorem mem_of_suffix (hmem : (z, up) ∈ done)
    (hsuffix : x :: base <:+ z :: up) : (x, base) ∈ done := by
  induction up generalizing z with
  | nil =>
    obtain ⟨rfl, rfl⟩ := cons.inj (hsuffix.eq_of_length_le (by simp))
    exact hmem
  | cons y up ih =>
    rcases suffix_cons_iff.1 hsuffix with heq | hsuffix
    · obtain ⟨rfl, rfl⟩ := cons.inj heq
      exact hmem
    · obtain ⟨front, back, rfl, htaken⟩ := h.exists_taken hmem
      rcases htaken.parent with ⟨hnil, -⟩ | ⟨w, base', hup, hw, -⟩
      · cases hnil
      · obtain ⟨rfl, rfl⟩ := cons.inj hup
        exact ih (mem_append_left _ hw) hsuffix

theorem way (hmem : (z, up) ∈ done) : Way next start z up := by
  induction up generalizing z with
  | nil =>
    obtain ⟨front, back, -, htaken⟩ := h.exists_taken hmem
    rcases htaken.parent with ⟨-, rfl⟩ | ⟨w, base, hup, -⟩
    · exact .start
    · cases hup
  | cons y up ih =>
    obtain ⟨front, back, -, htaken⟩ := h.exists_taken hmem
    rcases htaken.parent with ⟨hnil, -⟩ | ⟨w, base, hup, -, hz, -⟩
    · cases hnil
    · obtain ⟨rfl, rfl⟩ := cons.inj hup
      exact .step (ih (h.mem_of_suffix hmem (suffix_cons _ _))) hz

/-- The ways of a walk do not repeat themselves: a place is fresh when it is taken. -/
theorem nodup (hmem : (z, up) ∈ done) : (z :: up).Nodup := by
  induction up generalizing z with
  | nil => exact nodup_singleton z
  | cons y up ih =>
    refine nodup_cons.2 ⟨fun hin => ?_, ih (h.mem_of_suffix hmem (suffix_cons _ _))⟩
    obtain ⟨front, back, rfl, htaken⟩ := h.exists_taken hmem
    rcases htaken.parent with ⟨hnil, -⟩ | ⟨w, base, hup, hw, -⟩
    · cases hnil
    · obtain ⟨rfl, rfl⟩ := cons.inj hup
      obtain ⟨above, below, hsplit⟩ := append_of_mem hin
      have hbelow := h.of_append.mem_of_suffix hw ⟨above, hsplit.symm⟩
      exact htaken.fresh (mem_places.2 ⟨below, hbelow⟩)

end

/-- Before a place of a way is taken, the places behind it on the way are not. -/
theorem not_mem_front (h : AllTaken next start max (front ++ (y, up') :: back))
    (hmem : (z, up) ∈ front ++ (y, up') :: back)
    (hsuffix : y :: up' <:+ z :: up) : z ∉ places front := by
  intro hz
  obtain ⟨other, hother⟩ := mem_places.1 hz
  obtain rfl := h.eq_of_mem hmem (mem_append_left _ hother)
  have hy := h.of_append.mem_of_suffix hother hsuffix
  exact (h front y up' back rfl).fresh (mem_places.2 ⟨up', hy⟩)

end AllTaken

omit [DecidableEq α] in
/-- **Catching up**: what lies on a way behind a place that was passed is passed, where all places from which the walk
does not come are finished, and none of the way is passed deeper than it lies on it. -/
theorem catch_up {front : List (α × List α)}
    (hfinished : ∀ x b, (x, b) ∈ front → ¬x :: b <:+ base → b.length + 1 < max → ∀ y ∈ next x, y ∈ places front)
    (hy : y ∈ places front) {s : List α} (hway : Way next start z up) (hsplit : z :: up = s ++ y :: base)
    (hnodup : (z :: up).Nodup) (hshort : up.length < max)
    (hright : ∀ w b b', w :: b <:+ up → next w ≠ [] → (w, b') ∈ front → b'.length ≤ b.length) : z ∈ places front := by
  induction s generalizing z up with
  | nil =>
    obtain ⟨rfl, -⟩ := cons.inj hsplit
    exact hy
  | cons a s ih =>
    obtain ⟨rfl, hup⟩ := cons.inj hsplit
    cases up with
    | nil => simp at hup
    | cons w b =>
      have hz : z ∈ next w := hway.mem_next
      have hnodup' := (nodup_cons.1 hnodup).2
      have hw : w ∈ places front := by
        refine ih (hway.of_suffix (suffix_cons _ _)) hup hnodup' ?_ fun v c c' hsuffix =>
          hright v c c' (hsuffix.trans (suffix_cons _ _))
        simp only [length_cons] at hshort
        omega
      obtain ⟨b', hb'⟩ := mem_places.1 hw
      have hle := hright w b b' suffix_rfl (ne_nil_of_mem hz) hb'
      refine hfinished w b' hb' (fun hsuffix => ?_) (by simp only [length_cons] at hshort; omega) z hz
      -- The base lies behind this place, so it does not have the place again.
      have hbase : base <:+ b := by
        have hsuffix' : y :: base <:+ w :: b := ⟨s, hup.symm⟩
        rcases suffix_cons_iff.1 hsuffix' with heq | hsuffix'
        · rw [(cons.inj heq).2]
        · exact (suffix_cons y base).trans hsuffix'
      exact (nodup_cons.1 hnodup').1 ((hsuffix.trans hbase).subset mem_cons_self)

section

variable (h : Explores next start max done)
include h

/-- The place at which one way parts from another, with what is passed before the walk takes it: all that comes before,
and all that is not on the common way. -/
theorem Explores.exact (horder : InOrder next start max) :
    Exact next start max done := by
  intro z up hz hshortest hdepth
  induction hn : up.length using Nat.strong_induction_on generalizing z up with
  | _ n ih =>
    subst hn
    have hpassed : z ∈ places done := by
      cases up with
      | nil =>
        have hway := hshortest.way
        cases hway
        exact h.start hdepth
      | cons w b =>
        have hw : next w ≠ [] := ne_nil_of_mem hshortest.way.mem_next
        have hlt : b.length < (w :: b).length := by simp
        obtain ⟨b', hb', hlength⟩ := ih b.length hlt w b hw hshortest.tail (hlt.trans hdepth) rfl
        refine h.closed w b' hb' ?_ z hshortest.way.mem_next
        simp only [length_cons] at hdepth
        omega
    obtain ⟨up', hup'⟩ := mem_places.1 hpassed
    by_contra hnot
    have hlonger : up'.length ≠ up.length := fun heq => hnot ⟨up', hup', heq⟩
    have hnot_shortest : ¬Shortest next start z up' := fun hs =>
      hlonger (le_antisymm (hs.le up hshortest.way) (hshortest.le up' hs.way))
    obtain ⟨_, _, -, htaken⟩ := h.taken.exists_taken hup'
    obtain ⟨q, hq, x, base, a, b, front, back, hqsplit, hpsplit, hlt⟩ :=
      horder z up' hz (h.taken.way hup') (h.taken.nodup hup') htaken.short hnot_shortest
    -- The walk has taken the later successor, so it has passed the earlier one and all behind it.
    have hb := h.taken.mem_of_suffix hup' ⟨back, hpsplit.symm⟩
    obtain ⟨before, after, rfl, hbtaken⟩ := h.taken.exists_taken hb
    have ha : a ∈ places before := by
      rcases hbtaken.parent with ⟨hnil, -⟩ | ⟨x', base', hup, -, -, hearlier⟩
      · cases hnil
      · obtain ⟨rfl, rfl⟩ := cons.inj hup
        exact hearlier a (hq.way.of_suffix ⟨front, hqsplit.symm⟩).mem_next hlt
    have hqlength : q.length = up.length := le_antisymm (hq.le up hshortest.way) (hshortest.le q hq.way)
    have hcatch : z ∈ places before := by
      refine catch_up hbtaken.finished ha hq.way hqsplit hq.nodup (hqlength ▸ hdepth) fun w c c' hsuffix hw hc' => ?_
      have hwq : w :: c <:+ z :: q := hsuffix.trans (suffix_cons _ _)
      have hless : c.length < up.length := by
        have := hsuffix.length_le
        simp only [length_cons] at this
        omega
      obtain ⟨c'', hc'', hlength⟩ := ih c.length hless w c hw (hq.of_suffix hwq) (hless.trans hdepth) rfl
      rw [h.taken.eq_of_mem (mem_append_left _ hc') hc'', hlength]
    exact h.taken.not_mem_front hup' ⟨back, hpsplit.symm⟩ hcatch

/-- A walk that passes all places at their distance follows a shortest way first. -/
theorem Explores.inOrder (hexact : Exact next start max done) :
    InOrder next start max := by
  intro z p hz hway hnodup hdepth hnot
  obtain ⟨q₀, hq₀⟩ := exists_shortest hway
  obtain ⟨q, hq, hlength⟩ := hexact z q₀ hz hq₀ ((hq₀.le p hway).trans_lt hdepth)
  have hshortest : Shortest next start z q := ⟨h.taken.way hq, fun other hother => hlength ▸ hq₀.le other hother⟩
  have hne : q ≠ p := by
    rintro rfl
    exact hnot hshortest
  have hnot_suffix : ∀ {l l' : List α}, l ≠ l' → (z :: l').Nodup → ¬z :: l <:+ z :: l' := by
    intro l l' hne hnodup hsuffix
    rcases suffix_cons_iff.1 hsuffix with heq | hsuffix
    · exact hne (cons.inj heq).2
    · exact (nodup_cons.1 hnodup).1 (hsuffix.subset mem_cons_self)
  obtain ⟨x, base, a, b, front, back, hqsplit, hpsplit, hab⟩ :=
    exists_parting hshortest.way hway (hnot_suffix hne hnodup) (hnot_suffix (Ne.symm hne) hshortest.nodup)
  refine ⟨q, hshortest, x, base, a, b, front, back, hqsplit, hpsplit, ?_⟩
  by_contra hle
  have hb : b ∈ next x := (hway.of_suffix ⟨back, hpsplit.symm⟩).mem_next
  have hlt : (next x).idxOf b < (next x).idxOf a := by
    have hidx : (next x).idxOf b ≠ (next x).idxOf a := fun heq => hab ((idxOf_inj hb).1 heq).symm
    omega
  -- Otherwise the walk has passed what is behind the other successor before it takes this one.
  have ha := h.taken.mem_of_suffix hq ⟨front, hqsplit.symm⟩
  obtain ⟨before, after, rfl, hataken⟩ := h.taken.exists_taken ha
  have hbpassed : b ∈ places before := by
    rcases hataken.parent with ⟨hnil, -⟩ | ⟨x', base', hup, -, -, hearlier⟩
    · cases hnil
    · obtain ⟨rfl, rfl⟩ := cons.inj hup
      exact hearlier b hb hlt
  have hcatch : z ∈ places before := by
    refine catch_up hataken.finished hbpassed hway hpsplit hnodup hdepth fun w c c' hsuffix hw hc' => ?_
    have hwp : w :: c <:+ z :: p := hsuffix.trans (suffix_cons _ _)
    have hwway := hway.of_suffix hwp
    obtain ⟨c₀, hc₀⟩ := exists_shortest hwway
    have hless : c.length < p.length := by
      have := hsuffix.length_le
      simp only [length_cons] at this
      omega
    obtain ⟨c'', hc'', hlength''⟩ := hexact w c₀ hw hc₀ ((hc₀.le c hwway).trans_lt (hless.trans hdepth))
    rw [h.taken.eq_of_mem (mem_append_left _ hc') hc'', hlength'']
    exact hc₀.le c hwway
  exact h.taken.not_mem_front hq ⟨front, hqsplit.symm⟩ hcatch

/-- **A walk passes each place at its distance exactly when the ways that are too long come late.** -/
theorem exact_iff_inOrder : Exact next start max done ↔ InOrder next start max :=
  ⟨h.inOrder, h.exact⟩

end

/-! ### Sums of depths -/

omit [DecidableEq α] in
/-- The keys of a list have entries in another, each with no greater number.  If the weights of both lists have the
same sum, those of the numbers compare, and if they are the same too, so are the entries. -/
theorem sums_le {f : α → ℕ} {l l' : List (α × ℕ)} (hl : (l.map fst).Nodup) (hl' : (l'.map fst).Nodup)
    (hpos : ∀ e ∈ l', 0 < f e.1) (hle : ∀ e ∈ l, ∃ n, (e.1, n) ∈ l' ∧ n ≤ e.2)
    (hsum : (l.map fun e => f e.1).sum = (l'.map fun e => f e.1).sum) :
    (l'.map fun e => f e.1 * e.2).sum ≤ (l.map fun e => f e.1 * e.2).sum ∧
      ((l'.map fun e => f e.1 * e.2).sum = (l.map fun e => f e.1 * e.2).sum → ∀ e ∈ l', e ∈ l) := by
  induction l generalizing l' with
  | nil =>
    cases l' with
    | nil => simp
    | cons e l' =>
      have hfirst := hpos e mem_cons_self
      simp only [map_nil, sum_nil, map_cons, sum_cons] at hsum
      omega
  | cons e l ih =>
    obtain ⟨z, n⟩ := e
    obtain ⟨m, hm, hmn⟩ := hle (z, n) mem_cons_self
    obtain ⟨front, back, rfl⟩ := append_of_mem hm
    have hperm : (front ++ (z, m) :: back).Perm ((z, m) :: (front ++ back)) := perm_middle
    have hkeys : (z :: (front ++ back).map fst).Nodup := (hperm.map fst).nodup_iff.1 hl'
    have hz : z ∉ l.map fst := (nodup_cons.1 hl).1
    have hweights := (hperm.map fun e => f e.1).sum_eq
    have hnumbers := (hperm.map fun e => f e.1 * e.2).sum_eq
    simp only [map_cons, sum_cons] at hweights hnumbers hsum ⊢
    have hrest : ∀ e ∈ l, ∃ n, (e.1, n) ∈ front ++ back ∧ n ≤ e.2 := by
      intro e he
      obtain ⟨k, hk, hkn⟩ := hle e (mem_cons_of_mem _ he)
      rcases mem_cons.1 (hperm.mem_iff.1 hk) with heq | hk
      · exact absurd (mem_map_of_mem (f := fst) he) ((mk.inj heq).1 ▸ hz)
      · exact ⟨k, hk, hkn⟩
    obtain ⟨hless, hsame⟩ := ih (nodup_cons.1 hl).2 (nodup_cons.1 hkeys).2
      (fun e he => hpos e (hperm.mem_iff.2 (mem_cons_of_mem _ he))) hrest (by omega)
    have hfirst : f z * m ≤ f z * n := Nat.mul_le_mul_left _ hmn
    refine ⟨by omega, fun heq e he => ?_⟩
    have hmul : f z * m = f z * n := by omega
    have hfz : 0 < f z := hpos (z, m) hm
    obtain rfl := Nat.eq_of_mul_eq_mul_left hfz hmul
    rcases mem_cons.1 (hperm.mem_iff.1 he) with rfl | he
    · exact mem_cons_self
    · exact mem_cons_of_mem _ (hsame (by omega) e he)

end DepthWalk
