import Mathlib.Tactic

/-!
# Records as triples

A graph is a list of triples, none of them twice.  A record is a subject with some properties, and is found again by a
pattern of its predicates.

* `values`, `bindings`, `solutions`, `select`, `Rec`, `Holds`;
* `Holds.insert`, `Holds.delete`, `Holds.replaceValue`: what updates do;
* `Holds.select_perm`: a solution for each record.
-/

namespace TripleStore

open List TripleStore

structure Triple (S P O : Type*) where
  subject : S
  predicate : P
  object : O
  deriving DecidableEq

variable {S P O V : Type*}

abbrev Graph (S P O : Type*) := List (Triple S P O)

/-! ### Queries and updates -/

variable {graph : Graph S P O} {predicate : P} {t : Triple S P O} {subject : S} {value : O}

section

variable [DecidableEq S] [DecidableEq P]

/-- The objects of a subject under a predicate. -/
def values (graph : Graph S P O) (subject : S) (predicate : P) : List O :=
  (graph.filter fun t => t.subject = subject ∧ t.predicate = predicate).map (·.object)

def subjects (graph : Graph S P O) : List S := (graph.map (·.subject)).dedup

/-- The solutions of a subject: a value for each variable of the pattern. -/
def bindings (graph : Graph S P O) (subject : S) : List (P × V) → List (List (V × O))
  | [] => [[]]
  | (predicate, var) :: pattern =>
    (values graph subject predicate).flatMap fun value => (bindings graph subject pattern).map ((var, value) :: ·)

/-- Each of the solutions goes on with the optional variables, if there is a value for them. -/
def optional (graph : Graph S P O) (subject : S) (pattern : List (P × V)) (rows : List (List (V × O))) :
    List (List (V × O)) :=
  let more := bindings graph subject pattern
  if more = [] then rows else rows.flatMap fun row => more.map (row ++ ·)

/-- The solutions of a pattern and an optional one, with the subject. -/
def solutions (graph : Graph S P O) (required : List (P × V)) (opt : Option (P × V)) (subject : S) :
    List (List (V × O)) :=
  match opt with
  | none => bindings graph subject required
  | some pattern => optional graph subject [pattern] (bindings graph subject required)

def select (graph : Graph S P O) (required : List (P × V)) (opt : Option (P × V)) : List (List (V × O)) :=
  (subjects graph).flatMap (solutions graph required opt)

/-- Triples are inserted, unless they are there. -/
def insert [DecidableEq O] (graph : Graph S P O) : List (Triple S P O) → Graph S P O
  | [] => graph
  | t :: triples => insert (if t ∈ graph then graph else graph ++ [t]) triples

/-- Everything about a subject is deleted. -/
def delete (graph : Graph S P O) (subject : S) : Graph S P O := graph.filter fun t => t.subject ≠ subject

/-- The values of a subject under a predicate, if there are any, are replaced by one. -/
def replaceValue [DecidableEq O] (graph : Graph S P O) (subject : S) (predicate : P) (value : O) : Graph S P O :=
  if values graph subject predicate = [] then graph
  else
    insert (graph.filter fun t => ¬(t.subject = subject ∧ t.predicate = predicate)) [⟨subject, predicate, value⟩]

theorem mem_values : value ∈ values graph subject predicate ↔ ⟨subject, predicate, value⟩ ∈ graph := by
  unfold values
  rw [mem_map]
  constructor
  · rintro ⟨t, ht, rfl⟩
    rw [mem_filter, decide_eq_true_iff] at ht
    obtain ⟨hin, rfl, rfl⟩ := ht
    exact hin
  · intro hin
    exact ⟨_, mem_filter.2 ⟨hin, decide_eq_true ⟨rfl, rfl⟩⟩, rfl⟩

theorem nodup_values (h : graph.Nodup) (subject : S) (predicate : P) : (values graph subject predicate).Nodup := by
  refine List.Nodup.map_on ?_ (h.filter _)
  rintro ⟨s, p, o⟩ ht ⟨s', p', o'⟩ ht' heq
  rw [mem_filter, decide_eq_true_iff] at ht ht'
  obtain ⟨-, rfl, rfl⟩ := ht
  obtain ⟨-, rfl, rfl⟩ := ht'
  obtain rfl : o = o' := heq
  rfl

theorem mem_insert [DecidableEq O] {triples : List (Triple S P O)} :
    t ∈ insert graph triples ↔ t ∈ graph ∨ t ∈ triples := by
  induction triples generalizing graph with
  | nil => simp [insert]
  | cons t' triples ih =>
    unfold insert
    rw [ih, mem_cons]
    split_ifs with hin
    · constructor
      · exact Or.imp_right .inr
      · rintro (h | rfl | h)
        · exact .inl h
        · exact .inl hin
        · exact .inr h
    · rw [mem_append, mem_singleton, or_assoc]

theorem nodup_insert [DecidableEq O] (h : graph.Nodup) (triples : List (Triple S P O)) :
    (insert graph triples).Nodup := by
  induction triples generalizing graph with
  | nil => exact h
  | cons t triples ih =>
    unfold insert
    refine ih ?_
    split_ifs with hin
    · exact h
    · exact nodup_append.2 ⟨h, nodup_singleton t, fun a ha b hb heq =>
        hin (mem_singleton.1 hb ▸ heq ▸ ha)⟩

end

/-! ### Records -/

/-- A subject and its properties. -/
structure Rec (S P O : Type*) where
  subject : S
  fields : List (P × O)

def Rec.triples (r : Rec S P O) : List (Triple S P O) := r.fields.map fun field => ⟨r.subject, field.1, field.2⟩

/-- The solution of a record. -/
def Rec.row [DecidableEq P] (r : Rec S P O) (required : List (P × V)) (opt : Option (P × V)) : List (V × O) :=
  (required ++ opt.toList).filterMap fun (predicate, var) => (r.fields.lookup predicate).map (var, ·)

/-- The graph holds the records, and nothing else; each of them has its own subject, and a value for each predicate of
a pattern and for no predicate two. -/
structure Holds [DecidableEq P] (required : List P) (graph : Graph S P O) (recs : List (Rec S P O)) : Prop where
  nodup : graph.Nodup
  mem_iff : ∀ t, t ∈ graph ↔ ∃ r ∈ recs, t ∈ r.triples
  distinct : (recs.map (·.subject)).Nodup
  fields : ∀ r ∈ recs, (r.fields.map (·.1)).Nodup
  has : ∀ r ∈ recs, ∀ predicate ∈ required, (r.fields.lookup predicate).isSome = true

theorem holds_nil [DecidableEq P] (required : List P) : Holds required ([] : Graph S P O) [] where
  nodup := nodup_nil
  mem_iff _ := ⟨fun h => absurd h not_mem_nil, fun ⟨_, h, _⟩ => absurd h not_mem_nil⟩
  distinct := nodup_nil
  fields _ h := absurd h not_mem_nil
  has _ h := absurd h not_mem_nil

variable {r : Rec S P O}

theorem mem_triples : t ∈ r.triples ↔ t.subject = r.subject ∧ (t.predicate, t.object) ∈ r.fields := by
  unfold Rec.triples
  rw [mem_map]
  constructor
  · rintro ⟨field, hfield, rfl⟩
    exact ⟨rfl, hfield⟩
  · rintro ⟨hsubject, hfield⟩
    exact ⟨_, hfield, by rw [← hsubject]⟩

variable {fields : List (P × O)}

theorem lookup_eq_some_iff [DecidableEq P] (h : (fields.map (·.1)).Nodup) : fields.lookup predicate = some value ↔
    (predicate, value) ∈ fields := by
  induction fields with
  | nil => simp
  | cons field fields ih =>
    obtain ⟨predicate', value'⟩ := field
    rw [map_cons, nodup_cons] at h
    rw [lookup_cons, mem_cons, Prod.mk.injEq]
    by_cases heq : predicate = predicate'
    · subst heq
      simp only [beq_self_eq_true, Option.some.injEq, true_and]
      constructor
      · rintro rfl
        exact .inl rfl
      · rintro (rfl | hin)
        · rfl
        · exact absurd (mem_map_of_mem hin) h.1
    · rw [beq_eq_false_iff_ne.2 heq]
      simp only [heq, false_and, false_or]
      exact ih h.2

/-- A list without repetitions that holds at most one thing. -/
theorem eq_toList {α : Type*} {l : List α} {o : Option α} (hnodup : l.Nodup) (h : ∀ x, x ∈ l ↔ o = some x) :
    l = o.toList := by
  cases o with
  | none =>
    refine eq_nil_iff_forall_not_mem.2 fun x hx => ?_
    exact (nomatch (h x).1 hx)
  | some a =>
    have hperm : l.Perm [a] := (perm_ext_iff_of_nodup hnodup (nodup_singleton a)).2 fun x => by
      rw [h, mem_singleton, Option.some.injEq, eq_comm]
    exact perm_singleton.1 hperm

namespace Holds

variable [DecidableEq P] {required : List P} {graph : Graph S P O} {recs : List (Rec S P O)} {r : Rec S P O}

theorem eq_of_subject (h : Holds required graph recs) {r r' : Rec S P O} (hr : r ∈ recs) (hr' : r' ∈ recs)
    (heq : r.subject = r'.subject) : r = r' :=
  inj_on_of_nodup_map h.distinct hr hr' heq

theorem values_eq [DecidableEq S] (h : Holds required graph recs) (hr : r ∈ recs) (predicate : P) :
    values graph r.subject predicate = (r.fields.lookup predicate).toList := by
  refine eq_toList (nodup_values h.nodup _ _) fun value => ?_
  rw [mem_values, h.mem_iff, lookup_eq_some_iff (h.fields r hr)]
  constructor
  · rintro ⟨r', hr', ht⟩
    obtain ⟨hsubject, hfield⟩ := mem_triples.1 ht
    obtain rfl := h.eq_of_subject hr hr' hsubject
    exact hfield
  · exact fun hfield => ⟨r, hr, mem_triples.2 ⟨rfl, hfield⟩⟩

variable {pattern : List (P × V)}

theorem bindings_eq [DecidableEq S] (h : Holds required graph recs) (hr : r ∈ recs)
    (hpattern : ∀ p ∈ pattern, (r.fields.lookup p.1).isSome = true) :
    bindings graph r.subject pattern =
      [pattern.filterMap fun (predicate, var) => (r.fields.lookup predicate).map (var, ·)] := by
  induction pattern with
  | nil => rfl
  | cons p pattern ih =>
    obtain ⟨predicate, var⟩ := p
    obtain ⟨value, hvalue⟩ := Option.isSome_iff_exists.1 (hpattern _ mem_cons_self)
    unfold bindings
    rw [h.values_eq hr, ih fun p hp => hpattern p (mem_cons_of_mem _ hp), filterMap_cons]
    simp only [hvalue, Option.toList_some, flatMap_singleton, map_singleton, Option.map_some]

/-- The subjects are those of the records that have a property. -/
theorem mem_subjects [DecidableEq S] (h : Holds required graph recs) :
    subject ∈ subjects graph ↔ ∃ r ∈ recs, r.subject = subject ∧ r.fields ≠ [] := by
  unfold subjects
  rw [mem_dedup, mem_map]
  constructor
  · rintro ⟨t, ht, rfl⟩
    obtain ⟨r, hr, ht⟩ := (h.mem_iff t).1 ht
    obtain ⟨hsubject, hfield⟩ := mem_triples.1 ht
    exact ⟨r, hr, hsubject.symm, ne_nil_of_mem hfield⟩
  · rintro ⟨r, hr, rfl, hne⟩
    obtain ⟨field, hfield⟩ := exists_mem_of_ne_nil _ hne
    exact ⟨⟨r.subject, field.1, field.2⟩, (h.mem_iff _).2 ⟨r, hr, mem_triples.2 ⟨rfl, hfield⟩⟩, rfl⟩

/-- A solution for each record, and no other. -/
theorem select_perm [DecidableEq S] (h : Holds (pattern.map (·.1)) graph recs)
    (hne : pattern ≠ []) (opt : Option (P × V)) :
    (select graph pattern opt).Perm (recs.map fun r => r.row pattern opt) := by
  have hpattern : ∀ r ∈ recs, ∀ p ∈ pattern, (r.fields.lookup p.1).isSome = true := fun r hr p hp =>
    h.has r hr p.1 (mem_map_of_mem hp)
  have hfields : ∀ r ∈ recs, r.fields ≠ [] := by
    intro r hr hnil
    obtain ⟨p, hp⟩ := exists_mem_of_ne_nil _ hne
    have hsome := hpattern r hr p hp
    rw [hnil] at hsome
    exact (nomatch hsome)
  have hsubjects : (subjects graph).Perm (recs.map (·.subject)) := by
    have hnodup : (subjects graph).Nodup := nodup_dedup _
    refine (perm_ext_iff_of_nodup hnodup h.distinct).2 fun subject => ?_
    rw [h.mem_subjects, mem_map]
    exact exists_congr fun r => and_congr_right fun hr => and_iff_left (hfields r hr)
  have hrow : ∀ r ∈ recs, solutions graph pattern opt r.subject = [r.row pattern opt] := by
    intro r hr
    unfold solutions Rec.row
    rw [h.bindings_eq hr (hpattern r hr)]
    cases opt with
    | none => rw [Option.toList_none, append_nil]
    | some p =>
      obtain ⟨predicate, var⟩ := p
      simp only [optional, bindings, h.values_eq hr, filterMap_append]
      cases hlookup : r.fields.lookup predicate <;> simp [hlookup]
  unfold select
  refine (hsubjects.flatMap_right _).trans ?_
  rw [flatMap_map, flatMap_congr hrow, map_eq_flatMap]

/-- A record with a new subject is inserted. -/
theorem insert [DecidableEq S] [DecidableEq O] (h : Holds required graph recs)
    (hnew : ∀ r' ∈ recs, r'.subject ≠ r.subject) (hfields : (r.fields.map (·.1)).Nodup)
    (hhas : ∀ predicate ∈ required, (r.fields.lookup predicate).isSome = true) :
    Holds required (insert graph r.triples) (recs ++ [r]) where
  nodup := nodup_insert h.nodup _
  mem_iff t := by
    rw [mem_insert, h.mem_iff]
    simp only [mem_append, mem_singleton, or_and_right, exists_or, exists_eq_left]
  distinct := by
    rw [map_append, map_singleton]
    refine nodup_append.2 ⟨h.distinct, nodup_singleton _, ?_⟩
    rintro a ha b hb rfl
    obtain ⟨r', hr', heq⟩ := mem_map.1 ha
    exact hnew r' hr' (heq.trans (mem_singleton.1 hb))
  fields r' hr' := by
    obtain hr' | hr' := mem_append.1 hr'
    · exact h.fields r' hr'
    · rw [mem_singleton.1 hr']
      exact hfields
  has r' hr' := by
    obtain hr' | hr' := mem_append.1 hr'
    · exact h.has r' hr'
    · rw [mem_singleton.1 hr']
      exact hhas

/-- The record of a subject is deleted. -/
theorem delete [DecidableEq S] (h : Holds required graph recs) (subject : S) :
    Holds required (TripleStore.delete graph subject) (recs.filter fun r => r.subject ≠ subject) where
  nodup := h.nodup.filter _
  mem_iff t := by
    unfold TripleStore.delete
    rw [mem_filter, decide_eq_true_iff, h.mem_iff]
    constructor
    · rintro ⟨⟨r, hr, ht⟩, hne⟩
      exact ⟨r, mem_filter.2 ⟨hr, decide_eq_true ((mem_triples.1 ht).1 ▸ hne)⟩, ht⟩
    · rintro ⟨r, hr, ht⟩
      obtain ⟨hr, hne⟩ := mem_filter.1 hr
      exact ⟨⟨r, hr, ht⟩, (mem_triples.1 ht).1.symm ▸ of_decide_eq_true hne⟩
  distinct := h.distinct.sublist (filter_sublist.map _)
  fields r hr := h.fields r (mem_filter.1 hr).1
  has r hr := h.has r (mem_filter.1 hr).1

end Holds

/-- A property of a record is set to another value, if it is there. -/
def Rec.set [DecidableEq P] (r : Rec S P O) (predicate : P) (value : O) : Rec S P O :=
  { r with fields := r.fields.map fun field => if field.1 = predicate then (predicate, value) else field }

theorem Rec.map_fst_set [DecidableEq P] (r : Rec S P O) (predicate : P) (value : O) :
    (r.set predicate value).fields.map (·.1) = r.fields.map (·.1) := by
  unfold Rec.set
  rw [map_map]
  refine map_congr_left fun field _ => ?_
  rw [Function.comp_apply]
  split_ifs with heq
  · exact heq.symm
  · rfl

theorem isSome_lookup [DecidableEq P] : (fields.lookup predicate).isSome = true ↔ predicate ∈ fields.map (·.1) := by
  induction fields with
  | nil => simp
  | cons field fields ih =>
    obtain ⟨predicate', value⟩ := field
    rw [lookup_cons, map_cons, mem_cons]
    by_cases heq : predicate = predicate'
    · simp [heq]
    · rw [beq_eq_false_iff_ne.2 heq]
      simp only [heq, false_or]
      exact ih

theorem Rec.mem_set [DecidableEq P] {predicate p : P} {value o : O} : (p, o) ∈ (r.set predicate value).fields ↔
      p ≠ predicate ∧ (p, o) ∈ r.fields ∨ p = predicate ∧ o = value ∧ ∃ o', (predicate, o') ∈ r.fields := by
  unfold Rec.set
  rw [mem_map]
  constructor
  · rintro ⟨⟨p', o'⟩, hfield, heq⟩
    simp only at heq
    split_ifs at heq with hp
    · cases heq
      exact .inr ⟨rfl, rfl, o', hp ▸ hfield⟩
    · cases heq
      exact .inl ⟨hp, hfield⟩
  · rintro (⟨hne, hfield⟩ | ⟨rfl, rfl, o', hfield⟩)
    · exact ⟨_, hfield, if_neg hne⟩
    · exact ⟨_, hfield, if_pos rfl⟩

/-- A value of one record is replaced. -/
theorem Holds.replaceValue [DecidableEq S] [DecidableEq P] [DecidableEq O] {required : List P}
    {recs : List (Rec S P O)} (h : Holds required graph recs) (subject : S) (predicate : P) (value : O) :
    Holds required (TripleStore.replaceValue graph subject predicate value)
      (recs.map fun r => if r.subject = subject then r.set predicate value else r) := by
  have hsubject : ∀ r : Rec S P O, (if r.subject = subject then r.set predicate value else r).subject = r.subject := by
    intro r
    split_ifs <;> rfl
  have hkeys : ∀ r : Rec S P O,
      (if r.subject = subject then r.set predicate value else r).fields.map (·.1) = r.fields.map (·.1) := by
    intro r
    split_ifs
    · exact r.map_fst_set predicate value
    · rfl
  have hmem : ∀ t : Triple S P O, (∃ r ∈ recs, t ∈ (if r.subject = subject then r.set predicate value else r).triples) ↔
      t ∈ graph ∧ ¬(t.subject = subject ∧ t.predicate = predicate) ∨
        t = ⟨subject, predicate, value⟩ ∧ values graph subject predicate ≠ [] := by
    intro t
    obtain ⟨s, p, o⟩ := t
    rw [h.mem_iff]
    constructor
    · rintro ⟨r, hr, ht⟩
      obtain ⟨hs, hfield⟩ := mem_triples.1 ht
      rw [hsubject] at hs
      obtain rfl : s = r.subject := hs
      split_ifs at hfield with heq
      · obtain ⟨hne, hfield⟩ | ⟨hp, ho, o', hfield⟩ := Rec.mem_set.1 hfield
        · exact .inl ⟨⟨r, hr, mem_triples.2 ⟨rfl, hfield⟩⟩, fun hboth => hne hboth.2⟩
        · refine .inr ⟨?_, ne_nil_of_mem (a := o') (mem_values.2 ((h.mem_iff _).2 ⟨r, hr, mem_triples.2 ?_⟩))⟩
          · rw [heq, show p = predicate from hp, show o = value from ho]
          · exact ⟨heq.symm, hfield⟩
      · exact .inl ⟨⟨r, hr, mem_triples.2 ⟨rfl, hfield⟩⟩, fun hboth => heq hboth.1⟩
    · rintro (⟨⟨r, hr, ht⟩, hne⟩ | ⟨heq, hvalues⟩)
      · obtain ⟨hs, hfield⟩ := mem_triples.1 ht
        obtain rfl : s = r.subject := hs
        refine ⟨r, hr, mem_triples.2 ⟨(hsubject r).symm, ?_⟩⟩
        split_ifs with hsame
        · exact Rec.mem_set.2 (.inl ⟨fun hp => hne ⟨hsame, hp⟩, hfield⟩)
        · exact hfield
      · obtain ⟨o', ho'⟩ := exists_mem_of_ne_nil _ hvalues
        obtain ⟨r, hr, ht⟩ := (h.mem_iff _).1 (mem_values.1 ho')
        obtain ⟨hs, hfield⟩ := mem_triples.1 ht
        obtain rfl : subject = r.subject := hs
        refine ⟨r, hr, ?_⟩
        rw [if_pos rfl, heq]
        exact mem_triples.2 ⟨rfl, Rec.mem_set.2 (.inr ⟨rfl, rfl, o', hfield⟩)⟩
  constructor
  · unfold TripleStore.replaceValue
    split_ifs
    · exact h.nodup
    · exact nodup_insert (h.nodup.filter _) _
  · intro t
    simp only [mem_map, exists_exists_and_eq_and]
    rw [hmem]
    unfold TripleStore.replaceValue
    split_ifs with hnil
    · simp only [hnil, ne_eq, not_true_eq_false, and_false, or_false]
      refine (and_iff_left_of_imp fun ht hboth => ?_).symm
      obtain ⟨s, p, o⟩ := t
      obtain ⟨rfl, rfl⟩ : s = subject ∧ p = predicate := hboth
      exact ne_nil_of_mem (mem_values.2 ht) hnil
    · rw [mem_insert, mem_filter, decide_eq_true_iff, mem_singleton, and_iff_left hnil]
  · rw [map_map]
    exact (map_congr_left fun r _ => hsubject r).symm ▸ h.distinct
  · intro r' hr'
    obtain ⟨r, hr, rfl⟩ := mem_map.1 hr'
    rw [hkeys]
    exact h.fields r hr
  · intro r' hr' p hp
    obtain ⟨r, hr, rfl⟩ := mem_map.1 hr'
    rw [isSome_lookup, hkeys, ← isSome_lookup]
    exact h.has r hr p hp

end TripleStore
