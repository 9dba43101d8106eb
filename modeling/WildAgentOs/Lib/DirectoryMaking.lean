import WildAgentOs.Lib.FileTree

/-!
# Making directories

A directory is made in a directory, under a name that nothing has.  The directories of a path are made as the standard
library does it, from the end of the path back to the part that exists and forward again; that is the same as making
what is missing from the root on.

* `FileTree.insert`, `FileTree.withFile`, `FileTree.mkdir`, `FileTree.isDir`;
* `FileTree.createDirAll`, `FileTree.makeMissing`, over the components of a path in reverse;
* `createDirAll_eq`;
* `node_createDirAll`: nothing else changes.
-/

namespace FileTree

open List Function

variable {Name : Type*} [DecidableEq Name]

/-- A tree with something new in a directory. -/
def insert (tree : FileTree Name) (place : List Name) (name : Name) (new : FileNode Name)
    (hdir : tree.node place = some .dir) (hnone : tree.node (place ++ [name]) = none) : FileTree Name where
  node := update tree.node (place ++ [name]) (some new)
  node_root := by
    rw [update_of_ne (by simp), tree.node_root]
  node_parent above other hother := by
    by_cases hsame : above ++ [other] = place ++ [name]
    · obtain ⟨rfl, -⟩ := append_inj' hsame rfl
      rw [update_of_ne (by simp), hdir]
    · rw [update_of_ne hsame] at hother
      have habove := tree.node_parent above other hother
      have hne : above ≠ place ++ [name] := by
        rintro rfl
        rw [hnone] at habove
        cases habove
      rw [update_of_ne hne, habove]

/-- A tree with a file at a place, which is created where nothing is in a directory. -/
def withFile (tree : FileTree Name) (place : List Name) : FileTree Name :=
  match place.getLast? with
  | none => tree
  | some name =>
    if h : tree.node place.dropLast = some .dir ∧ tree.node (place.dropLast ++ [name]) = none then
      tree.insert place.dropLast name .file h.1 h.2
    else tree

inductive MakeError
  | path (error : PathError)
  | alreadyExists
  deriving DecidableEq

/-- `mkdir`, with the place of the new directory.  The last name of the path is not followed. -/
def mkdir (tree : FileTree Name) (components : List (PathComponent Name)) :
    Except MakeError (FileTree Name × List Name) :=
  match components.getLast? with
  | none => .error .alreadyExists
  | some last =>
    match tree.resolve false maxLinks [] components.dropLast with
    | .error error => .error (.path error)
    | .ok place =>
      if hdir : tree.node place = some .dir then
        match last with
        | .normal name =>
          if hnone : tree.node (place ++ [name]) = none then
            .ok (tree.insert place name .dir hdir hnone, place ++ [name])
          else .error .alreadyExists
        | _ => .error .alreadyExists
      else .error (.path .notADirectory)

/-- The path leads to a directory. -/
def isDir (tree : FileTree Name) (components : List (PathComponent Name)) : Bool :=
  match tree.resolve false maxLinks [] components with
  | .ok place => decide (tree.node place = some .dir)
  | .error _ => false

/-- A tree with the directories that were made in it. -/
structure Making (Name : Type*) where
  tree : FileTree Name
  made : List (List Name)

/-- `create_dir_all`, over the components in reverse: a directory that cannot be made because the one above it is
missing is made after that. -/
def createDirAll (tree : FileTree Name) : List (PathComponent Name) → Making Name × Option MakeError
  | [] => (⟨tree, []⟩, none)
  | last :: above =>
    match tree.mkdir (last :: above).reverse with
    | .ok (tree, place) => (⟨tree, [place]⟩, none)
    | .error (.path .notFound) =>
      match createDirAll tree above with
      | (making, some error) => (making, some error)
      | (making, none) =>
        match making.tree.mkdir (last :: above).reverse with
        | .ok (tree, place) => (⟨tree, making.made ++ [place]⟩, none)
        | .error error => (making, if making.tree.isDir (last :: above).reverse then none else some error)
    | .error error => (⟨tree, []⟩, if tree.isDir (last :: above).reverse then none else some error)

/-- The directories that are missing on a path are made one after the other from the root on; the second part tells
whether that comes to the end of the path. -/
def makeMissing (tree : FileTree Name) : List (PathComponent Name) → Making Name × Bool
  | [] => (⟨tree, []⟩, true)
  | last :: above =>
    match makeMissing tree above with
    | (making, false) => (making, false)
    | (making, true) =>
      if making.tree.isDir (last :: above).reverse then (making, true)
      else
        match making.tree.mkdir (last :: above).reverse with
        | .ok (tree, place) => (⟨tree, making.made ++ [place]⟩, true)
        | .error _ => (making, false)

variable {tree : FileTree Name} {way : List (PathComponent Name)} {component : PathComponent Name}

/-- A file changes nothing at any other place. -/
theorem node_withFile {place other : List Name} (h : other ≠ place) :
    (tree.withFile place).node other = tree.node other := by
  unfold withFile
  cases hlast : place.getLast? with
  | none => rfl
  | some name =>
    obtain ⟨above, rfl⟩ := getLast?_eq_some_iff.1 hlast
    simp only [dropLast_concat]
    split_ifs with hnew
    · exact update_of_ne h (some .file) tree.node
    · rfl

/-! ### Paths that are cut -/

theorem isDir_iff : tree.isDir way = true ↔
    ∃ place, tree.resolve false maxLinks [] way = .ok place ∧ tree.node place = some .dir := by
  unfold isDir
  cases tree.resolve false maxLinks [] way with
  | error error => simp
  | ok place => simp

/-- What is above a directory on a path is a directory. -/
theorem isDir_of_append (h : tree.isDir (way ++ [component]) = true) : tree.isDir way = true := by
  obtain ⟨place, hplace, -⟩ := isDir_iff.1 h
  cases hway : tree.resolve false maxLinks [] way with
  | error error =>
    rw [resolve_append_error (.inl rfl) hway] at hplace
    cases hplace
  | ok above =>
    refine isDir_iff.2 ⟨above, hway, ?_⟩
    obtain ⟨fewer, -, happend⟩ := resolve_append hway
    by_contra hnot
    rw [happend false, resolve_blocked hnot] at hplace
    cases hplace

/-- **What `mkdir` does** behind the part of a path above its last component. -/
inductive Mkdir (tree : FileTree Name) (way : List (PathComponent Name)) (component : PathComponent Name) :
    Except MakeError (FileTree Name × List Name) → Prop
  | lost (error : PathError) (h : tree.resolve false maxLinks [] way = .error error) :
      Mkdir tree way component (.error (.path error))
  | blocked (place : List Name) (h : tree.resolve false maxLinks [] way = .ok place)
      (hnot : tree.node place ≠ some .dir) : Mkdir tree way component (.error (.path .notADirectory))
  | occupied (place : List Name) (h : tree.resolve false maxLinks [] way = .ok place)
      (hdir : tree.node place = some .dir)
      (hname : ∀ name, component = .normal name → tree.node (place ++ [name]) ≠ none) :
      Mkdir tree way component (.error .alreadyExists)
  | made (place : List Name) (name : Name) (h : tree.resolve false maxLinks [] way = .ok place)
      (hdir : tree.node place = some .dir) (hnone : tree.node (place ++ [name]) = none)
      (hname : component = .normal name) :
      Mkdir tree way component (.ok (tree.insert place name .dir hdir hnone, place ++ [name]))

theorem mkdir_cases (tree : FileTree Name) (way : List (PathComponent Name)) (component : PathComponent Name) :
    Mkdir tree way component (tree.mkdir (way ++ [component])) := by
  unfold mkdir
  rw [getLast?_concat, dropLast_concat]
  simp only
  cases hway : tree.resolve false maxLinks [] way with
  | error error => exact .lost error hway
  | ok place =>
    simp only
    by_cases hdir : tree.node place = some .dir
    · rw [dif_pos hdir]
      cases component with
      | curDir => exact .occupied place hway hdir fun name h => by cases h
      | parentDir => exact .occupied place hway hdir fun name h => by cases h
      | normal name =>
        simp only
        by_cases hnone : tree.node (place ++ [name]) = none
        · rw [dif_pos hnone]
          exact .made place name hway hdir hnone rfl
        · rw [dif_neg hnone]
          refine .occupied place hway hdir fun other hother => ?_
          cases hother
          exact hnone
    · rw [dif_neg hdir]
      exact .blocked place hway hdir

/-- Where a directory can be made, none is yet. -/
theorem isDir_eq_false_of_made {place : List Name} {name : Name}
    (h : tree.resolve false maxLinks [] way = .ok place) (hdir : tree.node place = some .dir)
    (hnone : tree.node (place ++ [name]) = none) : tree.isDir (way ++ [.normal name]) = false := by
  rw [Bool.eq_false_iff]
  intro hisdir
  obtain ⟨reached, hreached, -⟩ := isDir_iff.1 hisdir
  obtain ⟨fewer, -, happend⟩ := resolve_append h
  rw [happend false, resolve_missing hdir hnone, if_neg (by simp)] at hreached
  cases hreached

/-! ### Both ways of making directories -/

/-- On the path of a directory nothing is missing. -/
theorem makeMissing_of_isDir (h : tree.isDir way = true) : tree.makeMissing way.reverse = (⟨tree, []⟩, true) := by
  induction way using reverseRecOn with
  | nil => rfl
  | append_singleton way component ih =>
    rw [reverse_append, reverse_singleton, singleton_append, makeMissing,
      ih (isDir_of_append h), reverse_cons, reverse_reverse]
    simp only
    rw [if_pos h]

/-- Where a path fails for another reason than that something is missing, nothing is made. -/
theorem makeMissing_of_blocked (hdir : tree.isDir way = false)
    (hfound : tree.resolve false maxLinks [] way ≠ .error .notFound) :
    tree.makeMissing way.reverse = (⟨tree, []⟩, false) := by
  induction way using reverseRecOn with
  | nil =>
    have hroot : tree.isDir [] = true := isDir_iff.2 ⟨[], resolve_nil, tree.node_root⟩
    rw [hroot] at hdir
    cases hdir
  | append_singleton way component ih =>
    rw [reverse_append, reverse_singleton, singleton_append, makeMissing, reverse_cons, reverse_reverse]
    by_cases habove : tree.isDir way = true
    · rw [makeMissing_of_isDir habove]
      simp only
      rw [if_neg (by simp [hdir])]
      have hcases := mkdir_cases tree way component
      generalize tree.mkdir (way ++ [component]) = result at hcases
      cases hcases with
      | made place name h hplace hnone hname =>
        obtain ⟨fewer, -, happend⟩ := resolve_append h
        subst hname
        refine absurd ?_ hfound
        rw [happend false, resolve_missing hplace hnone, if_neg (by simp)]
      | lost | blocked | occupied => rfl
    · rw [ih (by simpa using habove)]
      intro hnone
      exact hfound (resolve_append_error (.inl rfl) hnone)

/-- **Making directories from the end of a path back is making what is missing from the root on.** -/
theorem createDirAll_eq (tree : FileTree Name) (way : List (PathComponent Name)) :
    (tree.createDirAll way.reverse).1 = (tree.makeMissing way.reverse).1 ∧
      ((tree.createDirAll way.reverse).2 = none ↔ (tree.makeMissing way.reverse).2 = true) := by
  induction way using reverseRecOn with
  | nil => exact ⟨rfl, by simp [createDirAll, makeMissing]⟩
  | append_singleton way component ih =>
    rw [reverse_append, reverse_singleton, singleton_append, createDirAll, reverse_cons, reverse_reverse]
    have hcases := mkdir_cases tree way component
    generalize hmkdir : tree.mkdir (way ++ [component]) = result at hcases
    have hdone : tree.isDir (way ++ [component]) = true →
        tree.makeMissing (component :: way.reverse) = (⟨tree, []⟩, true) := by
      intro h
      have := makeMissing_of_isDir h
      rwa [reverse_append, reverse_singleton, singleton_append] at this
    cases hcases with
    | made place name h hdir hnone hname =>
      have habove : tree.isDir way = true := isDir_iff.2 ⟨place, h, hdir⟩
      subst hname
      rw [makeMissing, makeMissing_of_isDir habove, reverse_cons, reverse_reverse]
      simp only [isDir_eq_false_of_made h hdir hnone, hmkdir]
      simp
    | occupied place h hdir hname =>
      have habove : tree.isDir way = true := isDir_iff.2 ⟨place, h, hdir⟩
      by_cases hlast : tree.isDir (way ++ [component]) = true
      · rw [hdone hlast]
        simp [hlast]
      · rw [makeMissing, makeMissing_of_isDir habove, reverse_cons, reverse_reverse]
        simp [hlast, hmkdir]
    | blocked place h hnot =>
      have hlast : tree.isDir (way ++ [component]) = false := by
        rw [Bool.eq_false_iff]
        intro hlast
        obtain ⟨above, habove, hdir⟩ := isDir_iff.1 (isDir_of_append hlast)
        cases h.symm.trans habove
        exact hnot hdir
      have habove : tree.isDir way = false := by simp [isDir, h, hnot]
      have hfound : tree.resolve false maxLinks [] way ≠ .error .notFound := by simp [h]
      rw [makeMissing, makeMissing_of_blocked habove hfound]
      simp [hlast]
    | lost error h =>
      have hlast : tree.isDir (way ++ [component]) = false := by
        rw [isDir, resolve_append_error (.inl rfl) h]
      by_cases hfound : error = .notFound
      · -- Something is missing above: both make it first.
        subst hfound
        obtain ⟨hsame, hiff⟩ := ih
        rw [makeMissing, reverse_cons, reverse_reverse]
        generalize tree.createDirAll way.reverse = first at hsame hiff
        generalize tree.makeMissing way.reverse = second at hsame hiff
        obtain ⟨making, failure⟩ := first
        obtain ⟨making', complete⟩ := second
        obtain rfl : making = making' := hsame
        cases failure with
        | some failure =>
          obtain rfl : complete = false := by simpa using hiff
          simp
        | none =>
          obtain rfl : complete = true := by simpa using hiff
          simp only
          have hcases := mkdir_cases making.tree way component
          generalize making.tree.mkdir (way ++ [component]) = result at hcases
          cases hcases with
          | made place name h hdir hnone hname =>
            subst hname
            simp [isDir_eq_false_of_made h hdir hnone]
          | lost | blocked | occupied => split_ifs <;> simp_all
      · have habove : tree.isDir way = false := by simp [isDir, h]
        have hfound' : tree.resolve false maxLinks [] way ≠ .error .notFound := by simpa [h] using hfound
        rw [makeMissing, makeMissing_of_blocked habove hfound']
        cases error with
        | notFound => exact absurd rfl hfound
        | notADirectory | tooManyLinks => simp [hlast]

/-- Nothing but what is made changes. -/
theorem node_makeMissing (tree : FileTree Name) (above : List (PathComponent Name)) {place : List Name}
    (h : place ∉ (tree.makeMissing above).1.made) : (tree.makeMissing above).1.tree.node place = tree.node place := by
  induction above with
  | nil => rfl
  | cons last above ih =>
    rw [makeMissing] at h ⊢
    generalize tree.makeMissing above = state at ih h ⊢
    obtain ⟨making, complete⟩ := state
    cases complete with
    | false => exact ih h
    | true =>
      simp only at ih h ⊢
      split_ifs at h ⊢ with hlast
      · exact ih h
      · have hcases := mkdir_cases making.tree above.reverse last
        rw [reverse_cons] at h ⊢
        generalize making.tree.mkdir (above.reverse ++ [last]) = result at hcases h ⊢
        cases hcases with
        | made parent name hparent hdir hnone hname =>
          simp only [mem_append, mem_singleton, not_or] at h
          have hsame := ih h.1
          simp only [insert]
          rw [update_of_ne h.2, hsame]
        | lost | blocked | occupied => exact ih h

end FileTree
