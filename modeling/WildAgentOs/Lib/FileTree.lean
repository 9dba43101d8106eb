import Mathlib.Data.List.Basic
import Mathlib.Tactic

/-!
# Trees of files and the resolution of paths

A tree of directories, files and symbolic links, and the walk that the system resolves a path with: every link on the
way is replaced by its target, and `..` is the directory above the place that is reached.

* `FileTree`, `FileTree.IsReal`: what is there and is no link;
* `FileTree.walk`, `FileTree.resolve`: a walk that may follow a number of links, and that may end in a name that is
  still missing where it is to create a file;
* `resolve_append`, `resolve_real`, `resolve_mono`.
-/

inductive PathComponent (Name : Type*)
  | curDir
  | parentDir
  | normal (name : Name)
  deriving DecidableEq

/-- A path: the text between its slashes.  A slash at the end is a last `.`. -/
structure FilePath (Name : Type*) where
  absolute : Bool
  components : List (PathComponent Name)
  deriving DecidableEq

inductive FileNode (Name : Type*)
  | file
  | dir
  | link (target : FilePath Name)
  deriving DecidableEq

inductive PathError
  | notFound
  | notADirectory
  | tooManyLinks
  deriving DecidableEq

/-- What is at every place, which is named by its names from the root on. -/
structure FileTree (Name : Type*) where
  node : List Name → Option (FileNode Name)
  node_root : node [] = some .dir
  node_parent : ∀ place name, node (place ++ [name]) ≠ none → node place = some .dir

namespace FileTree

open List

variable {Name : Type*}

/-- A tree that is given by what is below its root. -/
def ofList [DecidableEq Name] (entries : List (List Name × FileNode Name))
    (h : ∀ entry ∈ entries, entry.1.dropLast = [] ∨ entries.lookup entry.1.dropLast = some .dir) : FileTree Name where
  node place := if place = [] then some .dir else entries.lookup place
  node_root := if_pos rfl
  node_parent place name hname := by
    rw [if_neg (append_ne_nil_of_right_ne_nil place (cons_ne_nil name []))] at hname
    obtain ⟨node, hnode⟩ := Option.ne_none_iff_exists'.1 hname
    obtain ⟨before, after, hsplit, -⟩ := lookup_eq_some_iff.1 hnode
    have hentry := h (place ++ [name], node) (hsplit ▸ mem_append_right before mem_cons_self)
    rw [dropLast_concat] at hentry
    split_ifs with hroot
    · rfl
    · exact hentry.resolve_left hroot

/-- The place that a path starts from. -/
def start (path : FilePath Name) (place : List Name) : List Name := if path.absolute then [] else place

/-- A walk from a place.  The rest of the way after a link is `follow`'s. -/
def walk (tree : FileTree Name) (creates : Bool) (follow : List Name → List (PathComponent Name) →
    Except PathError (List Name)) : List Name → List (PathComponent Name) → Except PathError (List Name)
  | place, [] => .ok place
  | place, component :: rest =>
    match tree.node place with
    | some .dir =>
      match component with
      | .curDir => tree.walk creates follow place rest
      | .parentDir => tree.walk creates follow place.dropLast rest
      | .normal name =>
        match tree.node (place ++ [name]) with
        | none => if creates ∧ rest = [] then .ok (place ++ [name]) else .error .notFound
        | some (.link target) => follow (start target place) (target.components ++ rest)
        | some _ => tree.walk creates follow (place ++ [name]) rest
    | _ => .error .notADirectory

/-- A walk that may follow a number of links. -/
def resolve (tree : FileTree Name) (creates : Bool) : ℕ → List Name → List (PathComponent Name) →
    Except PathError (List Name)
  | 0 => tree.walk creates fun _ _ => .error .tooManyLinks
  | links + 1 => tree.walk creates (tree.resolve creates links)

/-- The number of links that the system follows for one path. -/
def maxLinks : ℕ := 40

/-- The place of an existing file, `realpath`, and that which a path is opened at for reading. -/
def realpath (tree : FileTree Name) (cwd : List Name) (path : FilePath Name) : Except PathError (List Name) :=
  tree.resolve false maxLinks (start path cwd) path.components

/-- The place that a path is opened at for writing, where the file is created if it is missing. -/
def openCreate (tree : FileTree Name) (cwd : List Name) (path : FilePath Name) : Except PathError (List Name) :=
  tree.resolve true maxLinks (start path cwd) path.components

/-- The absolute path of names. -/
def pathOf (names : List Name) : FilePath Name := ⟨true, names.map .normal⟩

/-- A place where something is that is no link. -/
def IsReal (tree : FileTree Name) (place : List Name) : Prop :=
  tree.node place = some .dir ∨ tree.node place = some .file

/-- A directory of the tree. -/
structure Directory (tree : FileTree Name) where
  place : List Name
  node_place : tree.node place = some .dir

variable {tree : FileTree Name} {creates : Bool} {place : List Name}

theorem Directory.isReal (directory : tree.Directory) : tree.IsReal directory.place := .inl directory.node_place

theorem isReal_root : tree.IsReal [] := .inl tree.node_root

theorem IsReal.node_ne_none (h : tree.IsReal place) : tree.node place ≠ none := by
  rcases h with h | h <;> rw [h] <;> exact Option.some_ne_none _

theorem node_dir_of_append {rest : List Name} (hrest : rest ≠ []) (h : tree.node (place ++ rest) ≠ none) :
    tree.node place = some .dir := by
  induction rest using reverseRecOn with
  | nil => exact absurd rfl hrest
  | append_singleton rest name ih =>
    rw [← append_assoc] at h
    have hdir : tree.node (place ++ rest) = some .dir := tree.node_parent _ _ h
    cases rest with
    | nil => rwa [append_nil] at hdir
    | cons first rest => exact ih (cons_ne_nil _ _) (hdir ▸ Option.some_ne_none _)

theorem IsReal.dropLast (h : tree.IsReal place) : tree.IsReal place.dropLast := by
  induction place using reverseRecOn with
  | nil => exact h
  | append_singleton place name =>
    rw [dropLast_concat]
    exact .inl (tree.node_parent place name h.node_ne_none)

theorem IsReal.start (h : tree.IsReal place) (path : FilePath Name) : tree.IsReal (start path place) := by
  unfold FileTree.start
  split_ifs
  · exact isReal_root
  · exact h

/-! ### One component -/

variable {component : PathComponent Name} {target : FilePath Name}

section

variable {follow : List Name → List (PathComponent Name) → Except PathError (List Name)}
  {rest : List (PathComponent Name)} {name : Name}

theorem walk_missing (hdir : tree.node place = some .dir) (h : tree.node (place ++ [name]) = none) :
    tree.walk creates follow place (.normal name :: rest) =
      if creates ∧ rest = [] then .ok (place ++ [name]) else .error .notFound := by
  rw [walk, hdir]
  simp only [h]

theorem walk_link (hdir : tree.node place = some .dir) (h : tree.node (place ++ [name]) = some (.link target)) :
    tree.walk creates follow place (.normal name :: rest) =
      follow (start target place) (target.components ++ rest) := by
  rw [walk, hdir]
  simp only [h]

theorem walk_real (h : tree.IsReal (place ++ [name])) :
    tree.walk creates follow place (.normal name :: rest) = tree.walk creates follow (place ++ [name]) rest := by
  rw [walk, tree.node_parent place name h.node_ne_none]
  rcases h with h | h <;> simp only [h]

/-- **What a step of a walk can do**: stop where there is no directory, go on at a real place, stop or end at a missing
name, or follow a link. -/
inductive Steps (tree : FileTree Name) (place : List Name) : PathComponent Name → Prop
  | blocked {component : PathComponent Name} (h : tree.node place ≠ some .dir) : Steps tree place component
  | moves {component : PathComponent Name} (next : List Name) (hreal : tree.IsReal next)
      (h : ∀ (creates : Bool) (follow : List Name → List (PathComponent Name) → Except PathError (List Name)) rest,
        tree.walk creates follow place (component :: rest) = tree.walk creates follow next rest) :
      Steps tree place component
  | missing (name : Name) (hdir : tree.node place = some .dir) (h : tree.node (place ++ [name]) = none) :
      Steps tree place (.normal name)
  | links (name : Name) (target : FilePath Name) (hdir : tree.node place = some .dir)
      (h : tree.node (place ++ [name]) = some (.link target)) : Steps tree place (.normal name)

theorem walk_blocked (h : tree.node place ≠ some .dir) :
    tree.walk creates follow place (component :: rest) = .error .notADirectory := by
  unfold walk
  split
  · next hdir => exact absurd hdir h
  · rfl

theorem steps (tree : FileTree Name) (place : List Name) (component : PathComponent Name) :
    Steps tree place component := by
  by_cases hdir : tree.node place = some .dir
  · have hreal : tree.IsReal place := .inl hdir
    cases component with
    | curDir =>
      refine .moves place hreal fun creates follow rest => ?_
      rw [walk, hdir]
    | parentDir =>
      refine .moves place.dropLast hreal.dropLast fun creates follow rest => ?_
      rw [walk, hdir]
    | normal name =>
      cases hnode : tree.node (place ++ [name]) with
      | none => exact .missing name hdir hnode
      | some node =>
        cases node with
        | link target => exact .links name target hdir hnode
        | file => exact .moves (place ++ [name]) (.inr hnode) fun creates follow rest => walk_real (.inr hnode)
        | dir => exact .moves (place ++ [name]) (.inl hnode) fun creates follow rest => walk_real (.inl hnode)
  · exact .blocked hdir

end

/-! ### Whole walks -/

/-- The rest of the way after a link. -/
def afterLink (tree : FileTree Name) (creates : Bool) : ℕ → List Name → List (PathComponent Name) →
    Except PathError (List Name)
  | 0 => fun _ _ => .error .tooManyLinks
  | links + 1 => tree.resolve creates links

variable {links : ℕ} {way rest : List (PathComponent Name)}

theorem resolve_eq_walk : tree.resolve creates links = tree.walk creates (tree.afterLink creates links) := by
  cases links <;> rfl

@[simp] theorem resolve_nil : tree.resolve creates links place [] = .ok place := by
  rw [resolve_eq_walk, walk]

theorem resolve_blocked (h : tree.node place ≠ some .dir) :
    tree.resolve creates links place (component :: rest) = .error .notADirectory := by
  rw [resolve_eq_walk, walk_blocked h]

variable {name : Name}

theorem resolve_missing (hdir : tree.node place = some .dir) (h : tree.node (place ++ [name]) = none) :
    tree.resolve creates links place (.normal name :: rest) =
      if creates ∧ rest = [] then .ok (place ++ [name]) else .error .notFound := by
  rw [resolve_eq_walk, walk_missing hdir h]

theorem resolve_link (hdir : tree.node place = some .dir) (h : tree.node (place ++ [name]) = some (.link target)) :
    tree.resolve creates links place (.normal name :: rest) =
      tree.afterLink creates links (start target place) (target.components ++ rest) := by
  rw [resolve_eq_walk, walk_link hdir h]

/-- Induction along a walk: over its components, and over the links that it may still follow. -/
theorem resolve_induct (tree : FileTree Name) {P : ℕ → List Name → List (PathComponent Name) → Prop}
    (nil : ∀ links place, P links place [])
    (blocked : ∀ links place component rest, tree.node place ≠ some .dir → P links place (component :: rest))
    (moves : ∀ links place component rest next, tree.IsReal next →
      (∀ creates links rest, tree.resolve creates links place (component :: rest) =
        tree.resolve creates links next rest) → P links next rest → P links place (component :: rest))
    (missing : ∀ links place name rest, tree.node place = some .dir → tree.node (place ++ [name]) = none →
      P links place (.normal name :: rest))
    (link : ∀ links place name target rest, tree.node place = some .dir →
      tree.node (place ++ [name]) = some (.link target) →
      (∀ fewer, links = fewer + 1 → P fewer (start target place) (target.components ++ rest)) →
      P links place (.normal name :: rest)) (links : ℕ) (place : List Name) (way : List (PathComponent Name)) :
    P links place way := by
  induction links using Nat.strong_induction_on generalizing place way with
  | h links ihLinks =>
    induction way generalizing place with
    | nil => exact nil links place
    | cons component rest ih =>
      cases tree.steps place component with
      | blocked h => exact blocked links place component rest h
      | moves next hreal h =>
        refine moves links place component rest next hreal (fun creates links rest => ?_) (ih next)
        rw [resolve_eq_walk, h]
      | missing name hdir h => exact missing links place name rest hdir h
      | links name target hdir h =>
        exact link links place name target rest hdir h fun fewer hfewer =>
          ihLinks fewer (hfewer ▸ Nat.lt_succ_self fewer) _ _

variable {reached : List Name}

/-- A walk along two ways is one along the first, and on with the links that are left. -/
theorem resolve_append (h : tree.resolve false links place way = .ok reached) : ∃ fewer ≤ links, ∀ creates tail,
      tree.resolve creates links place (way ++ tail) = tree.resolve creates fewer reached tail := by
  revert h
  induction links, place, way using resolve_induct tree with
  | nil links place =>
    intro h
    rw [resolve_nil] at h
    cases h
    exact ⟨links, le_rfl, fun creates tail => rfl⟩
  | blocked links place component rest hblocked =>
    intro h
    rw [resolve_blocked hblocked] at h
    cases h
  | moves links place component rest next hreal hmove ih =>
    intro h
    obtain ⟨fewer, hfewer, happend⟩ := ih (hmove false links rest ▸ h)
    exact ⟨fewer, hfewer, fun creates tail => (hmove creates links (rest ++ tail)).trans (happend creates tail)⟩
  | missing links place name rest hdir hnone =>
    intro h
    rw [resolve_missing hdir hnone] at h
    cases h
  | link links place name target rest hdir hlink ih =>
    intro h
    rw [resolve_link hdir hlink] at h
    cases links with
    | zero => cases h
    | succ links =>
      obtain ⟨fewer, hfewer, happend⟩ := ih links rfl h
      refine ⟨fewer, Nat.le_succ_of_le hfewer, fun creates tail => ?_⟩
      rw [cons_append, resolve_link hdir hlink]
      exact append_assoc target.components rest tail ▸ happend creates tail

/-- More links change nothing for a walk that did not run out of them. -/
theorem resolve_mono {more : ℕ} (hmore : links ≤ more)
    (h : tree.resolve creates links place way ≠ .error .tooManyLinks) :
    tree.resolve creates more place way = tree.resolve creates links place way := by
  revert h more
  induction links, place, way using resolve_induct tree with
  | nil links place =>
    intro more hmore h
    rw [resolve_nil, resolve_nil]
  | blocked links place component rest hblocked =>
    intro more hmore h
    rw [resolve_blocked hblocked, resolve_blocked hblocked]
  | moves links place component rest next hreal hmove ih =>
    intro more hmore h
    rw [hmove] at h ⊢
    rw [hmove]
    exact ih hmore h
  | missing links place name rest hdir hnone =>
    intro more hmore h
    rw [resolve_missing hdir hnone, resolve_missing hdir hnone]
  | link links place name target rest hdir hlink ih =>
    intro more hmore h
    rw [resolve_link hdir hlink] at h ⊢
    rw [resolve_link hdir hlink]
    cases links with
    | zero => exact absurd rfl h
    | succ links =>
      cases more with
      | zero => omega
      | succ more => exact ih links rfl (Nat.le_of_succ_le_succ hmore) h

/-- A walk that fails does not get to what comes after it. -/
theorem resolve_append_error {tail : List (PathComponent Name)} {error : PathError}
    (htail : creates = false ∨ tail ≠ [])
    (h : tree.resolve false links place way = .error error) :
    tree.resolve creates links place (way ++ tail) = .error error := by
  revert h
  induction links, place, way using resolve_induct tree with
  | nil links place =>
    intro h
    rw [resolve_nil] at h
    cases h
  | blocked links place component rest hblocked =>
    intro h
    rw [resolve_blocked hblocked] at h
    rw [cons_append, resolve_blocked hblocked, h]
  | moves links place component rest next hreal hmove ih =>
    intro h
    rw [cons_append, hmove]
    exact ih (hmove false links rest ▸ h)
  | missing links place name rest hdir hnone =>
    intro h
    rw [resolve_missing hdir hnone, if_neg (by simp)] at h
    rw [cons_append, resolve_missing hdir hnone, if_neg, h]
    rintro ⟨hcreates, hnil⟩
    rcases htail with hfalse | htail
    · rw [hfalse] at hcreates
      cases hcreates
    · exact htail (append_eq_nil_iff.1 hnil).2
  | link links place name target rest hdir hlink ih =>
    intro h
    rw [resolve_link hdir hlink] at h
    rw [cons_append, resolve_link hdir hlink]
    cases links with
    | zero => exact h
    | succ links => exact append_assoc target.components rest tail ▸ ih links rfl h

/-- A walk that reads ends at a real place. -/
theorem isReal_of_resolve (hplace : tree.IsReal place)
    (h : tree.resolve false links place way = .ok reached) : tree.IsReal reached := by
  revert h hplace
  induction links, place, way using resolve_induct tree with
  | nil links place =>
    intro hplace h
    rw [resolve_nil] at h
    cases h
    exact hplace
  | blocked links place component rest hblocked =>
    intro hplace h
    rw [resolve_blocked hblocked] at h
    cases h
  | moves links place component rest next hreal hmove ih => exact fun hplace h => ih hreal (hmove false links rest ▸ h)
  | missing links place name rest hdir hnone =>
    intro hplace h
    rw [resolve_missing hdir hnone] at h
    cases h
  | link links place name target rest hdir hlink ih =>
    intro hplace h
    rw [resolve_link hdir hlink] at h
    cases links with
    | zero => cases h
    | succ links => exact ih links rfl (hplace.start target) h

/-- A real place is reached by its own names. -/
theorem resolve_real {names : List Name} (hreal : tree.IsReal names) (rest : List (PathComponent Name)) :
    tree.resolve creates links [] (names.map .normal ++ rest) = tree.resolve creates links names rest := by
  induction names using reverseRecOn generalizing rest with
  | nil => rfl
  | append_singleton names name ih =>
    have hparent : tree.IsReal names := .inl (tree.node_parent names name hreal.node_ne_none)
    rw [map_append, append_assoc, ih hparent, resolve_eq_walk]
    exact walk_real hreal

/-- What is above a real place is real. -/
theorem IsReal.above {above : List Name} (h : tree.IsReal place) (habove : above <+: place) : tree.IsReal above := by
  obtain ⟨rest, rfl⟩ := habove
  by_cases hrest : rest = []
  · rwa [hrest, append_nil] at h
  · exact .inl (node_dir_of_append hrest h.node_ne_none)

end FileTree
