import WildAgentOs.Lib.FileTree

/-!
# Paths in the workspace

`tools/workspace_path.rs`: a path is joined to the canonical workspace by its text, the longest part of it that exists
is made canonical, and the missing names are put back behind it.  A symbolic link whose target does not exist counts
as a missing name.

* `candidateOf`, `canonicalizeExistingPart`, `canonicalizePathWithinWorkspace`, `Contained`, `DanglesOutside`;
* `contained_iff`.
-/

namespace WildAgentOs.Tools.WorkspacePath

open FileTree List

variable {Name : Type*}

/-- What `canonicalize_path_within_workspace` fails with. -/
inductive WorkspaceError (Name : Type*)
  | unavailable (error : PathError)
  | unresolved (path : FilePath Name) (error : PathError)
  | rejected (path : FilePath Name) (workspace : List Name)

/-- The loop over the components: `..` is taken away by the text, whatever it would lead to. -/
def candidateOf (workspace : List Name) (path : FilePath Name) : List Name :=
  path.components.foldl (fun candidate component => match component with
    | .curDir => candidate
    | .parentDir => candidate.dropLast
    | .normal segment => candidate ++ [segment]) (start path workspace)

/-- `canonicalize_existing_prefix`, over the names in reverse, with the names that are missing so far. -/
def canonicalizeExistingPart (tree : FileTree Name) : List Name → List Name → Except PathError (List Name)
  | current, suffix =>
    match tree.realpath [] (pathOf current.reverse) with
    | .ok canonical => .ok (canonical ++ suffix)
    | .error .notFound =>
      match current with
      | [] => .error .notFound
      | name :: parent => canonicalizeExistingPart tree parent (name :: suffix)
    | .error error => .error error

def canonicalizePathWithinWorkspace [DecidableEq Name] (tree : FileTree Name) (cwd : tree.Directory)
    (path workspace : FilePath Name) : Except (WorkspaceError Name) (List Name) :=
  match tree.realpath cwd.place workspace with
  | .error error => .error (.unavailable error)
  | .ok workspace =>
    match canonicalizeExistingPart tree (candidateOf workspace path).reverse [] with
    | .error error => .error (.unresolved path error)
    | .ok canonical => if workspace <+: canonical then .ok canonical else .error (.rejected path workspace)

/-- **A path that is returned leads nowhere else**: what is opened at it for reading, and what is created or written
at it, is in the workspace. -/
def Contained [DecidableEq Name] (tree : FileTree Name) (cwd : tree.Directory) (path workspace : FilePath Name) :
    Prop :=
  ∀ p root, canonicalizePathWithinWorkspace tree cwd path workspace = .ok p →
    tree.realpath cwd.place workspace = .ok root →
    (∀ reached, tree.realpath cwd.place (pathOf p) = .ok reached → root <+: reached) ∧
      ∀ reached, tree.openCreate cwd.place (pathOf p) = .ok reached → root <+: reached

/-- The path is the name of a link in the workspace without an existing target, and what the target's names lead to
is a missing name outside. -/
def DanglesOutside (tree : FileTree Name) (root candidate : List Name) : Prop :=
  tree.realpath [] (pathOf candidate) = .error .notFound ∧
    ∃ parent name place target reached, candidate = parent ++ [name] ∧
      tree.realpath [] (pathOf parent) = .ok place ∧ root <+: place ∧
      tree.node (place ++ [name]) = some (.link target) ∧
      tree.resolve true (maxLinks - 1) (start target place) target.components = .ok reached ∧ ¬root <+: reached

/-- A name that counts as missing from a place: nothing is there, or a link whose target is missing. -/
def IsMissing (tree : FileTree Name) (place : List Name) (name : Name) : Prop :=
  tree.node (place ++ [name]) = none ∨ ∃ target, tree.node (place ++ [name]) = some (.link target) ∧
    tree.resolve false (maxLinks - 1) (start target place) target.components = .error .notFound

section

variable {tree : FileTree Name} {creates : Bool} {links : ℕ} {place : List Name} {rest : List Name}

theorem realpath_pathOf (cwd names : List Name) :
    tree.realpath cwd (pathOf names) = tree.resolve false maxLinks [] (names.map .normal) := rfl

theorem openCreate_pathOf (cwd names : List Name) :
    tree.openCreate cwd (pathOf names) = tree.resolve true maxLinks [] (names.map .normal) := rfl

/-- From a real place on, a path is walked from that place. -/
theorem resolve_place_append (hplace : tree.IsReal place) :
    tree.resolve creates links [] ((place ++ rest).map .normal) =
      tree.resolve creates links place (rest.map .normal) := by
  rw [map_append, resolve_real hplace]

theorem isReal_of_realpath {names reached : List Name} (h : tree.realpath [] (pathOf names) = .ok reached) :
    tree.IsReal reached := isReal_of_resolve isReal_root h

/-- What is left of a path when its longest existing part is canonical. -/
theorem canonicalizeExistingPart_eq_ok {current suffix p : List Name}
    (h : canonicalizeExistingPart tree current suffix = .ok p) :
    ∃ existing place missing, current.reverse = existing ++ missing ∧
      tree.realpath [] (pathOf existing) = .ok place ∧ p = place ++ missing ++ suffix ∧
      ∀ first more, missing = first :: more → tree.realpath [] (pathOf (existing ++ [first])) = .error .notFound := by
  induction current generalizing suffix with
  | nil =>
    unfold canonicalizeExistingPart at h
    cases hpath : tree.realpath [] (pathOf ([] : List Name).reverse) with
    | error error =>
      rw [hpath] at h
      cases error <;> cases h
    | ok place =>
      rw [hpath] at h
      cases h
      exact ⟨[], place, [], rfl, hpath, by rw [append_nil], fun first more h => nomatch h⟩
  | cons name parent ih =>
    unfold canonicalizeExistingPart at h
    cases hpath : tree.realpath [] (pathOf (name :: parent).reverse) with
    | ok place =>
      rw [hpath] at h
      cases h
      exact ⟨_, place, [], (append_nil _).symm, hpath, by rw [append_nil], fun first more h => nomatch h⟩
    | error error =>
      rw [hpath] at h
      cases error with
      | notADirectory => cases h
      | tooManyLinks => cases h
      | notFound =>
        obtain ⟨existing, place, missing, hsplit, hplace, hp, hfirst⟩ := ih h
        refine ⟨existing, place, missing ++ [name], ?_, hplace, ?_, fun first more hmissing => ?_⟩
        · rw [reverse_cons, hsplit, append_assoc]
        · rw [hp, append_assoc, append_assoc, append_assoc]
          rfl
        · cases missing with
          | nil =>
            obtain ⟨rfl, -⟩ := cons.inj hmissing
            rw [append_nil] at hsplit
            rwa [reverse_cons, hsplit] at hpath
          | cons first' rest =>
            obtain ⟨rfl, -⟩ := cons.inj hmissing
            exact hfirst first' rest rfl

variable {first : Name}

theorem isMissing_of_realpath {existing : List Name} (hplace : tree.realpath [] (pathOf existing) = .ok place)
    (hmissing : tree.realpath [] (pathOf (existing ++ [first])) = .error .notFound) :
    tree.node place = some .dir ∧ IsMissing tree place first := by
  obtain ⟨fewer, hfewer, happend⟩ := resolve_append hplace
  have hfirst : tree.resolve false fewer place [.normal first] = .error .notFound := by
    rw [← happend false, ← hmissing, realpath_pathOf, map_append]
    rfl
  cases tree.steps place (.normal first) with
  | blocked h =>
    rw [resolve_blocked h] at hfirst
    cases hfirst
  | moves next hreal h =>
    rw [resolve_eq_walk, h, ← resolve_eq_walk, resolve_nil] at hfirst
    cases hfirst
  | missing _ hdir h => exact ⟨hdir, .inl h⟩
  | links _ target hdir h =>
    refine ⟨hdir, .inr ⟨target, h, ?_⟩⟩
    rw [resolve_link hdir h, append_nil] at hfirst
    cases fewer with
    | zero => cases hfirst
    | succ fewer =>
      replace hfirst : tree.resolve false fewer (start target place) target.components = .error .notFound := hfirst
      rw [resolve_mono (Nat.le_sub_one_of_lt hfewer) (hfirst ▸ by simp), hfirst]

/-- A path with missing names cannot be read. -/
theorem realpath_missing {more : List Name} (hplace : tree.IsReal place)
    (hdir : tree.node place = some .dir) (h : IsMissing tree place first) :
    tree.resolve false maxLinks [] ((place ++ first :: more).map .normal) = .error .notFound := by
  rw [resolve_place_append hplace, map_cons]
  rcases h with hnone | ⟨target, hlink, htarget⟩
  · rw [resolve_missing hdir hnone, if_neg (by simp)]
  · rw [resolve_link hdir hlink]
    exact resolve_append_error (.inl rfl) htarget

/-- A file is created at a path with missing names only if there is one, and if that is a link, then where the
target of the link is missing. -/
theorem openCreate_missing {more reached : List Name} (hplace : tree.IsReal place)
    (hdir : tree.node place = some .dir) (h : IsMissing tree place first)
    (hopen : tree.resolve true maxLinks [] ((place ++ first :: more).map .normal) = .ok reached) :
    more = [] ∧ (reached = place ++ [first] ∨
      ∃ target, tree.node (place ++ [first]) = some (.link target) ∧
        tree.resolve true (maxLinks - 1) (start target place) target.components = .ok reached) := by
  rw [resolve_place_append hplace, map_cons] at hopen
  rcases h with hnone | ⟨target, hlink, htarget⟩
  · rw [resolve_missing hdir hnone] at hopen
    split_ifs at hopen with hmore
    cases hopen
    exact ⟨map_eq_nil_iff.1 hmore.2, .inl rfl⟩
  · rw [resolve_link hdir hlink] at hopen
    by_cases hmore : more = []
    · rw [hmore, map_nil, append_nil] at hopen
      exact ⟨hmore, .inr ⟨target, hlink, hopen⟩⟩
    · have htail : more.map PathComponent.normal ≠ [] := mt map_eq_nil_iff.1 hmore
      have hfails := @resolve_append_error Name tree true _ _ _ _ _ (.inr htail) htarget
      cases hopen.symm.trans hfails

/-- The root is above the existing part: it is real, so the first missing name is none of its own. -/
theorem root_above_place {root more : List Name} (hreal : tree.IsReal root)
    (hbelow : root <+: place ++ first :: more) (hmissing : IsMissing tree place first) : root <+: place := by
  rcases prefix_or_prefix_of_prefix hbelow (prefix_append place (first :: more)) with h | h
  · exact h
  · obtain ⟨tail, rfl⟩ := h
    cases tail with
    | nil => rw [append_nil]
    | cons name tail =>
      rw [prefix_append_right_inj] at hbelow
      obtain ⟨rfl, -⟩ := cons_prefix_cons.1 hbelow
      have habove : place ++ [name] <+: place ++ name :: tail := (prefix_append_right_inj place).2 ⟨tail, rfl⟩
      have hname := hreal.above habove
      rcases hmissing with hnone | ⟨target, hlink, -⟩
      · exact absurd hnone hname.node_ne_none
      · rcases hname with h | h <;> cases hlink.symm.trans h

end

variable [DecidableEq Name] {tree : FileTree Name} {cwd : tree.Directory} {path workspace : FilePath Name}

/-- What the call returns: the canonical place of an existing part in the workspace, and the names behind it. -/
theorem canonicalize_eq_ok {p root : List Name} (hroot : tree.realpath cwd.place workspace = .ok root)
    (h : canonicalizePathWithinWorkspace tree cwd path workspace = .ok p) :
    root <+: p ∧ canonicalizeExistingPart tree (candidateOf root path).reverse [] = .ok p := by
  unfold canonicalizePathWithinWorkspace at h
  rw [hroot] at h
  simp only at h
  cases hpart : canonicalizeExistingPart tree (candidateOf root path).reverse [] with
  | error error =>
    rw [hpart] at h
    cases h
  | ok canonical =>
    rw [hpart] at h
    simp only at h
    split_ifs at h with hbelow
    cases h
    exact ⟨hbelow, rfl⟩

/-- **A path leads nowhere else exactly where it is not the name of a dangling link that leads out of the
workspace.** -/
theorem contained_iff : Contained tree cwd path workspace ↔
    ∀ root, tree.realpath cwd.place workspace = .ok root → ¬DanglesOutside tree root (candidateOf root path) := by
  constructor
  · rintro h root hroot ⟨hmissing, parent, name, place, target, reached, hcandidate, hplace, hbelow, hlink, hreached,
      houtside⟩
    have hcanonical : canonicalizePathWithinWorkspace tree cwd path workspace = .ok (place ++ [name]) := by
      unfold canonicalizePathWithinWorkspace
      rw [hroot]
      simp only
      have hpart : canonicalizeExistingPart tree (candidateOf root path).reverse [] = .ok (place ++ [name]) := by
        have hreverse : (candidateOf root path).reverse = name :: parent.reverse := by
          rw [hcandidate, reverse_append]
          rfl
        rw [← reverse_reverse (candidateOf root path), hreverse] at hmissing
        rw [hreverse, canonicalizeExistingPart, hmissing]
        simp only
        unfold canonicalizeExistingPart
        rw [reverse_reverse, hplace]
      rw [hpart]
      exact if_pos (hbelow.trans (prefix_append place [name]))
    have hreal : tree.IsReal place := isReal_of_realpath hplace
    have hopen : tree.openCreate cwd.place (pathOf (place ++ [name])) = .ok reached := by
      rw [openCreate_pathOf, resolve_place_append hreal]
      have hdir : tree.node place = some .dir := tree.node_parent place name (hlink ▸ Option.some_ne_none _)
      rw [map_cons, resolve_link hdir hlink, map_nil, append_nil]
      exact hreached
    exact houtside ((h _ root hcanonical hroot).2 reached hopen)
  · intro h p root hp hroot
    have hsafe := h root hroot
    obtain ⟨hbelow, hpart⟩ := canonicalize_eq_ok hroot hp
    obtain ⟨existing, place, missing, hsplit, hplace, rfl, hfirst⟩ := canonicalizeExistingPart_eq_ok hpart
    rw [reverse_reverse] at hsplit
    rw [append_nil] at hbelow ⊢
    have hreal : tree.IsReal place := isReal_of_realpath hplace
    rw [realpath_pathOf, openCreate_pathOf]
    cases missing with
    | nil =>
      -- the path exists, and its canonical place holds no link
      rw [append_nil] at hbelow ⊢
      have hwalk : ∀ creates, tree.resolve creates maxLinks [] (place.map .normal) = .ok place := fun creates => by
        have := @resolve_place_append Name tree creates maxLinks place [] hreal
        rwa [append_nil, map_nil, resolve_nil] at this
      constructor <;> intro reached hreached <;> cases (hwalk _).symm.trans hreached <;> exact hbelow
    | cons first more =>
      have hnotFound := hfirst first more rfl
      obtain ⟨hdir, hmissing⟩ := isMissing_of_realpath hplace hnotFound
      have hrootReal : tree.IsReal root := isReal_of_resolve (cwd.isReal.start workspace) hroot
      have habove : root <+: place := root_above_place hrootReal hbelow hmissing
      refine ⟨fun reached hreached => ?_, fun reached hreached => ?_⟩
      · cases (realpath_missing hreal hdir hmissing).symm.trans hreached
      · obtain ⟨rfl, rfl | ⟨target, hlink, hreached⟩⟩ := openCreate_missing hreal hdir hmissing hreached
        · exact habove.trans (prefix_append place [first])
        · by_contra houtside
          exact hsafe ⟨hsplit ▸ hnotFound, existing, first, place, target, reached, hsplit, hplace, habove, hlink,
            hreached, houtside⟩

/-- A workspace with a link to a file outside it that does not exist yet. -/
def danglingTree : FileTree String :=
  ofList [(["workspace"], .dir), (["outside"], .dir),
    (["workspace", "notes"], .link ⟨true, [.normal "outside", .normal "notes"]⟩)] (by decide)

/-- The path `notes` is accepted, and what is written at it is written outside. -/
theorem not_contained_danglingTree : ¬Contained danglingTree ⟨["workspace"], rfl⟩ ⟨false, [.normal "notes"]⟩
    ⟨false, [.curDir]⟩ := by
  intro h
  have hreached := (h ["workspace", "notes"] ["workspace"] rfl rfl).2 ["outside", "notes"] rfl
  exact absurd hreached (by decide)

end WildAgentOs.Tools.WorkspacePath
