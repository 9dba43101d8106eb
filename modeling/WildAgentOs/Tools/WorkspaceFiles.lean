import WildAgentOs.Lib.Bincode
import WildAgentOs.Lib.DirectoryMaking
import WildAgentOs.Lib.Text

/-!
# File tools in a workspace

`tools/builtin/file_ops.rs`: a file is read, written and edited at the path that its normalization gives, and before
that the same normalization is compared with the canonical workspace root.  What exists is normalized to its real
place; what does not keeps its last name behind the real place of its parent, and all of its names as they are written
where the parent is missing too.

* `Disk`, `Disk.read`, `Disk.write`, `normalizePath`, `normalizePathAllowMissing`, `validateWorkspaceBoundary`;
* `readFileInWorkspace`, `writeFileInWorkspace`, `editFileInWorkspace`, with all that they create or change;
* `Contained`, `StaysInside`;
* `writeFile_frame`, `editFile_frame`: nothing else changes;
* `operations_contained_iff`.
-/

namespace WildAgentOs.Tools.WorkspaceFiles

open FileTree Bincode LittleEndian List Function

variable {Name : Type*} [DecidableEq Name]

inductive ErrorKind
  | invalidData
  | invalidInput
  | notFound
  deriving DecidableEq

inductive FileError (Name : Type*)
  | path (error : PathError)
  | make (error : MakeError)
  | isADirectory
  | notUtf8
  | other (kind : ErrorKind) (message : String)
  /-- Permission denied: the path escapes the workspace boundary. -/
  | escapes (resolved root : FilePath Name)
  deriving DecidableEq

/-- The tree of the files, and the bytes of every file. -/
structure Disk (Name : Type*) where
  tree : FileTree Name
  bytes : List Name → Bytes

/-- All bytes of the file that an absolute path leads to. -/
def Disk.read (disk : Disk Name) (path : FilePath Name) : Except (FileError Name) Bytes :=
  match disk.tree.realpath [] path with
  | .error error => .error (.path error)
  | .ok place => if disk.tree.node place = some .dir then .error .isADirectory else .ok (disk.bytes place)

def Disk.readToString (disk : Disk Name) (path : FilePath Name) : Except (FileError Name) String :=
  match disk.read path with
  | .error error => .error error
  | .ok bytes =>
    match ofUtf8 bytes with
    | some text => .ok text
    | none => .error .notUtf8

/-- `fs::write`, with the place of the file. -/
def Disk.write (disk : Disk Name) (path : FilePath Name) (content : String) :
    Except (FileError Name) (Disk Name × List Name) :=
  match disk.tree.openCreate [] path with
  | .error error => .error (.path error)
  | .ok place =>
    if disk.tree.node place = some .dir then .error .isADirectory
    else .ok (⟨disk.tree.withFile place, update disk.bytes place (utf8 content)⟩, place)

/-! ### Paths -/

/-- `Path::components`, of an absolute path: a `.` is none. -/
def components (path : FilePath Name) : List (PathComponent Name) := path.components.filter (· ≠ .curDir)

/-- `Path::parent`, of an absolute path. -/
def parent (path : FilePath Name) : Option (FilePath Name) :=
  if components path = [] then none else some ⟨true, (components path).dropLast⟩

/-- `Path::file_name`, of an absolute path. -/
def fileName (path : FilePath Name) : Option Name :=
  match (components path).getLast? with
  | some (.normal name) => some name
  | _ => none

/-- `Path::join`, with a name. -/
def join (path : FilePath Name) (name : Name) : FilePath Name := ⟨path.absolute, path.components ++ [.normal name]⟩

/-- `Path::starts_with`, of an absolute path. -/
def startsWith (path root : FilePath Name) : Bool :=
  if root.absolute then decide (components root <+: components path) else decide (root.components = [])

/-- `Path::canonicalize`.  Nothing is at the empty path. -/
def canonicalize (tree : FileTree Name) (cwd : List Name) (path : FilePath Name) : Except PathError (FilePath Name) :=
  if path.absolute = false ∧ path.components = [] then .error .notFound else (tree.realpath cwd path).map pathOf

/-- The path behind the current directory, where it is not absolute. -/
def candidateOf (cwd : List Name) (path : FilePath Name) : FilePath Name :=
  if path.absolute then path else ⟨true, cwd.map .normal ++ path.components⟩

def normalizePath (tree : FileTree Name) (cwd : List Name) (path : FilePath Name) : Except PathError (FilePath Name) :=
  canonicalize tree cwd (candidateOf cwd path)

def normalizePathAllowMissing (tree : FileTree Name) (cwd : List Name) (path : FilePath Name) : FilePath Name :=
  match canonicalize tree cwd (candidateOf cwd path) with
  | .ok canonical => canonical
  | .error _ =>
    match parent (candidateOf cwd path), fileName (candidateOf cwd path) with
    | some above, some name => join ((canonicalize tree cwd above).toOption.getD above) name
    | _, _ => candidateOf cwd path

/-- The workspace root that paths are compared with: as it is written where it does not exist. -/
def canonicalRoot (tree : FileTree Name) (cwd : List Name) (workspaceRoot : FilePath Name) : FilePath Name :=
  (canonicalize tree cwd workspaceRoot).toOption.getD workspaceRoot

def validateWorkspaceBoundary (resolved workspaceRoot : FilePath Name) : Except (FileError Name) Unit :=
  if startsWith resolved workspaceRoot then .ok () else .error (.escapes resolved workspaceRoot)

/-! ### Reading -/

def maxReadSize : ℕ := 10 * 1024 * 1024

def maxWriteSize : ℕ := 10 * 1024 * 1024

structure TextFilePayload (Name : Type*) where
  filePath : FilePath Name
  content : String
  numLines : ℕ
  startLine : ℕ
  totalLines : ℕ

structure ReadFileOutput (Name : Type*) where
  kind : String
  file : TextFilePayload Name

/-- `is_binary_file`, of the bytes. -/
def isBinaryFile (bytes : Bytes) : Bool := (bytes.take 8192).contains 0

/-- The lines of a text from `offset` on, `limit` of them at most. -/
def window (filePath : FilePath Name) (text : String) (offset limit : Option ℕ) : ReadFileOutput Name :=
  let lines := Text.lines text.toList
  let startIndex := min (offset.getD 0) lines.length
  let endIndex := match limit with
    | none => lines.length
    | some limit => min (startIndex + limit) lines.length
  { kind := "text"
    file :=
      { filePath
        content := String.ofList (['\n'].intercalate ((lines.take endIndex).drop startIndex))
        numLines := endIndex - startIndex
        startLine := startIndex + 1
        totalLines := lines.length } }

def readFile (disk : Disk Name) (cwd : List Name) (path : FilePath Name) (offset limit : Option ℕ) :
    Except (FileError Name) (ReadFileOutput Name) :=
  match normalizePath disk.tree cwd path with
  | .error error => .error (.path error)
  | .ok absolutePath =>
    match disk.read absolutePath with
    | .error error => .error error
    | .ok bytes =>
      if maxReadSize < bytes.length then
        .error (.other .invalidData s!"file is too large ({bytes.length} bytes, max {maxReadSize} bytes)")
      else if isBinaryFile bytes then .error (.other .invalidData "file appears to be binary")
      else
        match disk.readToString absolutePath with
        | .error error => .error error
        | .ok text => .ok (window absolutePath text offset limit)

def readFileInWorkspace (disk : Disk Name) (cwd : List Name) (path : FilePath Name) (offset limit : Option ℕ)
    (workspaceRoot : FilePath Name) : Except (FileError Name) (ReadFileOutput Name) :=
  match normalizePath disk.tree cwd path with
  | .error error => .error (.path error)
  | .ok absolutePath =>
    match validateWorkspaceBoundary absolutePath (canonicalRoot disk.tree cwd workspaceRoot) with
    | .error error => .error error
    | .ok () => readFile disk cwd path offset limit

/-! ### Writing -/

/-- What an operation ends with: its result, the disk that it leaves, and the places where it created or changed
something. -/
structure Outcome (Name : Type*) (α : Type*) where
  result : Except (FileError Name) α
  disk : Disk Name
  touched : List (List Name)

structure StructuredPatchHunk where
  oldStart : ℕ
  oldLines : ℕ
  newStart : ℕ
  newLines : ℕ
  lines : List String

def makePatch (original updated : String) : List StructuredPatchHunk :=
  let oldLines := Text.lines original.toList
  let newLines := Text.lines updated.toList
  [{ oldStart := 1
     oldLines := oldLines.length
     newStart := 1
     newLines := newLines.length
     lines := oldLines.map (fun line => String.ofList ('-' :: line)) ++
       newLines.map fun line => String.ofList ('+' :: line) }]

structure WriteFileOutput (Name : Type*) where
  kind : String
  filePath : FilePath Name
  content : String
  structuredPatch : List StructuredPatchHunk
  originalFile : Option String

/-- The directories of a path, all of which are made. -/
def createParent (tree : FileTree Name) (path : FilePath Name) : Making Name × Option MakeError :=
  match parent path with
  | none => (⟨tree, []⟩, none)
  | some above => tree.createDirAll above.components.reverse

/-- `write_file`, at a path that is normalized. -/
def writeAt (disk : Disk Name) (absolutePath : FilePath Name) (content : String) :
    Outcome Name (WriteFileOutput Name) :=
  let originalFile := (disk.readToString absolutePath).toOption
  match createParent disk.tree absolutePath with
  | (making, some error) => ⟨.error (.make error), ⟨making.tree, disk.bytes⟩, making.made⟩
  | (making, none) =>
    match Disk.write ⟨making.tree, disk.bytes⟩ absolutePath content with
    | .error error => ⟨.error error, ⟨making.tree, disk.bytes⟩, making.made⟩
    | .ok (written, place) =>
      { result := .ok
          { kind := if originalFile.isSome then "update" else "create"
            filePath := absolutePath
            content
            structuredPatch := makePatch (originalFile.getD "") content
            originalFile }
        disk := written
        touched := making.made ++ [place] }

def writeFile (disk : Disk Name) (cwd : List Name) (path : FilePath Name) (content : String) :
    Outcome Name (WriteFileOutput Name) :=
  if maxWriteSize < content.utf8ByteSize then
    { result := .error (.other .invalidData
        s!"content is too large ({content.utf8ByteSize} bytes, max {maxWriteSize} bytes)")
      disk
      touched := [] }
  else writeAt disk (normalizePathAllowMissing disk.tree cwd path) content

def writeFileInWorkspace (disk : Disk Name) (cwd : List Name) (path : FilePath Name) (content : String)
    (workspaceRoot : FilePath Name) : Outcome Name (WriteFileOutput Name) :=
  match validateWorkspaceBoundary (normalizePathAllowMissing disk.tree cwd path)
      (canonicalRoot disk.tree cwd workspaceRoot) with
  | .error error => ⟨.error error, disk, []⟩
  | .ok () => writeFile disk cwd path content

structure EditFileOutput (Name : Type*) where
  filePath : FilePath Name
  oldString : String
  newString : String
  originalFile : String
  structuredPatch : List StructuredPatchHunk
  userModified : Bool
  replaceAll : Bool

/-- `str::replace`: the empty text occurs before every character and at the end. -/
def replaceAllIn (pat rep s : List Char) : List Char :=
  if pat = [] then rep ++ s.flatMap (fun c => c :: rep) else Text.replace pat rep s

/-- `str::replacen`, of the first occurrence. -/
def replaceFirstIn (pat rep : List Char) : List Char → List Char
  | [] => if pat = [] then rep else []
  | c :: s => if pat <+: c :: s then rep ++ (c :: s).drop pat.length else c :: replaceFirstIn pat rep s

def editFile (disk : Disk Name) (cwd : List Name) (path : FilePath Name) (oldString newString : String)
    (replaceAll : Bool) : Outcome Name (EditFileOutput Name) :=
  match normalizePath disk.tree cwd path with
  | .error error => ⟨.error (.path error), disk, []⟩
  | .ok absolutePath =>
    match disk.readToString absolutePath with
    | .error error => ⟨.error error, disk, []⟩
    | .ok originalFile =>
      if oldString = newString then
        ⟨.error (.other .invalidInput "old_string and new_string must differ"), disk, []⟩
      else if ¬oldString.toList <:+: originalFile.toList then
        ⟨.error (.other .notFound "old_string not found in file"), disk, []⟩
      else
        let replace := if replaceAll then replaceAllIn else replaceFirstIn
        let updated := String.ofList (replace oldString.toList newString.toList originalFile.toList)
        match disk.write absolutePath updated with
        | .error error => ⟨.error error, disk, []⟩
        | .ok (written, place) =>
          { result := .ok
              { filePath := absolutePath
                oldString
                newString
                originalFile
                structuredPatch := makePatch originalFile updated
                userModified := false
                replaceAll }
            disk := written
            touched := [place] }

def editFileInWorkspace (disk : Disk Name) (cwd : List Name) (path : FilePath Name) (oldString newString : String)
    (replaceAll : Bool) (workspaceRoot : FilePath Name) : Outcome Name (EditFileOutput Name) :=
  match normalizePath disk.tree cwd path with
  | .error error => ⟨.error (.path error), disk, []⟩
  | .ok absolutePath =>
    match validateWorkspaceBoundary absolutePath (canonicalRoot disk.tree cwd workspaceRoot) with
    | .error error => ⟨.error error, disk, []⟩
    | .ok () => editFile disk cwd path oldString newString replaceAll

/-! ### What stays inside -/

/-- A place is below the workspace root. -/
def Inside (root : FilePath Name) (place : List Name) : Prop := startsWith (pathOf place) root = true

/-- **The operations stay inside**: all that a write or an edit creates or changes, also one that fails, is below the
canonical workspace root, and what a read returns does not depend on any file elsewhere. -/
structure Contained (disk : Disk Name) (cwd : List Name) (path workspaceRoot : FilePath Name) : Prop where
  write : ∀ content, ∀ place ∈ (writeFileInWorkspace disk cwd path content workspaceRoot).touched,
    Inside (canonicalRoot disk.tree cwd workspaceRoot) place
  edit : ∀ oldString newString replaceAll, ∀ place ∈
    (editFileInWorkspace disk cwd path oldString newString replaceAll workspaceRoot).touched,
    Inside (canonicalRoot disk.tree cwd workspaceRoot) place
  read : ∀ bytes, (∀ place, Inside (canonicalRoot disk.tree cwd workspaceRoot) place →
    bytes place = disk.bytes place) → ∀ offset limit,
    readFileInWorkspace ⟨disk.tree, bytes⟩ cwd path offset limit workspaceRoot =
      readFileInWorkspace disk cwd path offset limit workspaceRoot

/-- The directories that are missing on the way to a path would be made below the root, and so would the file at its
end. -/
structure MakesInside (tree : FileTree Name) (root path : FilePath Name) : Prop where
  made : ∀ place ∈ (tree.makeMissing (components path).dropLast.reverse).1.made, Inside root place
  file : (tree.makeMissing (components path).dropLast.reverse).2 = true → ∀ place,
    (tree.makeMissing (components path).dropLast.reverse).1.tree.openCreate [] path = .ok place →
    (tree.makeMissing (components path).dropLast.reverse).1.tree.node place ≠ some .dir → Inside root place

/-- When a write stays inside. -/
inductive StaysInside (tree : FileTree Name) (root candidate : FilePath Name) : Prop
  /-- Something is at the path. -/
  | found (place : List Name) (h : tree.realpath [] candidate = .ok place)
  /-- The last name is missing in a place, or is a link, which is followed. -/
  | named (name : Name) (place : List Name) (hname : fileName candidate = some name)
      (hplace : tree.realpath [] ⟨true, (components candidate).dropLast⟩ = .ok place)
      (h : Inside root (place ++ [name]) → ∀ reached,
        tree.resolve true maxLinks place [.normal name] = .ok reached → tree.node reached ≠ some .dir →
        Inside root reached)
  /-- There is no place for the last name: the path is taken as it is written. -/
  | lost (name : Name) (error : PathError) (hname : fileName candidate = some name)
      (hplace : tree.realpath [] ⟨true, (components candidate).dropLast⟩ = .error error)
      (h : startsWith candidate root = true → MakesInside tree root ⟨true, components candidate⟩)
  /-- There is no last name: the path is taken as it is written. -/
  | unnamed (hname : fileName candidate = none)
      (h : startsWith candidate root = true → MakesInside tree root candidate)

section

variable {disk : Disk Name} {tree : FileTree Name} {cwd place : List Name} {path root : FilePath Name}

/-! ### Paths of real places -/

theorem components_pathOf (place : List Name) : components (pathOf place) = place.map .normal := by
  unfold components pathOf
  rw [filter_eq_self]
  intro component hcomponent
  obtain ⟨name, -, rfl⟩ := mem_map.1 hcomponent
  rfl

omit [DecidableEq Name] in
/-- A real place is walked by its names. -/
theorem resolve_pathOf {creates : Bool} (h : tree.IsReal place) :
    tree.resolve creates maxLinks [] (place.map .normal) = .ok place := by
  have hwalk : tree.resolve creates maxLinks [] (place.map .normal ++ []) = tree.resolve creates maxLinks place [] :=
    resolve_real h []
  rwa [append_nil, resolve_nil] at hwalk

omit [DecidableEq Name] in
theorem candidateOf_absolute (cwd : List Name) (path : FilePath Name) : (candidateOf cwd path).absolute = true := by
  unfold candidateOf
  split_ifs with h
  · exact h
  · rfl

omit [DecidableEq Name] in
theorem canonicalize_absolute (cwd : List Name) (h : path.absolute = true) :
    canonicalize tree cwd path = (tree.realpath [] path).map pathOf := by
  unfold canonicalize realpath start
  rw [if_neg (by simp [h]), h, if_pos rfl]
  simp

omit [DecidableEq Name] in
theorem normalizePath_eq (tree : FileTree Name) (cwd : List Name) (path : FilePath Name) :
    normalizePath tree cwd path = (tree.realpath [] (candidateOf cwd path)).map pathOf :=
  canonicalize_absolute cwd (candidateOf_absolute cwd path)

omit [DecidableEq Name] in
/-- What normalization returns is the path of a real place. -/
theorem normalizePath_eq_ok {absolutePath : FilePath Name} (h : normalizePath tree cwd path = .ok absolutePath) :
    ∃ place, absolutePath = pathOf place ∧ tree.IsReal place := by
  rw [normalizePath_eq] at h
  cases hplace : tree.realpath [] (candidateOf cwd path) with
  | error error =>
    rw [hplace] at h
    cases h
  | ok place =>
    rw [hplace] at h
    cases h
    exact ⟨place, rfl, isReal_of_resolve (isReal_root.start _) hplace⟩

theorem validateWorkspaceBoundary_pathOf (place : List Name) (root : FilePath Name) :
    validateWorkspaceBoundary (pathOf place) root = .ok () ↔ Inside root place := by
  unfold validateWorkspaceBoundary Inside
  split_ifs with h <;> simp [h]

/-! ### What changes -/

theorem createParent_eq (tree : FileTree Name) (path : FilePath Name) :
    (createParent tree path).1 = (tree.makeMissing (components path).dropLast.reverse).1 ∧
      ((createParent tree path).2 = none ↔ (tree.makeMissing (components path).dropLast.reverse).2 = true) := by
  unfold createParent parent
  by_cases hnil : components path = []
  · rw [if_pos hnil, hnil]
    simp [makeMissing]
  · rw [if_neg hnil]
    exact createDirAll_eq tree (components path).dropLast

variable {content : String}

theorem write_eq_ok {written : Disk Name} (h : disk.write path content = .ok (written, place)) :
    disk.tree.openCreate [] path = .ok place ∧ disk.tree.node place ≠ some .dir ∧
      written = ⟨disk.tree.withFile place, update disk.bytes place (utf8 content)⟩ := by
  unfold Disk.write at h
  cases hopen : disk.tree.openCreate [] path with
  | error error =>
    rw [hopen] at h
    cases h
  | ok reached =>
    rw [hopen] at h
    simp only at h
    split_ifs at h with hdir
    cases h
    exact ⟨rfl, hdir, rfl⟩

/-- A write changes nothing but what it touches. -/
theorem writeAt_frame (h : place ∉ (writeAt disk path content).touched) :
    (writeAt disk path content).disk.tree.node place = disk.tree.node place ∧
      (writeAt disk path content).disk.bytes place = disk.bytes place := by
  have hmade : place ∉ (createParent disk.tree path).1.made →
      (createParent disk.tree path).1.tree.node place = disk.tree.node place := by
    rw [(createParent_eq disk.tree path).1]
    exact node_makeMissing disk.tree _
  unfold writeAt at h ⊢
  generalize createParent disk.tree path = parents at h hmade ⊢
  obtain ⟨making, failure⟩ := parents
  cases failure with
  | some error => exact ⟨hmade h, rfl⟩
  | none =>
    simp only at h hmade ⊢
    cases hwrite : Disk.write ⟨making.tree, disk.bytes⟩ path content with
    | error error =>
      rw [hwrite] at h
      exact ⟨hmade h, rfl⟩
    | ok result =>
      obtain ⟨written, reached⟩ := result
      obtain ⟨-, -, rfl⟩ := write_eq_ok hwrite
      rw [hwrite] at h
      simp only [mem_append, mem_singleton, not_or] at h ⊢
      exact ⟨(node_withFile h.2).trans (hmade h.1), update_of_ne h.2 _ _⟩

theorem writeFile_frame (h : place ∉ (writeFile disk cwd path content).touched) :
    (writeFile disk cwd path content).disk.tree.node place = disk.tree.node place ∧
      (writeFile disk cwd path content).disk.bytes place = disk.bytes place := by
  unfold writeFile at h ⊢
  split_ifs at h ⊢
  · exact ⟨rfl, rfl⟩
  · exact writeAt_frame h

/-- **What an edit does**: it fails and changes nothing, or it writes at the place of the file. -/
inductive Edited (disk : Disk Name) (cwd : List Name) (path : FilePath Name) : Outcome Name (EditFileOutput Name) → Prop
  | failed (error : FileError Name) : Edited disk cwd path ⟨.error error, disk, []⟩
  | written (place : List Name) (output : EditFileOutput Name) (content : String)
      (h : normalizePath disk.tree cwd path = .ok (pathOf place)) (hplace : disk.tree.IsReal place) :
      Edited disk cwd path
        ⟨.ok output, ⟨disk.tree.withFile place, update disk.bytes place (utf8 content)⟩, [place]⟩

theorem editFile_cases (disk : Disk Name) (cwd : List Name) (path : FilePath Name) (oldString newString : String)
    (replaceAll : Bool) : Edited disk cwd path (editFile disk cwd path oldString newString replaceAll) := by
  unfold editFile
  cases hpath : normalizePath disk.tree cwd path with
  | error error => exact .failed _
  | ok absolutePath =>
    obtain ⟨place, rfl, hreal⟩ := normalizePath_eq_ok hpath
    simp only
    cases hread : disk.readToString (pathOf place) with
    | error error => exact .failed _
    | ok originalFile =>
      simp only
      by_cases hsame : oldString = newString
      · rw [if_pos hsame]
        exact .failed _
      · rw [if_neg hsame]
        by_cases hfound : oldString.toList <:+: originalFile.toList
        · rw [if_neg (by simpa using hfound)]
          generalize String.ofList _ = updated
          cases hwrite : disk.write (pathOf place) updated with
          | error error => exact .failed error
          | ok result =>
            obtain ⟨written, reached⟩ := result
            obtain ⟨hopen, -, rfl⟩ := write_eq_ok hwrite
            obtain rfl : place = reached := Except.ok.inj ((resolve_pathOf hreal).symm.trans hopen)
            exact .written place _ _ hpath hreal
        · rw [if_pos hfound]
          exact .failed _

variable {oldString newString : String} {replaceAll : Bool}

theorem touched_writeAt (disk : Disk Name) (root path : FilePath Name) (content : String) :
    (∀ place ∈ (writeAt disk path content).touched, Inside root place) ↔ MakesInside disk.tree root path := by
  obtain ⟨hmaking, hcomplete⟩ := createParent_eq disk.tree path
  have hiff : MakesInside disk.tree root path ↔
      (∀ place ∈ (createParent disk.tree path).1.made, Inside root place) ∧
        ((createParent disk.tree path).2 = none → ∀ place,
          (createParent disk.tree path).1.tree.openCreate [] path = .ok place →
          (createParent disk.tree path).1.tree.node place ≠ some .dir → Inside root place) := by
    rw [hmaking, hcomplete]
    exact ⟨fun h => ⟨h.made, h.file⟩, fun h => ⟨h.1, h.2⟩⟩
  rw [hiff]
  unfold writeAt
  generalize createParent disk.tree path = parents
  obtain ⟨making, failure⟩ := parents
  cases failure with
  | some error => simp
  | none =>
    simp only
    unfold Disk.write
    cases hopen : making.tree.openCreate [] path with
    | error error => simp
    | ok reached =>
      simp only
      by_cases hdir : making.tree.node reached = some .dir
      · rw [if_pos hdir]
        refine ⟨fun h => ⟨h, fun _ place hplace hnot => ?_⟩, fun h => h.1⟩
        cases hplace
        exact absurd hdir hnot
      · rw [if_neg hdir]
        simp only [mem_append, mem_singleton]
        constructor
        · intro h
          refine ⟨fun place hplace => h place (.inl hplace), fun _ place hplace _ => ?_⟩
          cases hplace
          exact h reached (.inr rfl)
        · rintro ⟨hmade, hfile⟩ place (hplace | rfl)
          · exact hmade place hplace
          · exact hfile trivial place rfl hdir

/-- What a write touches in the workspace does not depend on what is written, as long as that is not too large. -/
theorem touched_writeFileInWorkspace (disk : Disk Name) (cwd : List Name) (path workspaceRoot : FilePath Name) :
    (∀ content, ∀ place ∈ (writeFileInWorkspace disk cwd path content workspaceRoot).touched,
      Inside (canonicalRoot disk.tree cwd workspaceRoot) place) ↔
    (startsWith (normalizePathAllowMissing disk.tree cwd path) (canonicalRoot disk.tree cwd workspaceRoot) = true →
      MakesInside disk.tree (canonicalRoot disk.tree cwd workspaceRoot)
        (normalizePathAllowMissing disk.tree cwd path)) := by
  unfold writeFileInWorkspace validateWorkspaceBoundary
  by_cases hinside : startsWith (normalizePathAllowMissing disk.tree cwd path)
      (canonicalRoot disk.tree cwd workspaceRoot) = true
  · rw [if_pos hinside]
    simp only [hinside, forall_true_left]
    constructor
    · intro h
      have hempty := h ""
      rw [writeFile, if_neg (by simp)] at hempty
      exact (touched_writeAt disk _ _ "").1 hempty
    · intro h content
      unfold writeFile
      split_ifs with hsize
      · simp
      · exact (touched_writeAt disk _ _ content).2 h
  · rw [if_neg hinside]
    simp [hinside]

/-- Behind a real place nothing has to be made. -/
theorem makesInside_append (hplace : tree.IsReal place) (root : FilePath Name) (name : Name) :
    MakesInside tree root (pathOf (place ++ [name])) ↔ ∀ reached,
      tree.resolve true maxLinks place [.normal name] = .ok reached → tree.node reached ≠ some .dir →
      Inside root reached := by
  have hparent : (components (pathOf (place ++ [name]))).dropLast = place.map .normal := by
    rw [components_pathOf, map_append, map_singleton, dropLast_concat]
  have hopen : tree.openCreate [] (pathOf (place ++ [name])) = tree.resolve true maxLinks place [.normal name] := by
    rw [← resolve_real hplace, ← map_singleton, ← map_append]
    rfl
  by_cases hdir : tree.node place = some .dir
  · have hmade := makeMissing_of_isDir (isDir_iff.2 ⟨place, resolve_pathOf hplace, hdir⟩)
    rw [← hopen]
    constructor
    · rintro ⟨-, hfile⟩
      rw [hparent, hmade] at hfile
      exact hfile rfl
    · intro h
      refine ⟨?_, ?_⟩ <;> rw [hparent, hmade]
      · simp
      · exact fun _ => h
  · have hnot : tree.isDir (place.map .normal) = false := by
      simp [isDir, resolve_pathOf hplace, hdir]
    have hmade := makeMissing_of_blocked hnot (by simp [resolve_pathOf hplace])
    rw [resolve_blocked hdir]
    refine iff_of_true ⟨?_, ?_⟩ (by simp) <;> rw [hparent, hmade] <;> simp

/-- A write at a real place touches that place at most. -/
theorem makesInside_pathOf (hplace : tree.IsReal place) (hinside : Inside root place) :
    MakesInside tree root (pathOf place) := by
  induction place using reverseRecOn with
  | nil =>
    refine ⟨fun place h => ?_, fun _ reached hreached hnot => ?_⟩
    · simp [components_pathOf, makeMissing] at h
    · obtain rfl : [] = reached := Except.ok.inj hreached
      exact absurd tree.node_root hnot
  | append_singleton above name =>
    have habove : tree.IsReal above := .inl (tree.node_parent above name hplace.node_ne_none)
    refine (makesInside_append habove root name).2 fun reached hreached _ => ?_
    rw [resolve_eq_walk, walk_real hplace, ← resolve_eq_walk, resolve_nil] at hreached
    cases hreached
    exact hinside

/-! ### Every way that a path is normalized -/

theorem normalizePathAllowMissing_found (h : tree.realpath [] (candidateOf cwd path) = .ok place) :
    normalizePathAllowMissing tree cwd path = pathOf place := by
  unfold normalizePathAllowMissing
  rw [canonicalize_absolute cwd (candidateOf_absolute cwd path), h]
  rfl

variable {name : Name}

theorem components_ne_nil (h : fileName path = some name) : components path ≠ [] := by
  intro hnil
  rw [fileName, hnil] at h
  cases h

/-- A last name stands behind the rest. -/
theorem components_eq_of_fileName (h : fileName path = some name) :
    (components path).dropLast ++ [.normal name] = components path := by
  unfold fileName at h
  split at h
  · next other hlast =>
    cases h
    rw [dropLast_append_getLast? _ hlast]
  · cases h

variable {error : PathError}

theorem normalizePathAllowMissing_named
    (h : tree.realpath [] (candidateOf cwd path) = .error error) (hname : fileName (candidateOf cwd path) = some name) :
    normalizePathAllowMissing tree cwd path =
      join (((tree.realpath [] ⟨true, (components (candidateOf cwd path)).dropLast⟩).map pathOf).toOption.getD
        ⟨true, (components (candidateOf cwd path)).dropLast⟩) name := by
  unfold normalizePathAllowMissing
  rw [canonicalize_absolute cwd (candidateOf_absolute cwd path), h, parent, if_neg (components_ne_nil hname), hname]
  simp only [Except.map]
  rw [canonicalize_absolute cwd rfl]
  rfl

theorem normalizePathAllowMissing_unnamed
    (h : tree.realpath [] (candidateOf cwd path) = .error error) (hname : fileName (candidateOf cwd path) = none) :
    normalizePathAllowMissing tree cwd path = candidateOf cwd path := by
  unfold normalizePathAllowMissing
  rw [canonicalize_absolute cwd (candidateOf_absolute cwd path), h, hname]
  simp [Except.map]

theorem makesInside_normalized_iff (tree : FileTree Name) (cwd : List Name) (path root : FilePath Name) :
    (startsWith (normalizePathAllowMissing tree cwd path) root = true →
      MakesInside tree root (normalizePathAllowMissing tree cwd path)) ↔
    StaysInside tree root (candidateOf cwd path) := by
  cases hcandidate : tree.realpath [] (candidateOf cwd path) with
  | ok place =>
    rw [normalizePathAllowMissing_found hcandidate]
    have hreal : tree.IsReal place := isReal_of_resolve (isReal_root.start _) hcandidate
    exact iff_of_true (makesInside_pathOf hreal) (.found place hcandidate)
  | error error =>
    cases hname : fileName (candidateOf cwd path) with
    | none =>
      rw [normalizePathAllowMissing_unnamed hcandidate hname]
      refine ⟨.unnamed hname, fun h => ?_⟩
      cases h with
      | found place h => cases hcandidate.symm.trans h
      | named name place hname' | lost name error hname' => cases hname.symm.trans hname'
      | unnamed _ h => exact h
    | some name =>
      rw [normalizePathAllowMissing_named hcandidate hname]
      cases hparent : tree.realpath [] ⟨true, (components (candidateOf cwd path)).dropLast⟩ with
      | ok place =>
        -- The place of the parent, and the last name behind it.
        have hreal : tree.IsReal place := isReal_of_resolve (isReal_root.start _) hparent
        have hjoin : join (pathOf place) name = pathOf (place ++ [name]) := by simp [join, pathOf]
        simp only [Except.map, Except.toOption, Option.getD_some, hjoin]
        rw [makesInside_append hreal]
        refine ⟨.named name place hname hparent, fun h => ?_⟩
        cases h with
        | found place h => cases hcandidate.symm.trans h
        | named other above hother habove h =>
          cases hname.symm.trans hother
          cases hparent.symm.trans habove
          exact h
        | lost other error hother herror => cases hparent.symm.trans herror
        | unnamed hother => cases hname.symm.trans hother
      | error lost =>
        -- The whole path as it is written.
        have hjoin : join ⟨true, (components (candidateOf cwd path)).dropLast⟩ name =
            ⟨true, components (candidateOf cwd path)⟩ := by
          rw [join, components_eq_of_fileName hname]
        have hsame : startsWith ⟨true, components (candidateOf cwd path)⟩ root =
            startsWith (candidateOf cwd path) root := by
          simp [startsWith, components]
        simp only [Except.map, Except.toOption, Option.getD_none, hjoin, hsame]
        refine ⟨.lost name lost hname hparent, fun h => ?_⟩
        cases h with
        | found place h => cases hcandidate.symm.trans h
        | named other above hother habove => cases hparent.symm.trans habove
        | lost other error hother herror h => exact h
        | unnamed hother => cases hname.symm.trans hother

/-! ### What is read and edited -/

variable {workspaceRoot : FilePath Name}

/-- An edit in the workspace touches the place that was validated at most. -/
theorem touched_editFileInWorkspace
    (h : place ∈ (editFileInWorkspace disk cwd path oldString newString replaceAll workspaceRoot).touched) :
    Inside (canonicalRoot disk.tree cwd workspaceRoot) place := by
  unfold editFileInWorkspace at h
  cases hpath : normalizePath disk.tree cwd path with
  | error error => simp [hpath] at h
  | ok absolutePath =>
    simp only [hpath] at h
    cases hvalid : validateWorkspaceBoundary absolutePath (canonicalRoot disk.tree cwd workspaceRoot) with
    | error error => simp [hvalid] at h
    | ok =>
      simp only [hvalid] at h
      have hcases := editFile_cases disk cwd path oldString newString replaceAll
      generalize editFile disk cwd path oldString newString replaceAll = outcome at h hcases
      cases hcases with
      | failed error => simp at h
      | written reached output content hreached =>
        obtain rfl : place = reached := by simpa using h
        cases hpath.symm.trans hreached
        exact (validateWorkspaceBoundary_pathOf place _).1 hvalid

theorem read_pathOf (disk : Disk Name) (hplace : disk.tree.IsReal place) : disk.read (pathOf place) =
      if disk.tree.node place = some .dir then .error .isADirectory else .ok (disk.bytes place) := by
  unfold Disk.read
  have hwalk : disk.tree.realpath [] (pathOf place) = .ok place := resolve_pathOf hplace
  rw [hwalk]

/-- What is read does not depend on what is outside. -/
theorem readFileInWorkspace_congr {bytes : List Name → Bytes}
    (h : ∀ place, Inside (canonicalRoot disk.tree cwd workspaceRoot) place → bytes place = disk.bytes place)
    (offset limit : Option ℕ) :
    readFileInWorkspace ⟨disk.tree, bytes⟩ cwd path offset limit workspaceRoot =
      readFileInWorkspace disk cwd path offset limit workspaceRoot := by
  unfold readFileInWorkspace
  simp only
  cases hpath : normalizePath disk.tree cwd path with
  | error error => rfl
  | ok absolutePath =>
    obtain ⟨place, rfl, hreal⟩ := normalizePath_eq_ok hpath
    simp only
    cases hvalid : validateWorkspaceBoundary (pathOf place) (canonicalRoot disk.tree cwd workspaceRoot) with
    | error error => rfl
    | ok =>
      have hbytes := h place ((validateWorkspaceBoundary_pathOf place _).1 hvalid)
      have hread : Disk.read ⟨disk.tree, bytes⟩ (pathOf place) = disk.read (pathOf place) := by
        rw [read_pathOf disk hreal, ← hbytes]
        exact read_pathOf ⟨disk.tree, bytes⟩ hreal
      simp only [readFile, hpath, Disk.readToString, hread]

/-- **A read and an edit stay inside.  A write does exactly where the last name of its path is missing in a directory
or is a link that leads inside, or all that would be made along a path whose parent is missing is inside.** -/
theorem operations_contained_iff (disk : Disk Name) (cwd : List Name) (path workspaceRoot : FilePath Name) :
    Contained disk cwd path workspaceRoot ↔
      StaysInside disk.tree (canonicalRoot disk.tree cwd workspaceRoot) (candidateOf cwd path) := by
  rw [← makesInside_normalized_iff, ← touched_writeFileInWorkspace]
  constructor
  · exact fun h => h.write
  · intro h
    exact ⟨h, fun oldString newString replaceAll place hplace => touched_editFileInWorkspace hplace,
      fun bytes hbytes => readFileInWorkspace_congr hbytes⟩

end

/-- A workspace, and a directory beside it. -/
def sampleDisk : Disk String where
  tree := ofList [(["workspace"], .dir), (["outside"], .dir)] (by decide)
  bytes _ := []

/-- The names that lead out of the workspace stand behind one that is missing. -/
def samplePath : FilePath String :=
  ⟨true, [.normal "workspace", .normal "missing", .parentDir, .parentDir, .normal "outside", .normal "notes"]⟩

theorem writeFile_frame_workspace :
    (writeFile sampleDisk [] samplePath "").disk.tree.node ["outside"] = sampleDisk.tree.node ["outside"] ∧
      (writeFile sampleDisk [] samplePath "").disk.bytes ["outside"] = sampleDisk.bytes ["outside"] :=
  writeFile_frame (by decide)

/-- The missing directory is made, and then the file is written outside. -/
theorem not_contained_sampleDisk : ¬Contained sampleDisk [] samplePath ⟨true, [.normal "workspace"]⟩ := by
  intro h
  have houtside := h.write "" ["outside", "notes"] (by decide)
  exact absurd houtside (by unfold Inside; decide)

end WildAgentOs.Tools.WorkspaceFiles
