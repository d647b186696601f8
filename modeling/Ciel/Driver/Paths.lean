import Mathlib.Data.List.Basic
import Mathlib.Data.Finset.Basic

/-!
# Paths of source files

Import paths as the driver joins them, and the files that they lead to. The driver
normalises a path by taking its components (`normalize_path_with_cwd`), which drops `.`
but keeps `..`; the file system resolves `..` when it opens the file. So one file has
many paths.

A file is known by the names from the root to it. Of its contents only the imports
matter, as the parser delivers them.
-/

namespace Ciel.Driver

variable {place : Place}

/-- A component of a normalised path. -/
inductive Component
  | name (name : String)
  | parent
  deriving DecidableEq, Repr

/-- An absolute path without `.`. -/
abbrev Path := List Component

/-- The names from the root to a file or directory. -/
abbrev Place := List String

/-- An import: `/a/b`, or `./a/b` and `a/b` with no step up, or `../a/b` with some. The
last segment of a path is apart from those before it. -/
inductive Import
  | absolute (segments : List String) (last : String)
  | relative (up : Nat) (segments : List String) (last : String)
  deriving DecidableEq, Repr

/-- Source files in directories, without symbolic links. -/
structure FileTree where
  dirs : Finset Place
  files : Finset Place
  imports : Place → List Import
  dirs_closed : ∀ {place name}, place ++ [name] ∈ dirs → place = [] ∨ place ∈ dirs
  files_inside : ∀ {place}, place ∈ files → ∃ dir name, place = dir ++ [name] ∧
    (dir = [] ∨ dir ∈ dirs)
  apart : ∀ {place}, place ∈ files → place ∉ dirs

namespace FileTree

variable (tree : FileTree)

/-- The root is a directory. -/
def isDir (place : Place) : Bool := place = [] || decide (place ∈ tree.dirs)

/-- Where the file system comes to from a place, going through directories only. -/
def walk : Place → Path → Option Place
  | here, [] => some here
  | here, .name name :: path => if tree.isDir here then walk (here ++ [name]) path else none
  | here, .parent :: path => if tree.isDir here then walk here.dropLast path else none

/-- The file that a path leads to. -/
def fileOf (path : Path) : Option Place :=
  (tree.walk [] path).filter fun place => decide (place ∈ tree.files)

variable {tree}

theorem fileOf_eq_some {path : Path} :
    tree.fileOf path = some place ↔ tree.walk [] path = some place ∧ place ∈ tree.files := by
  simp [fileOf, Option.filter_eq_some_iff]

theorem walk_append (here : Place) (first second : Path) :
    tree.walk here (first ++ second) = (tree.walk here first).bind fun place =>
      tree.walk place second := by
  induction first generalizing here with
  | nil => rfl
  | cons component first ih =>
    cases component with
    | name name | parent =>
      simp only [List.cons_append, walk]
      split
      · exact ih _
      · rfl

theorem isDir_dropLast (dir : tree.isDir place) : tree.isDir place.dropLast := by
  rcases List.eq_nil_or_concat place with rfl | ⟨front, last, rfl⟩
  · exact dir
  · rw [List.concat_eq_append, List.dropLast_concat]
    have member : front ++ [last] ∈ tree.dirs := by simpa [isDir] using dir
    simpa [isDir] using tree.dirs_closed member

theorem isDir_eq_false (file : place ∈ tree.files) : tree.isDir place = false := by
  obtain ⟨dir, name, rfl, -⟩ := tree.files_inside file
  simp [isDir, tree.apart file]

/-- The last step to a file is from its directory. -/
theorem walk_dropLast {path : Path} (file : tree.fileOf path = some place) :
    tree.walk [] path.dropLast = some place.dropLast := by
  obtain ⟨walked, member⟩ := fileOf_eq_some.mp file
  rcases List.eq_nil_or_concat path with rfl | ⟨front, last, rfl⟩
  · obtain ⟨dir, name, same, -⟩ := tree.files_inside member
    cases walked
    simp at same
  · rw [List.concat_eq_append] at walked ⊢
    rw [List.dropLast_concat]
    rw [walk_append] at walked
    obtain ⟨dir, first, second⟩ := Option.bind_eq_some_iff.mp walked
    rw [first]
    cases last with
    | name name =>
      simp only [walk] at second
      split at second
      · cases second
        simp
      · cases second
    | parent =>
      -- the parent of a directory is no file
      simp only [walk] at second
      split at second
      next isDir =>
        cases second
        have up := isDir_dropLast isDir
        rw [isDir_eq_false member] at up
        cases up
      · cases second

/-- The path of a place by its names alone. -/
def plainPath (place : Place) : Path := place.map .name

theorem walk_plainPath (dir : tree.isDir place) :
    tree.walk [] (plainPath place) = some place := by
  induction place using List.reverseRecOn with
  | nil => rfl
  | append_singleton front last ih =>
    have up := isDir_dropLast dir
    rw [List.dropLast_concat] at up
    rw [plainPath, List.map_append, walk_append]
    change (tree.walk [] (plainPath front)).bind _ = _
    rw [ih up]
    simp [walk, up]

theorem fileOf_plainPath (file : place ∈ tree.files) :
    tree.fileOf (plainPath place) = some place := by
  obtain ⟨dir, name, rfl, inside⟩ := tree.files_inside file
  have isDir : tree.isDir dir := by simpa [isDir] using inside
  refine fileOf_eq_some.mpr ⟨?_, file⟩
  rw [plainPath, List.map_append, walk_append]
  change (tree.walk [] (plainPath dir)).bind _ = _
  rw [walk_plainPath isDir]
  simp [walk, isDir]

end FileTree

/-! ### Imports -/

/-- What the driver resolves imports with: the exports of the packages of the standard
library and of the project, and the roots of the standard library. -/
structure Environment where
  tree : FileTree
  cwd : Path
  stdExport : List String → Option Path
  userExport : List String → Option Path
  stdPaths : List Path

namespace Environment

variable (env : Environment)

/-- The components of an import, with the extension set. -/
def sourceFile (segments : List String) (last : String) : Path :=
  segments.map .name ++ [.name (last ++ ".ciel")]

def pathExists (path : Path) : Bool :=
  match env.tree.walk [] path with
  | some place => env.tree.isDir place || decide (place ∈ env.tree.files)
  | none => false

/-- The first root serves only if no other one has the file. -/
def resolveImportPath (parent : Path) : Import → Path
  | .absolute segments last =>
    match env.stdExport (segments ++ [last]), env.userExport (segments ++ [last]) with
    | some source, _ => source
    | none, some source => source
    | none, none =>
      match env.stdPaths.map fun root => root ++ sourceFile segments last with
      | [] => env.cwd ++ sourceFile segments last
      | first :: candidates => (candidates.find? env.pathExists).getD first
  | .relative up segments last =>
    parent ++ List.replicate up .parent ++ sourceFile segments last

/-- The paths that the module at a path imports. -/
def importPaths (path : Path) : List Path :=
  match env.tree.fileOf path with
  | some place => (env.tree.imports place).map (env.resolveImportPath path.dropLast)
  | none => []

/-- A file imports another one. -/
def Imports (source target : Place) : Prop :=
  source ∈ env.tree.files ∧ ∃ imported ∈ env.tree.imports source,
    env.tree.fileOf (env.resolveImportPath (FileTree.plainPath source).dropLast imported) =
      some target

variable {env}

theorem fileOf_resolveImportPath {parent parent' : Path}
    (same : env.tree.walk [] parent = env.tree.walk [] parent') (imported : Import) :
    env.tree.fileOf (env.resolveImportPath parent imported) =
      env.tree.fileOf (env.resolveImportPath parent' imported) := by
  cases imported with
  | absolute segments last => rfl
  | relative up segments last =>
    simp only [resolveImportPath, FileTree.fileOf, List.append_assoc, FileTree.walk_append, same]

/-- However a file is reached, its imports lead to the same files. -/
theorem imports_iff {path : Path} {source target : Place}
    (file : env.tree.fileOf path = some source) :
    env.Imports source target ↔
      ∃ next ∈ env.importPaths path, env.tree.fileOf next = some target := by
  have member := (FileTree.fileOf_eq_some.mp file).2
  have same : env.tree.walk [] (FileTree.plainPath source).dropLast =
      env.tree.walk [] path.dropLast :=
    (FileTree.walk_dropLast (FileTree.fileOf_plainPath member)).trans
      (FileTree.walk_dropLast file).symm
  simp only [Imports, importPaths, file, List.mem_map]
  constructor
  · rintro ⟨-, imported, isImport, leads⟩
    rw [fileOf_resolveImportPath same] at leads
    exact ⟨_, ⟨imported, isImport, rfl⟩, leads⟩
  · rintro ⟨_, ⟨imported, isImport, rfl⟩, leads⟩
    rw [← fileOf_resolveImportPath same] at leads
    exact ⟨member, imported, isImport, leads⟩

end Environment

end Ciel.Driver
