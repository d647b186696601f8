import Ciel.Driver.Paths
import Ciel.Library.Traversal
import Mathlib.Data.List.Nodup

/-!
# Loading modules

The driver loads the modules that a program imports depth first, starting with its own
imports and the entry file (`ModuleLoader`). A path is entered into the table of loaded
modules before its imports are loaded, and the table is looked up before the set of paths
that are being loaded. So the check for an import cycle is never reached; and the table
knows paths, not files.
-/

namespace Ciel.Driver

open Library.Traversal

variable {loader : ModuleLoader} {path : Path} {fuel : Nat} {target : Target}

inductive Diagnostic
  | importCycle (path : Path)
  | failedToRead (path : Path)
  deriving DecidableEq, Repr

structure ParsedModule where
  id : Nat
  path : Path
  importPaths : List Path
  deriving DecidableEq, Repr

structure ModuleLoader where
  loaded : List (Path × Nat)
  loading : List Path
  modules : List ParsedModule
  diagnostics : List Diagnostic
  deriving Repr

/-- What is loaded: the program, which is the entry file after the driver's own imports, or
the file at a path. -/
inductive Target
  | program
  | file (path : Path)
  deriving DecidableEq, Repr

def compilerPreludeImports : List Import :=
  [.absolute ["std"] "result", .absolute ["std"] "error", .absolute ["std"] "panic",
    .absolute ["std"] "async"]

namespace Environment

variable (env : Environment) (entry : Path)

/-- The paths that loading starts with. -/
def roots : List Path := compilerPreludeImports.map (env.resolveImportPath []) ++ [entry]

/-- What a target needs to have loaded. -/
def needs : Target → List Path
  | .program => env.roots entry
  | .file path => env.importPaths path

/-- A diagnostic is added. -/
def report (loader : ModuleLoader) (diagnostic : Diagnostic) : ModuleLoader :=
  { loader with diagnostics := loader.diagnostics ++ [diagnostic] }

/-- The module of a path is entered, before its imports are loaded. -/
def enterModule (loader : ModuleLoader) (path : Path) : ModuleLoader :=
  let id := loader.modules.length
  { loader with
    loaded := (path, id) :: loader.loaded
    loading := path :: loader.loading
    modules := loader.modules ++ [⟨id, path, env.importPaths path⟩] }

/-- The imports of a path have been loaded. -/
def leaveModule (path : Path) (loader : ModuleLoader) : ModuleLoader :=
  { loader with loading := loader.loading.erase path }

/-- `load_file_lossy` up to the loading of its imports, and what it does after them. -/
def loadFile (loader : ModuleLoader) (path : Path) : Entry ModuleLoader Target :=
  if path ∈ loader.loaded.map Prod.fst then .done loader
  else if path ∈ loader.loading then .done (report loader (.importCycle path))
  else
    match env.tree.fileOf path with
    | none => .done (report loader (.failedToRead path))
    | some _ =>
      .into (env.enterModule loader path) ((env.importPaths path).map .file) (leaveModule path)

def load (loader : ModuleLoader) : Target → Entry ModuleLoader Target
  | .program => .into loader ((env.roots entry).map .file) id
  | .file path => env.loadFile loader path

def emptyLoader : ModuleLoader := ⟨[], [], [], []⟩

/-- `load_entry_lossy`, as far as the fuel reaches. -/
def loadEntryLossy (fuel : Nat) : Option ModuleLoader :=
  visit (env.load entry) fuel emptyLoader .program

/-! ### What loading should do -/

/-- The files that a program consists of. -/
def Reachable (place : Place) : Prop :=
  ∃ root ∈ env.roots entry, ∃ first, env.tree.fileOf root = some first ∧
    Relation.ReflTransGen env.Imports first place

/-- A file of the program imports itself, through other files or not. -/
def Cyclic : Prop := ∃ place, env.Reachable entry place ∧ Relation.TransGen env.Imports place place

/-- Loading ends, makes one module of every file, and reports a cycle if there is one. -/
def LoadsModules : Prop :=
  ∃ fuel loader, env.loadEntryLossy entry fuel = some loader ∧
    (∀ place, env.Reachable entry place →
      (loader.modules.filter fun m => env.tree.fileOf m.path = some place).length = 1) ∧
    ((∃ path, Diagnostic.importCycle path ∈ loader.diagnostics) ↔ env.Cyclic entry)

/-- The paths that the files of a program are imported by. -/
def Spelled (path : Path) : Prop :=
  ∃ root ∈ env.roots entry, Relation.ReflTransGen (fun p q => q ∈ env.importPaths p) root path

/-- Every file of the program has one path. -/
def SpelledOnce : Prop :=
  ∀ p q place, env.Spelled entry p → env.Spelled entry q → env.tree.fileOf p = some place →
    env.tree.fileOf q = some place → p = q

/-! ### Paths and files -/

variable {env entry}

theorem Spelled.next {next : Path} (spelled : env.Spelled entry path)
    (imported : next ∈ env.importPaths path) : env.Spelled entry next := by
  obtain ⟨root, isRoot, reached⟩ := spelled
  exact ⟨root, isRoot, reached.tail imported⟩

theorem mem_importPaths {next : Path} (imported : next ∈ env.importPaths path) :
    ∃ place, env.tree.fileOf path = some place := by
  unfold importPaths at imported
  split at imported
  · next place file => exact ⟨place, file⟩
  · cases imported

/-- The files of a program are those that its paths lead to. -/
theorem reachable_iff {place : Place} :
    env.Reachable entry place ↔ ∃ path, env.Spelled entry path ∧
      env.tree.fileOf path = some place := by
  constructor
  · rintro ⟨root, isRoot, first, file, reached⟩
    induction reached with
    | refl => exact ⟨root, ⟨root, isRoot, .refl⟩, file⟩
    | tail _ imports ih =>
      obtain ⟨path, spelled, file'⟩ := ih
      obtain ⟨next, imported, leads⟩ := (imports_iff file').mp imports
      exact ⟨next, spelled.next imported, leads⟩
  · rintro ⟨path, ⟨root, isRoot, reached⟩, file⟩
    induction reached generalizing place with
    | refl => exact ⟨root, isRoot, place, file, .refl⟩
    | tail _ imported ih =>
      obtain ⟨source, file'⟩ := mem_importPaths imported
      obtain ⟨root', isRoot', first, file'', reached⟩ := ih file'
      exact ⟨root', isRoot', first, file'',
        reached.tail ((imports_iff file').mpr ⟨_, imported, file⟩)⟩

/-! ### The run of the loader -/

/-- The paths in the table of loaded modules. -/
def loadedPaths (loader : ModuleLoader) : Set Path := {path | path ∈ loader.loaded.map Prod.fst}

/-- A path that can be read is remembered. -/
def targetKey (env : Environment) : Target → Option Path
  | .program => none
  | .file path => if (env.tree.fileOf path).isSome then some path else none

/-- A target leads to the paths that it needs. -/
def Needs (env : Environment) (entry : Path) (target next : Target) : Prop :=
  next ∈ (env.needs entry target).map Target.file

/-- How loading is done with a target at once. -/
theorem load_done {next : ModuleLoader} (entered : env.load entry loader target = .done next) :
    ∃ path, target = .file path ∧
      ((path ∈ loadedPaths loader ∧ next = loader) ∨
        (path ∉ loadedPaths loader ∧ path ∈ loader.loading ∧
          next = report loader (.importCycle path)) ∨
        (env.tree.fileOf path = none ∧ next = report loader (.failedToRead path))) := by
  cases target with
  | program => cases entered
  | file path =>
    refine ⟨path, rfl, ?_⟩
    simp only [load, loadFile] at entered
    split at entered
    next old =>
      cases entered
      exact .inl ⟨old, rfl⟩
    next new =>
      split at entered
      next busy =>
        cases entered
        exact .inr (.inl ⟨new, busy, rfl⟩)
      · split at entered
        next missing =>
          cases entered
          exact .inr (.inr ⟨missing, rfl⟩)
        · cases entered

/-- How loading goes into a target. -/
theorem load_into {next : ModuleLoader} {parts : List Target} {leave : ModuleLoader → ModuleLoader}
    (entered : env.load entry loader target = .into next parts leave) :
    parts = (env.needs entry target).map .file ∧
      ((target = .program ∧ next = loader ∧ leave = id) ∨
        ∃ path, target = .file path ∧ path ∉ loadedPaths loader ∧ (env.tree.fileOf path).isSome ∧
          next = env.enterModule loader path ∧ leave = leaveModule path) := by
  cases target with
  | program =>
    cases entered
    exact ⟨rfl, .inl ⟨rfl, rfl, rfl⟩⟩
  | file path =>
    simp only [load, loadFile] at entered
    split at entered
    · cases entered
    next new =>
      split at entered
      · cases entered
      · split at entered
        · cases entered
        next readable =>
          cases entered
          exact ⟨rfl, .inr ⟨path, rfl, new, by simp [readable], rfl, rfl⟩⟩

@[simp] theorem loadedPaths_enterModule (loader : ModuleLoader) (path : Path) :
    loadedPaths (env.enterModule loader path) = insert path (loadedPaths loader) := by
  ext other
  simp [loadedPaths, enterModule]

theorem targetKey_file (readable : (env.tree.fileOf path).isSome) :
    targetKey env (.file path) = some path := if_pos readable

/-- The loader remembers the paths that it has gone into. -/
theorem load_guarded :
    Guarded (env.load entry) (targetKey env) loadedPaths (Needs env entry) where
  done := by
    intro loader target next entered
    obtain ⟨path, -, ⟨-, rfl⟩ | ⟨-, -, rfl⟩ | ⟨-, rfl⟩⟩ := load_done entered <;>
      exact Set.Subset.refl _
  into := by
    intro loader target next parts leave entered
    obtain ⟨rfl, ⟨-, rfl, -⟩ | ⟨path, -, -, -, rfl, -⟩⟩ := load_into entered
    · exact ⟨Set.Subset.refl _, fun part isPart => isPart⟩
    · refine ⟨?_, fun part isPart => isPart⟩
      rw [loadedPaths_enterModule]
      exact Set.subset_insert _ _
  leave := by
    intro loader target next parts leave entered last
    obtain ⟨-, ⟨-, -, rfl⟩ | ⟨path, -, -, -, -, rfl⟩⟩ := load_into entered <;>
      exact Set.Subset.refl _
  fresh := by
    intro loader target next parts leave key entered hasKey
    obtain ⟨-, ⟨rfl, -, -⟩ | ⟨path, rfl, new, readable, rfl, -⟩⟩ := load_into entered
    · cases hasKey
    · rw [targetKey_file readable, Option.some.injEq] at hasKey
      subst hasKey
      exact ⟨new, by simp⟩

/-- No import cycle has been reported. -/
def NoCycle (loader : ModuleLoader) : Prop :=
  ∀ path, Diagnostic.importCycle path ∉ loader.diagnostics

/-- Unless a cycle is reported, the loader leaves nothing out. -/
theorem load_complete :
    Complete (env.load entry) (targetKey env) loadedPaths (Needs env entry) NoCycle where
  done := by
    intro loader target next entered quiet
    obtain ⟨path, rfl, ⟨old, rfl⟩ | ⟨-, -, rfl⟩ | ⟨missing, rfl⟩⟩ := load_done entered
    · refine ⟨quiet, Set.Subset.refl _, ?_⟩
      cases file : env.tree.fileOf path with
      | some place => exact .inl ⟨path, old, targetKey_file (by simp [file])⟩
      | none => exact .inr ⟨by simp [targetKey, file], by simp [Needs, needs, importPaths, file]⟩
    · exact absurd (List.mem_append_right _ List.mem_cons_self) (quiet path)
    · refine ⟨fun p reported => quiet p (List.mem_append_left _ reported), Set.Subset.refl _,
        .inr ?_⟩
      exact ⟨by simp [targetKey, missing], by simp [Needs, needs, importPaths, missing]⟩
  into := by
    intro loader target next parts leave entered
    obtain ⟨rfl, ⟨-, rfl, -⟩ | ⟨path, rfl, new, readable, rfl, -⟩⟩ := load_into entered
    · exact ⟨fun quiet => quiet, fun part isNext => isNext, fun key old => .inl old⟩
    · refine ⟨fun quiet => quiet, fun part isNext => isNext, fun key member => ?_⟩
      rw [loadedPaths_enterModule] at member
      obtain rfl | old := member
      · exact .inr (targetKey_file readable)
      · exact .inl old
  leave := by
    intro loader target next parts leave entered last
    obtain ⟨-, ⟨-, -, rfl⟩ | ⟨path, -, -, -, -, rfl⟩⟩ := load_into entered <;>
      exact ⟨fun quiet => quiet, fun _ => Set.Subset.refl _⟩

/-- What holds of the loader at all times. A path that is being loaded has been entered
into the table, so the check for a cycle never applies. -/
structure LoaderOk (loader : ModuleLoader) : Prop where
  busy : ∀ path ∈ loader.loading, path ∈ loadedPaths loader
  noCycle : NoCycle loader
  modules : loader.modules.map ParsedModule.path = (loader.loaded.map Prod.fst).reverse
  distinct : (loader.loaded.map Prod.fst).Nodup

theorem LoaderOk.report (ok : LoaderOk loader) (path : Path) :
    LoaderOk (report loader (.failedToRead path)) where
  busy := ok.busy
  noCycle other reported := by
    rcases List.mem_append.mp reported with old | new
    · exact ok.noCycle other old
    · simp at new
  modules := ok.modules
  distinct := ok.distinct

theorem LoaderOk.enterModule (ok : LoaderOk loader) (new : path ∉ loadedPaths loader) :
    LoaderOk (env.enterModule loader path) where
  busy other member := by
    rw [loadedPaths_enterModule]
    rcases List.mem_cons.mp member with rfl | old
    · exact Set.mem_insert _ _
    · exact Set.mem_insert_of_mem _ (ok.busy other old)
  noCycle := ok.noCycle
  modules := by simp [Environment.enterModule, ok.modules]
  distinct := List.nodup_cons.mpr ⟨new, ok.distinct⟩

theorem LoaderOk.leaveModule (ok : LoaderOk loader) (path : Path) :
    LoaderOk (leaveModule path loader) where
  busy other member := ok.busy other (List.mem_of_mem_erase member)
  noCycle := ok.noCycle
  modules := ok.modules
  distinct := ok.distinct

theorem loaderOk_of_load (ran : env.loadEntryLossy entry fuel = some loader) : LoaderOk loader := by
  refine visit_keeps ?_ ?_ ?_ ran ⟨by simp [emptyLoader], by simp [NoCycle, emptyLoader], rfl, .nil⟩
  · intro loader target next entered ok
    obtain ⟨path, -, ⟨-, rfl⟩ | ⟨new, busy, -⟩ | ⟨-, rfl⟩⟩ := load_done entered
    · exact ok
    · exact absurd (ok.busy path busy) new
    · exact ok.report path
  · intro loader target next parts leave entered ok
    obtain ⟨-, ⟨-, rfl, -⟩ | ⟨path, -, new, -, rfl, -⟩⟩ := load_into entered
    · exact ok
    · exact ok.enterModule new
  · intro loader target next parts leave entered last ok
    obtain ⟨-, ⟨-, -, rfl⟩ | ⟨path, -, -, -, -, rfl⟩⟩ := load_into entered
    · exact ok
    · exact ok.leaveModule path

theorem reach_file_iff :
    .file path ∈ reach (Needs env entry) .program ↔ env.Spelled entry path := by
  constructor
  · intro reached
    suffices all : ∀ target, Relation.ReflTransGen (Needs env entry) .program target →
        ∀ path, target = .file path → env.Spelled entry path from all _ reached path rfl
    intro target reached
    induction reached with
    | refl => simp
    | @tail source target _ needs ih =>
      rintro path rfl
      obtain ⟨other, member, same⟩ := List.mem_map.mp needs
      cases same
      cases source with
      | program => exact ⟨path, member, .refl⟩
      | file before => exact (ih before rfl).next member
  · rintro ⟨root, isRoot, reached⟩
    induction reached with
    | refl => exact Relation.ReflTransGen.single (List.mem_map_of_mem isRoot)
    | tail _ imported ih => exact Relation.ReflTransGen.tail ih (List.mem_map_of_mem imported)

theorem targetKey_eq_some (hasKey : targetKey env target = some path) :
    target = .file path ∧ (env.tree.fileOf path).isSome := by
  cases target with
  | program => cases hasKey
  | file other =>
    simp only [targetKey] at hasKey
    split at hasKey
    next readable =>
      cases hasKey
      exact ⟨rfl, readable⟩
    · cases hasKey

/-- When loading has ended, the paths that can be read have been loaded. -/
theorem mem_loadedPaths_iff (ran : env.loadEntryLossy entry fuel = some loader) :
    path ∈ loadedPaths loader ↔ env.Spelled entry path ∧ (env.tree.fileOf path).isSome := by
  have quiet := (loaderOk_of_load ran).noCycle
  have fresh : loadedPaths emptyLoader = ∅ := by simp [loadedPaths, emptyLoader]
  constructor
  · intro member
    obtain ⟨explored, -⟩ :=
      explored_visit load_guarded load_complete reach_closed .refl ran quiet
    obtain old | ⟨target, reached, hasKey, -⟩ := explored.finished path member
    · simp [fresh] at old
    · obtain ⟨rfl, readable⟩ := targetKey_eq_some hasKey
      exact ⟨reach_file_iff.mp reached, readable⟩
  · rintro ⟨spelled, readable⟩
    have distinct : ∀ v ∈ reach (Needs env entry) Target.program, ∀ w ∈
        reach (Needs env entry) .program, ∀ key, targetKey env v = some key →
          targetKey env w = some key → v = w := by
      intro v _ w _ key first second
      rw [(targetKey_eq_some first).1, (targetKey_eq_some second).1]
    cases load_complete.covered load_guarded fresh distinct ran quiet _
      (reach_file_iff.mpr spelled) with
    | seen hasKey inside =>
      obtain ⟨same, -⟩ := targetKey_eq_some hasKey
      cases same
      exact inside
    | opens noKey => simp [targetKey_file readable] at noKey

theorem mem_modules_iff (ran : env.loadEntryLossy entry fuel = some loader) :
    path ∈ loader.modules.map ParsedModule.path ↔
      env.Spelled entry path ∧ (env.tree.fileOf path).isSome := by
  rw [(loaderOk_of_load ran).modules, List.mem_reverse]
  exact mem_loadedPaths_iff ran

/-- If every file has one path, there are finitely many paths. -/
theorem finite_reach (once : env.SpelledOnce entry) :
    (reach (Needs env entry) Target.program).Finite := by
  have readable : {path | env.Spelled entry path ∧ (env.tree.fileOf path).isSome}.Finite := by
    refine Set.Finite.of_finite_image (f := env.tree.fileOf) ?_ ?_
    · refine ((env.tree.files : Set Place).toFinite.image some).subset ?_
      rintro _ ⟨path, ⟨-, isFile⟩, rfl⟩
      obtain ⟨place, file⟩ := Option.isSome_iff_exists.mp isFile
      exact ⟨place, (FileTree.fileOf_eq_some.mp file).2, file.symm⟩
    · rintro p ⟨spelled, isFile⟩ q ⟨spelled', -⟩ same
      obtain ⟨place, file⟩ := Option.isSome_iff_exists.mp isFile
      exact once p q place spelled spelled' file (same ▸ file)
  have imported := readable.biUnion fun path _ => (env.importPaths path).finite_toSet
  have paths := ((env.roots entry).finite_toSet.union imported).image Target.file
  refine (paths.insert .program).subset fun target reached => ?_
  rcases Relation.ReflTransGen.cases_tail reached with same | ⟨source, before, needs⟩
  · exact .inl same
  · obtain ⟨path, member, rfl⟩ := List.mem_map.mp needs
    refine .inr ⟨path, ?_, rfl⟩
    cases source with
    | program => exact .inl member
    | file from' =>
      obtain ⟨place, file⟩ := mem_importPaths member
      exact .inr (Set.mem_biUnion ⟨reach_file_iff.mp before, by simp [file]⟩ member)

/-- Then loading ends. -/
theorem load_ends (once : env.SpelledOnce entry) :
    ∃ fuel loader, env.loadEntryLossy entry fuel = some loader := by
  let rank : Target → Nat
    | .program => 1
    | .file _ => 0
  have falls : ∀ v ∈ reach (Needs env entry) Target.program, targetKey env v = none →
      ∀ w, Needs env entry v w → rank w < rank v := by
    intro v _ noKey w needs
    obtain ⟨path, member, rfl⟩ := List.mem_map.mp needs
    cases v with
    | program => exact Nat.zero_lt_one
    | file source =>
      obtain ⟨place, file⟩ := mem_importPaths member
      simp [targetKey, file] at noKey
  exact load_guarded.visit_ends
    (Bounded.of_rank (finite_reach once) reach_closed rank falls .refl) emptyLoader

/-- A loader that makes one module of every file gives every file one path. -/
theorem spelledOnce_of_unique (ran : env.loadEntryLossy entry fuel = some loader)
    (unique : ∀ place, env.Reachable entry place →
      (loader.modules.filter fun m => env.tree.fileOf m.path = some place).length = 1) :
    env.SpelledOnce entry := by
  intro p q place spelled spelled' file file'
  obtain ⟨m, only⟩ :=
    List.length_eq_one_iff.mp (unique place (reachable_iff.mpr ⟨p, spelled, file⟩))
  have path_eq {path : Path} (spelled : env.Spelled entry path)
      (file : env.tree.fileOf path = some place) : path = m.path := by
    obtain ⟨m', member, rfl⟩ :=
      List.mem_map.mp ((mem_modules_iff ran).mpr ⟨spelled, by simp [file]⟩)
    have inside : m' ∈ loader.modules.filter fun m => env.tree.fileOf m.path = some place :=
      List.mem_filter.mpr ⟨member, by simpa using file⟩
    rw [only, List.mem_singleton] at inside
    rw [inside]
  exact (path_eq spelled file).trans (path_eq spelled' file').symm

theorem unique_of_spelledOnce (ran : env.loadEntryLossy entry fuel = some loader)
    (once : env.SpelledOnce entry) {place : Place} (reachable : env.Reachable entry place) :
    (loader.modules.filter fun m => env.tree.fileOf m.path = some place).length = 1 := by
  obtain ⟨path, spelled, file⟩ := reachable_iff.mp reachable
  obtain ⟨m, member, same⟩ :=
    List.mem_map.mp ((mem_modules_iff ran).mpr ⟨spelled, by simp [file]⟩)
  have ok := loaderOk_of_load ran
  have distinct : (loader.modules.map ParsedModule.path).Nodup := by
    rw [ok.modules]
    exact List.nodup_reverse.mpr ok.distinct
  have nodup := (distinct.of_map ParsedModule.path).filter
    fun m => decide (env.tree.fileOf m.path = some place)
  have inside : m ∈ loader.modules.filter fun m => env.tree.fileOf m.path = some place :=
    List.mem_filter.mpr ⟨member, by simpa [same] using file⟩
  have only : ∀ m' ∈ loader.modules.filter fun m => env.tree.fileOf m.path = some place,
      m' = m := by
    intro m' inside'
    obtain ⟨member', file'⟩ := List.mem_filter.mp inside'
    obtain ⟨spelled', -⟩ := (mem_modules_iff ran).mp (List.mem_map_of_mem member')
    have paths := once m'.path path place spelled' spelled (by simpa using file') file
    exact List.inj_on_of_nodup_map distinct member' member (paths.trans same.symm)
  have copies := List.eq_replicate_of_mem only
  rw [copies] at nodup
  have atMost := List.nodup_replicate.mp nodup
  have atLeast := List.length_pos_of_mem inside
  omega

theorem LoadsModules.acyclic_once (loads : env.LoadsModules entry) :
    ¬ env.Cyclic entry ∧ env.SpelledOnce entry := by
  obtain ⟨fuel, loader, ran, unique, cycle⟩ := loads
  refine ⟨fun cyclic => ?_, spelledOnce_of_unique ran unique⟩
  obtain ⟨path, reported⟩ := cycle.mpr cyclic
  exact (loaderOk_of_load ran).noCycle path reported

/-- Loading does what it should exactly for programs without an import cycle in which
every file is imported by one path. -/
theorem loadsModules_iff (env : Environment) (entry : Path) :
    env.LoadsModules entry ↔ ¬ env.Cyclic entry ∧ env.SpelledOnce entry := by
  refine ⟨LoadsModules.acyclic_once, ?_⟩
  rintro ⟨acyclic, once⟩
  obtain ⟨fuel, loader, ran⟩ := load_ends once
  refine ⟨fuel, loader, ran, fun place => unique_of_spelledOnce ran once, ?_⟩
  refine iff_of_false ?_ acyclic
  rintro ⟨path, reported⟩
  exact (loaderOk_of_load ran).noCycle path reported

end Environment

/-! ### Two files in one directory -/

/-- `p/a.ciel` and `p/b.ciel`, with given imports. -/
def twoFiles (a b : List Import) : FileTree where
  dirs := {["p"]}
  files := {["p", "a.ciel"], ["p", "b.ciel"]}
  imports place := if place = ["p", "a.ciel"] then a else b
  dirs_closed := by
    intro place name member
    left
    have : (place ++ [name]).length = 1 := by simp_all
    simpa using this
  files_inside := by
    intro place member
    have : place = ["p", "a.ciel"] ∨ place = ["p", "b.ciel"] := by simpa using member
    rcases this with rfl | rfl
    · exact ⟨["p"], "a.ciel", rfl, .inr (by simp)⟩
    · exact ⟨["p"], "b.ciel", rfl, .inr (by simp)⟩
  apart := by
    intro place member
    have : place = ["p", "a.ciel"] ∨ place = ["p", "b.ciel"] := by simpa using member
    rcases this with rfl | rfl <;> decide

def twoFilesEnv (a b : List Import) : Environment where
  tree := twoFiles a b
  cwd := []
  stdExport _ := none
  userExport _ := none
  stdPaths := [[.name "std"]]

/-- Two files that import each other are loaded without a report, and a file that is
imported as `./b` and as `../p/b` is loaded twice. -/
theorem modules_misloaded :
    (¬ (twoFilesEnv [.relative 0 [] "b"] [.relative 0 [] "a"]).LoadsModules
      [.name "p", .name "a.ciel"]) ∧
    ¬ (twoFilesEnv [.relative 0 [] "b", .relative 1 ["p"] "b"] []).LoadsModules
      [.name "p", .name "a.ciel"] := by
  constructor
  · intro loads
    refine loads.acyclic_once.1 ⟨["p", "a.ciel"], ⟨[.name "p", .name "a.ciel"], ?_,
      ["p", "a.ciel"], by decide, .refl⟩, .tail (.single (b := ["p", "b.ciel"]) ?_) ?_⟩
    · simp [Environment.roots]
    · exact ⟨by decide, .relative 0 [] "b", by decide, by decide⟩
    · exact ⟨by decide, .relative 0 [] "a", by decide, by decide⟩
  · intro loads
    have root : (twoFilesEnv [.relative 0 [] "b", .relative 1 ["p"] "b"] []).Spelled
        [.name "p", .name "a.ciel"] [.name "p", .name "a.ciel"] :=
      ⟨_, by simp [Environment.roots], .refl⟩
    have same := loads.acyclic_once.2 [.name "p", .name "b.ciel"]
      [.name "p", .parent, .name "p", .name "b.ciel"] ["p", "b.ciel"] (root.next (by decide))
      (root.next (by decide)) (by decide) (by decide)
    revert same
    decide

end Ciel.Driver
