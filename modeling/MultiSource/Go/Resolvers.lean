import MultiSource.Go.Names
import MultiSource.Go.Sources
import MultiSource.Preload
import MultiSource.Search

/-!
# The file and the package resolver of the Go port

Both look at a filesystem through a view of it: the real one, or an `io/fs` filesystem the caller
injects. The walk up from a folder has no bound of its own, and ends because there are only so many
folders above a path.
-/

namespace MultiSource.Go

/-! ## Views -/

/-- The view of a filesystem that the resolvers work on. -/
structure View extends Vfs where
  readDir : Str → Option (List DirEntry)
  dir : Str → Str
  canon : Str → Str
  /-- Where the search for a package begins if no path is given. -/
  start : List Str
  /-- A bound for the steps up from a path. -/
  depth : Str → ℕ
  depth_dir : ∀ p, dir p ≠ p → depth (dir p) < depth p

/-- The root is `.`, and above it there is nothing. -/
def ioDepth (p : Str) : ℕ := if p = ".".toList then 0 else nameCount p + 1

theorem ioDepth_dir (p : Str) (h : pathDir (fsClean p) ≠ p) :
    ioDepth (pathDir (fsClean p)) < ioDepth p := by
  have hp : p ≠ ".".toList := by
    rintro rfl
    exact h rfl
  unfold ioDepth
  rw [if_neg hp]
  rcases pathDir_fsClean p with hroot | hlt
  · rw [if_pos hroot]
    omega
  · split_ifs <;> omega

/-- An injected filesystem, `ioVFS`. -/
def ioView (fs : MapFs) : View where
  toVfs := ioVfs fs
  -- `MapFs` reads a backslash as a slash. Here it is part of a name, and no folder has that name.
  readDir p := if validPath (fsClean p) ∧ '\\' ∉ fsClean p then fs.readDir (fsClean p) else none
  dir p := pathDir (fsClean p)
  canon := fsClean
  start := [".".toList]
  depth := ioDepth
  depth_dir := ioDepth_dir

/-! ## The walk up -/

section Ancestors

variable (v : View)

/-- A folder and each of its parents, as far as so many steps go. -/
def ancestorsFrom : ℕ → Str → List Str
  | 0, _ => []
  | n + 1, dir => dir :: if v.dir dir = dir then [] else ancestorsFrom n (v.dir dir)

/-- A folder followed by each of its parents. -/
def ancestors (dir : Str) : List Str :=
  if dir = [] then [] else ancestorsFrom v (v.depth dir + 1) dir

/-- More steps than are needed find no more folders. -/
theorem ancestorsFrom_eq {n m : ℕ} {dir : Str} (hn : v.depth dir < n) (hm : v.depth dir < m) :
    ancestorsFrom v n dir = ancestorsFrom v m dir := by
  induction n generalizing m dir with
  | zero => omega
  | succ n ih =>
    cases m with
    | zero => omega
    | succ m =>
      rw [ancestorsFrom, ancestorsFrom]
      by_cases h : v.dir dir = dir
      · rw [if_pos h, if_pos h]
      · have := v.depth_dir dir h
        rw [if_neg h, if_neg h, ih (m := m) (by omega) (by omega)]

/-- The walk is the loop of the source: a folder, and then the walk from its parent unless that is
the folder itself. -/
theorem ancestors_eq {dir : Str} (h : dir ≠ []) (hp : v.dir dir ≠ []) : ancestors v dir =
    dir :: if v.dir dir = dir then [] else ancestors v (v.dir dir) := by
  unfold ancestors
  rw [if_neg h, ancestorsFrom, if_neg hp]
  by_cases hd : v.dir dir = dir
  · rw [if_pos hd, if_pos hd]
  · rw [if_neg hd, if_neg hd, ancestorsFrom_eq v (v.depth_dir dir hd) (Nat.lt_succ_self _)]

end Ancestors

/-! ## The file resolver -/

/-- A resolution to a source. -/
def Resolution.hit (spec : PathSpec) (full src : Str) (search : List Str) : Resolution :=
  { spec with full, kind := extKind full, src, found := true, search }

/-- A resolution that found nothing. -/
def Resolution.miss (spec : PathSpec) (search : List Str) : Resolution :=
  { spec with src := [], found := false, search }

structure FileResolverOptions where
  pathFinder : Option (Str → Str)
  preload : Entries Str

namespace FileResolverOptions

variable (o : FileResolverOptions) (v : View)

/-- The text at a path, preloaded or read. -/
def text (p : Str) : Option Str := o.preload.get p <|> v.readFile p

/-- The reference as the pathfinder has it. -/
def specOf (spec : PathSpec) : PathSpec :=
  match o.pathFinder with
  | some pathFinder => resolvePathSpec (pathFinder spec.path) spec.base
  | none => spec

end FileResolverOptions

/-- `MakeFileResolver`. -/
def fileResolver (o : FileResolverOptions) (v : View) : Resolver := fun spec mopts =>
  let spec := o.specOf spec
  if spec.full = [] then .miss spec []
  else
    let full := v.canon spec.full
    let potentials := buildPotentials full mopts.implicitExt
    match firstLoaded (o.text v) potentials with
    | some (p, src) => .hit spec p src potentials
    | none => .miss { spec with full } potentials

/-! ## The package resolver -/

structure PkgResolverOptions where
  paths : List Str

section Package

variable (v : View) (manifest : Str → Option Str)

/-- Look for a package in the `node_modules` of one folder after another, in none twice. -/
def searchFolders (ref : Str) (exts : List Str) :
    List Str → List Str → List Str → Option (Str × Str) × List Str
  | [], _, search => (none, search)
  | dir :: dirs, seen, search =>
    let nm := v.join [dir, "node_modules".toList]
    if nm ∈ seen then searchFolders ref exts dirs seen search
    else
      match resolveInPkgDir v.toVfs manifest nm ref exts search with
      | (some hit, search) => (some hit, search)
      | (none, search) => searchFolders ref exts dirs (seen ++ [nm]) search

/-- `MakePkgResolver`. -/
def pkgResolver (o : PkgResolverOptions) : Resolver := fun spec mopts =>
  if spec.path = [] then .miss spec []
  else if isRelativeRef spec.path = true ∧ spec.full ≠ [] then
    let potentials := buildPotentials (v.canon spec.full) mopts.implicitExt
    match firstLoaded v.readFile potentials with
    | some (p, src) => .hit spec p src potentials
    | none => .miss spec potentials
  else
    let roots := if o.paths = [] then v.start else o.paths
    match searchFolders v manifest spec.path mopts.implicitExt (roots.flatMap (ancestors v)) [] []
      with
    | (some (full, src), search) => .hit spec full src search
    | (none, search) => .miss spec search

end Package

example : (fileResolver ⟨none, []⟩ (ioView (MapFs.ofList [("b/index.jsonic".toList, [])]))
    (resolvePathSpec "../b".toList "a".toList) ⟨[], [".jsonic".toList]⟩).full =
      "b/index.jsonic".toList := by decide

end MultiSource.Go
