import MultiSource.Options

/-!
# The three resolvers

An in-memory map, the filesystem, and package folders. Each is the sandbox for the references it
serves.
-/

namespace MultiSource

/-- How many parent folders a reference is chased up through for a linked package. -/
def NODE_MODULES_LEVELS : ℕ := 7

/-- The base a reference resolves against: the directory of the source that contains it, else the
configured base path. -/
def baseFor (input : ResolverInput) (isFile : Str → Bool) (dir : Str → Str) : Str :=
  let raw := (sourcePath input.parseMeta).getD input.options.path
  if raw = [] then []
  else if isFile raw then dir raw
  else raw

/-- The first candidate that loads, with its text. -/
def firstLoaded (load : Str → Option Str) : List Str → Option (Str × Str)
  | [] => none
  | candidate :: candidates =>
    match load candidate with
    | some src => some (candidate, src)
    | none => firstLoaded load candidates

/-- The resolution to the first candidate that loads. -/
def resolveFirst (load : Str → Option Str) (spec : PathSpec) (candidates search : List Str) :
    Resolution :=
  match firstLoaded load candidates with
  | some (candidate, src) => (Resolution.ofFound spec candidate src).withSearch search
  | none => (Resolution.notFound spec).withSearch search

/-- The normal form of a path, or its potentials where it has no extension. -/
def potentialsOf (full : Str) (kind : Str) (implicitExt : List Str) : List Str :=
  if kind = NONE then buildPotentials full implicitExt else [full]

/-! ## The in-memory resolver -/

/-- A map of path to content, a closed world. -/
structure MapResolver where
  files : Entries Str

def MapResolver.resolve (self : MapResolver) (reference : Option Str) (input : ResolverInput) :
    Resolution :=
  let isFile (path : Str) : Bool := (self.files.get path).isSome
  let base := baseFor input isFile sourceDir
  let spec := resolvePathSpec reference base
  match spec.full with
  | none => .notFound spec
  | some full =>
    let potentials := potentialsOf full spec.kind input.options.implicitExt
    resolveFirst self.files.get spec potentials potentials

/-! ## The file resolver -/

/-- A configured sandbox root, put through the same filesystem as the candidates. -/
structure Confinement where
  root : Option Str
  osPaths : Bool

namespace Confinement

def new (fs : SourceFs) (root : Option Str) : Confinement where
  root := root.map fun root => (fs.realPath root).getD (fs.canon root)
  osPaths := fs.nativePaths

def allows (self : Confinement) (fs : SourceFs) (candidate : Str) : Bool :=
  match self.root with
  | none => true
  | some root =>
    match fs.realPath candidate with
    | some real => withinRoot real root self.osPaths
    | none => false

end Confinement

/-- The filesystem a resolver reads: its own, the one of the options, or the real one. -/
def filesystem (own : Option SourceFs) (options : MultiSourceOptions) (os : Os) : SourceFs :=
  (own <|> options.fs).getD os.toFs

structure FileResolver where
  pathfinder : Option (Str → Str)
  preload : Entries Str
  fs : Option SourceFs
  root : Option Str

namespace FileResolver

variable (self : FileResolver)

def load (fs : SourceFs) (path : Str) (root : Confinement) : Option Str :=
  if root.allows fs path then
    match self.preload.get path with
    | some src => some src
    | none => fs.readFile path
  else none

/-- The folders `node_modules/<path>` is looked for in, from `level` up. -/
def linked (fs : PathOps) (path : Str) : ℕ → Str → Option Str → List Str
  | 0, _, _ => []
  | n + 1, level, last =>
    let parent := fs.dir level
    fs.canon (fs.join [level, "node_modules".toList, path]) ::
      if last = some parent then [] else linked fs path n parent (some parent)

/-- What is tried after the path itself. -/
def potentials (fs : PathOps) (spec : PathSpec) (full : Str) (implicitExt : List Str) :
    List Str :=
  (match spec.path with
    | some path => linked fs path NODE_MODULES_LEVELS spec.base none
    | none => []) ++
  if extKind (some full) = NONE then (buildPotentials full implicitExt).drop 1 else []

/-- The reference against its base. A preloaded source is a file too. -/
def specOf (fs : SourceFs) (reference : Option Str) (input : ResolverInput) : PathSpec :=
  let found := reference.map (self.pathfinder.getD id)
  let isFile (path : Str) : Bool := (self.preload.get path).isSome || (fs.readFile path).isSome
  resolvePathSpec found (baseFor input isFile fs.dir)

/-- The search for a path in normal form. -/
def find (fs : SourceFs) (root : Confinement) (spec : PathSpec) (full : Str)
    (implicitExt : List Str) : Resolution :=
  match self.load fs full root with
  | some src => (Resolution.ofFound spec full src).withSearch [full]
  | none =>
    let potentials := potentials fs.toPathOps spec full implicitExt
    resolveFirst (self.load fs · root) spec potentials (full :: potentials)

def resolve (os : Os) (reference : Option Str) (input : ResolverInput) : Resolution :=
  let fs := filesystem self.fs input.options os
  let root := Confinement.new fs self.root
  let spec := self.specOf fs reference input
  match spec.full with
  | none => .notFound spec
  | some full =>
    let full := fs.canon full
    let spec := { spec with full := some full, kind := extKind (some full) }
    self.find fs root spec full input.options.implicitExt

end FileResolver

/-! ## The package resolver -/

/-- Is `reference` an explicit relative reference? -/
def isRelativeRef (reference : Str) : Bool :=
  reference = ".".toList || reference = "..".toList || "./".toList.isPrefixOf reference
    || "../".toList.isPrefixOf reference || ".\\".toList.isPrefixOf reference
    || "..\\".toList.isPrefixOf reference

/-- `current` and its parents, `n` of them at most. -/
def ancestorsFrom (fs : PathOps) : ℕ → Str → List Str
  | 0, _ => []
  | n + 1, current =>
    let parent := fs.dir current
    current :: if parent = current then [] else ancestorsFrom fs n parent

/-- `dir` followed by each of its parents. -/
def ancestors (fs : PathOps) (dir : Str) : List Str :=
  if dir = [] then [] else ancestorsFrom fs 65 dir

/-- Try candidates in order, recording each in the search list. -/
def tryEach (load : Str → Option Str) :
    List Str → List Str → Option (Str × Str) × List Str
  | [], search => (none, search)
  | candidate :: candidates, search =>
    match load candidate with
    | some src => (some (candidate, src), search ++ [candidate])
    | none => tryEach load candidates (search ++ [candidate])

/-- Is `candidate` an index file inside the target folder? -/
def isIndexOf (candidate target : Str) : Bool :=
  match candidate.dropPrefix? target with
  | some rest =>
    match rest with
    | c :: name => isSep c && "index.".toList.isPrefixOf name
    | [] => false
  | none => false

structure PkgResolver where
  paths : List Str
  fs : Option SourceFs
  root : Option Str

namespace PkgResolver

variable (self : PkgResolver) (manifest : Str → Option Str)

def pkgLoad (fs : SourceFs) (root : Confinement) (candidate : Str) : Option Str :=
  if root.allows fs candidate then fs.readFile candidate else none

/-- The `main` a package's `package.json` declares, if it declares a usable one. `manifest` reads
the string under `main` from a JSON text. -/
def manifestMain (load : Str → Option Str) (fs : PathOps) (target : Str) (search : List Str) :
    Option Str × List Str :=
  let file := fs.join [target, "package.json".toList]
  let search := search ++ [file]
  match (load file).bind manifest with
  | some main => (if main = [] then none else some main, search)
  | none => (none, search)

/-- Resolve a package reference inside one `node_modules` directory: the reference as a file, then
the `main` of the package, then an index file. -/
def resolveInPkgDir (fs : PathOps) (load : Str → Option Str) (nodeModules reference : Str)
    (implicitExt search : List Str) : Option (Str × Str) × List Str :=
  let target := fs.join [nodeModules, reference]
  let potentials := buildPotentials target implicitExt
  let files := potentials.filter fun candidate => !isIndexOf candidate target
  let indexes := potentials.filter fun candidate => isIndexOf candidate target
  match tryEach load files search with
  | (some hit, search) => (some hit, search)
  | (none, search) =>
    let (main, search) := manifestMain manifest load fs target search
    let mains := match main with
      | some main => buildPotentials (fs.join [target, main]) implicitExt
      | none => []
    match tryEach load mains search with
    | (some hit, search) => (some hit, search)
    | (none, search) => tryEach load indexes search

/-- Search each folder's `node_modules` that was not searched before. -/
def searchFolders (fs : PathOps) (load : Str → Option Str) (reference : Str)
    (implicitExt : List Str) :
    List Str → List Str → List Str → Option (Str × Str) × List Str
  | [], _, search => (none, search)
  | folder :: folders, seen, search =>
    let nodeModules := fs.join [folder, "node_modules".toList]
    if nodeModules ∈ seen then searchFolders fs load reference implicitExt folders seen search
    else
      match resolveInPkgDir manifest fs load nodeModules reference implicitExt search with
      | (some hit, search) => (some hit, search)
      | (none, search) =>
        searchFolders fs load reference implicitExt folders (seen ++ [nodeModules]) search

/-- A reference to a package, looked for from every root up. -/
def resolvePackage (fs : SourceFs) (load : Str → Option Str) (os : Os) (spec : PathSpec)
    (path : Str) (implicitExt : List Str) : Resolution :=
  let roots :=
    if self.paths ≠ [] then self.paths
    else if fs.nativePaths then os.cwd.toList
    else [".".toList]
  let folders := roots.flatMap fun root => ancestors fs.toPathOps (fs.canon root)
  match searchFolders manifest fs.toPathOps load path implicitExt folders [] [] with
  | (some (full, src), search) => (Resolution.ofFound spec full src).withSearch search
  | (none, search) => (Resolution.notFound spec).withSearch search

def resolve (os : Os) (reference : Option Str) (input : ResolverInput) : Resolution :=
  let fs := filesystem self.fs input.options os
  let root := Confinement.new fs self.root
  let isFile (path : Str) : Bool := (fs.readFile path).isSome
  let spec := resolvePathSpec reference (baseFor input isFile fs.dir)
  let load := pkgLoad fs root
  match spec.path with
  | none => .notFound spec
  | some path =>
    if path = [] then .notFound spec
    else if isRelativeRef path then
      match spec.full with
      | none => .notFound spec
      | some full =>
        let full := fs.canon full
        let potentials := potentialsOf full (extKind (some full)) input.options.implicitExt
        resolveFirst load spec potentials potentials
    else self.resolvePackage manifest fs load os spec path input.options.implicitExt

end PkgResolver

end MultiSource
