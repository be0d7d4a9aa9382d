import MultiSource.Ts.Pkg

/-!
# The file resolver of the canonical port

`makeFileResolver` looks a source up among the preloaded files, and then on disk. The folder a
reference starts from it asks of the filesystem alone.
-/

namespace MultiSource.Ts

namespace NodePath

/-- `resolve` of several paths. -/
def resolveAll (cwd : Str) (paths : List Str) : Str :=
  let step (whole path : Str) : Str :=
    if isAbsolute path then path
    else if path = [] then whole
    else if whole = [] then path
    else whole ++ '/' :: path
  resolve cwd (paths.foldl step [])

def dirname : Str → Str
  | [] => ".".toList
  | c :: rest =>
    match rsplit (· = '/') (trimEnd (· = '/') rest) with
    | some (before, _) => if c = '/' ∧ before = [] then "//".toList else c :: before
    | none => if c = '/' then "/".toList else ".".toList

example : resolveAll "/srv".toList ["lib".toList, "node_modules".toList, "../a".toList] =
    "/srv/lib/a".toList := by decide
example : dirname "/srv/lib//".toList = "/srv".toList := by decide

end NodePath

/-- The options of `makeFileResolver`. Without a preload the map is empty. Its keys are looked up
by full paths, which are no names an object inherits. -/
structure FileResolver where
  pathfinder : Option (Body → Str)
  preload : Entries Str

namespace FileResolver

variable (self : FileResolver) (host : Host) (objectText : ObjectText)

def resolvefolder (fs : NodeFs) (path : Option Str) : Except Thrown (Option Str) :=
  PkgResolver.resolvefolder fs path

/-- `preload?.[path] ?? load(path, fs)`. -/
def lookup (fs : NodeFs) (path : Str) : Option Str := self.preload.get path <|> fs.load path

/-- The path in the `node_modules` of a folder and of the folders above it, as far as `levels`. -/
def linked (path : Str) : ℕ → Option Str → Str → List Str
  | 0, _, _ => []
  | levels + 1, last, base =>
    let above := NodePath.dirname base
    NodePath.resolveAll host.cwd [base, "node_modules".toList, path] ::
      if last = some above then [] else linked path levels (some above) above

/-- What is tried after the path itself. -/
def potentials (popts : Options) (ps : PathSpec) : List Str :=
  let links := match ps.base, ps.path with
    | some base, some path => linked host path 7 none base
    | _, _ => []
  links ++ if ps.kind = NONE then
    buildPotentials ps popts fun a p => NodePath.resolve host.cwd (NodePath.join [a, p]) else []

/-- The first path with a source. -/
def firstSource (fs : NodeFs) (paths : List Str) : Option (Str × Str) :=
  paths.findSome? fun path => (self.lookup fs path).map fun src => (path, src)

/-- The search for the source of a path spec. -/
def find (fs : NodeFs) (popts : Options) (ps : PathSpec) : Resolution Str :=
  match ps.full with
  | none => { ps with src := none, found := false, search := some [] }
  | some full =>
    let full := NodePath.resolve host.cwd full
    let ps := { ps with full := some full }
    match self.lookup fs full with
    | some src => { ps with src := some src, found := true, search := some [full] }
    | none =>
      let potentials := potentials host popts ps
      let search := some (full :: potentials)
      match self.firstSource fs potentials with
      | some (path, src) =>
        { ps with
          full := some path, kind := extKind (some path), src := some src, found := true, search }
      | none => { ps with src := none, found := false, search }

/-- The body the path spec is made of. -/
def foundSpec (spec : Body) : Body :=
  match self.pathfinder with
  | some pathfinder => .string (pathfinder spec)
  | none => spec

/-- `ctx.meta?.fs || SystemFs`. -/
def filesystem (request : Request) : NodeFs := request.ctx.fs.getD host.systemFs

/-- The folder or the source a reference starts from. -/
def basePath (request : Request) : Option Str := request.ctx.path <|> request.popts.path

/-- One call of the resolver. -/
def resolve (request : Request) : Except Thrown (Resolution Str) := do
  let fs := filesystem host request
  let ps ← resolvePathSpec objectText request.popts request.ctx (self.foundSpec request.spec)
    (resolvefolder fs)
  return self.find host fs request.popts ps

/-! ## When a call answers -/

/-- A body whose path can be read. -/
def Readable : Body → Prop
  | .absent => False
  | .null => False
  | .object entries => ∀ value, Entries.get "path".toList entries = some value →
    isNullish value = false → (coerce objectText value).isOk = true
  | _ => True

variable {self host objectText}

theorem specPath_ok_iff (body : Body) :
    (∃ path, specPath objectText body = .ok path) ↔ Readable objectText body := by
  cases body with
  | absent => exact iff_of_false (by rintro ⟨path, h⟩; cases h) id
  | null => exact iff_of_false (by rintro ⟨path, h⟩; cases h) id
  | object entries =>
    rw [specPath, Readable]
    cases Entries.get "path".toList entries with
    | none => exact iff_of_true ⟨none, rfl⟩ fun value h => absurd h (by simp)
    | some value =>
      simp only [Option.some.injEq, forall_eq']
      by_cases hn : isNullish value = true
      · simp [hn]
      · cases coerce objectText value with
        | error e => simp [hn, Except.map, Except.isOk, Except.toBool]
        | ok text => simp [hn, Except.map, Except.isOk, Except.toBool]
  | _ => exact iff_of_true ⟨_, rfl⟩ trivial

theorem resolvefolder_ok_iff (fs : NodeFs) (path : Option Str) :
    (∃ base, resolvefolder fs path = .ok base) ↔ ∀ p, path = some p → fs.statSync p ≠ none := by
  cases path with
  | none => exact iff_of_true ⟨none, rfl⟩ fun p h => absurd h (by simp)
  | some path =>
    simp only [resolvefolder, PkgResolver.resolvefolder, Option.some.injEq, forall_eq']
    cases fs.statSync path with
    | none => simp
    | some file => cases file <;> simp

theorem resolvePathSpec_ok_iff {popts : Options} {ctx : Ctx} {spec : Body}
    {folder : Option Str → Except Thrown (Option Str)} :
    (∃ ps, resolvePathSpec objectText popts ctx spec folder = .ok ps) ↔
      (∃ base, folder (ctx.path <|> popts.path) = .ok base) ∧
        ∃ path, specPath objectText spec = .ok path := by
  unfold resolvePathSpec
  cases hb : folder (ctx.path <|> popts.path) with
  | error e => simp [bind, Except.bind]
  | ok base =>
    cases hp : specPath objectText spec with
    | error e => simp [bind, Except.bind]
    | ok path => simp [bind, Except.bind, pure, Except.pure]

variable (self host objectText) in
theorem resolve_eq_map (request : Request) : self.resolve host objectText request =
    (resolvePathSpec objectText request.popts request.ctx (self.foundSpec request.spec)
      (resolvefolder (filesystem host request))).map
        (self.find host (filesystem host request) request.popts) := by
  unfold resolve
  dsimp only
  cases resolvePathSpec objectText request.popts request.ctx (self.foundSpec request.spec)
      (resolvefolder (filesystem host request)) with
  | error e => rfl
  | ok ps => rfl

theorem resolve_ok_iff (request : Request) :
    (∃ r, self.resolve host objectText request = .ok r) ↔
      Readable objectText (self.foundSpec request.spec) ∧
        ∀ base, basePath request = some base → (filesystem host request).statSync base ≠ none := by
  rw [← specPath_ok_iff, ← resolvefolder_ok_iff, and_comm, basePath, ← resolvePathSpec_ok_iff,
    resolve_eq_map]
  cases resolvePathSpec objectText request.popts request.ctx (self.foundSpec request.spec)
      (resolvefolder (filesystem host request)) with
  | error e => simp [Except.map]
  | ok ps => simp [Except.map]

/-! ## The same source -/

/-- Paths as the resolver spells them: in full, or in full with an implicit extension. -/
def Spelled (host : Host) (popts : Options) (path : Str) : Prop :=
  ∃ p, path = NodePath.resolve host.cwd p ∨
    ∃ ext ∈ popts.implictExt, path = NodePath.resolve host.cwd p ++ ext

theorem spelled_resolve (popts : Options) (p : Str) :
    Spelled host popts (NodePath.resolve host.cwd p) :=
  ⟨p, .inl rfl⟩

theorem spelled_linked {popts : Options} {path : Str} {levels : ℕ} {last : Option Str}
    {base : Str} : ∀ p ∈ linked host path levels last base, Spelled host popts p := by
  induction levels generalizing last base with
  | zero => exact fun _ hp => absurd hp List.not_mem_nil
  | succ levels ih =>
    intro p hp
    rw [linked] at hp
    rcases List.mem_cons.mp hp with rfl | hp
    · exact spelled_resolve popts _
    · split_ifs at hp
      · exact absurd hp List.not_mem_nil
      · exact ih p hp

theorem spelled_buildPotentials {popts : Options} {ps : PathSpec} {q : Str}
    (hq : ps.full = some (NodePath.resolve host.cwd q)) :
    ∀ p ∈ buildPotentials ps popts fun a p => NodePath.resolve host.cwd (NodePath.join [a, p]),
      Spelled host popts p := by
  intro p hp
  unfold buildPotentials at hp
  dsimp only at hp
  split_ifs at hp
  · exact absurd hp List.not_mem_nil
  · rw [hq, Option.getD_some] at hp
    rcases List.mem_append.mp hp with hp | hp
    · rcases List.mem_append.mp hp with hp | hp
      · obtain ⟨ext, hext, rfl⟩ := List.mem_map.mp hp
        exact ⟨q, .inr ⟨ext, hext, rfl⟩⟩
      · obtain ⟨ext, -, rfl⟩ := List.mem_map.mp hp
        exact spelled_resolve popts _
    · cases hf : ps.path.bind folderName with
      | none =>
        rw [hf] at hp
        exact absurd hp List.not_mem_nil
      | some folder =>
        rw [hf] at hp
        obtain ⟨ext, -, rfl⟩ := List.mem_map.mp hp
        exact spelled_resolve popts _

theorem spelled_potentials {popts : Options} {ps : PathSpec} {q : Str}
    (hq : ps.full = some (NodePath.resolve host.cwd q)) :
    ∀ p ∈ potentials host popts ps, Spelled host popts p := by
  intro p hp
  rcases List.mem_append.mp hp with hp | hp
  · cases hb : ps.base with
    | none => simp [hb] at hp
    | some base =>
      cases hpath : ps.path with
      | none => simp [hb, hpath] at hp
      | some path =>
        simp only [hb, hpath] at hp
        exact spelled_linked p hp
  · split_ifs at hp
    · exact spelled_buildPotentials hq p hp
    · exact absurd hp List.not_mem_nil

theorem firstSource_congr {fs fs' : NodeFs} {paths : List Str}
    (h : ∀ p ∈ paths, self.lookup fs p = self.lookup fs' p) :
    self.firstSource fs paths = self.firstSource fs' paths := by
  unfold firstSource
  induction paths with
  | nil => rfl
  | cons path paths ih =>
    rw [List.findSome?_cons, List.findSome?_cons, h path (List.mem_cons_self ..),
      ih fun p hp => h p (List.mem_cons_of_mem _ hp)]

/-- Where two filesystems hold the same for the resolver, the search is the same. -/
theorem find_congr {fs fs' : NodeFs} {popts : Options}
    (h : ∀ p, Spelled host popts p → self.lookup fs p = self.lookup fs' p) (ps : PathSpec) :
    self.find host fs popts ps = self.find host fs' popts ps := by
  unfold find
  cases ps.full with
  | none => rfl
  | some full =>
    dsimp only
    rw [h _ (spelled_resolve popts full),
      firstSource_congr fun p hp => h p (spelled_potentials rfl p hp)]

/-- `fs'` is `fs` with all preloaded files in place. Of these, `fs` has some or none. -/
structure Restores (preload : Entries Str) (host : Host) (popts : Options) (fs fs' : NodeFs) :
    Prop where
  there : ∀ p, preload.get p ≠ none → fs'.statSync p = some true
  gone : ∀ p, preload.get p ≠ none → fs.statSync p = none ∨ fs.statSync p = some true
  rest : ∀ p, Spelled host popts p → preload.get p = none → fs'.load p = fs.load p

theorem Restores.lookup_eq {popts : Options} {fs fs' : NodeFs}
    (h : Restores self.preload host popts fs fs') {p : Str} (hp : Spelled host popts p) :
    self.lookup fs' p = self.lookup fs p := by
  unfold lookup
  cases hs : self.preload.get p with
  | none => rw [h.rest p hp hs]
  | some src => rfl

/-- A reference over an injected filesystem. -/
def withFs (request : Request) (fs : NodeFs) : Request :=
  { request with ctx := { request.ctx with fs := some fs } }

/-- Two answers with the same full path, kind and text. -/
def SameSource (a b : Except Thrown (Resolution Str)) : Prop :=
  ∃ r r', a = .ok r ∧ b = .ok r' ∧ r.full = r'.full ∧ r.kind = r'.kind ∧ r.src = r'.src

/-- The folder of a preloaded source is the same where the source is a file in both filesystems. -/
theorem resolve_withFs_eq {request : Request} {source : Str} {fs' : NodeFs}
    (hsource : request.ctx.path = some source) (hpre : self.preload.get source ≠ none)
    (h : Restores self.preload host request.popts (filesystem host request) fs')
    (hstat : (filesystem host request).statSync source ≠ none) :
    self.resolve host objectText (withFs request fs') = self.resolve host objectText request := by
  have hfile : (filesystem host request).statSync source = some true :=
    (h.gone source hpre).resolve_left hstat
  have hfolder : resolvefolder fs' (some source) =
      resolvefolder (filesystem host request) (some source) := by
    simp only [resolvefolder, PkgResolver.resolvefolder, hfile, h.there source hpre]
  have hspec : resolvePathSpec objectText request.popts (withFs request fs').ctx
      (self.foundSpec request.spec) (resolvefolder fs') =
        resolvePathSpec objectText request.popts request.ctx (self.foundSpec request.spec)
          (resolvefolder (filesystem host request)) := by
    unfold resolvePathSpec withFs
    dsimp only
    rw [hsource]
    change (resolvefolder fs' (some source) >>= _) = (resolvefolder _ (some source) >>= _)
    rw [hfolder]
  have hfind : self.find host fs' request.popts =
      self.find host (filesystem host request) request.popts := by
    funext ps
    exact find_congr (fun p hp => h.lookup_eq hp) ps
  rw [resolve_eq_map, resolve_eq_map, ← hspec, ← hfind]
  rfl

/-- **The preload with the files gone.** A call answers, and for a reference inside a preloaded
source as it does with all preloaded files in place, if and only if the body's path can be read and
the filesystem answers for the path the reference starts from. -/
theorem preload_stands_alone_iff (self : FileResolver) (host : Host) (objectText : ObjectText)
    (request : Request) :
    ((∃ r, self.resolve host objectText request = .ok r) ∧
      ∀ source fs', request.ctx.path = some source → self.preload.get source ≠ none →
        Restores self.preload host request.popts (filesystem host request) fs' →
        SameSource (self.resolve host objectText request)
          (self.resolve host objectText (withFs request fs'))) ↔
      Readable objectText (self.foundSpec request.spec) ∧
        ∀ base, basePath request = some base →
          (filesystem host request).statSync base ≠ none := by
  constructor
  · rintro ⟨hok, -⟩
    exact (resolve_ok_iff request).mp hok
  · intro h
    have hok := (resolve_ok_iff request).mpr h
    refine ⟨hok, fun source fs' hsource hpre hr => ?_⟩
    have hstat : (filesystem host request).statSync source ≠ none :=
      h.2 source (by rw [basePath, hsource]; rfl)
    rw [resolve_withFs_eq hsource hpre hr hstat]
    obtain ⟨r, hr⟩ := hok
    exact ⟨r, r, hr, hr, rfl, rfl, rfl⟩

/-! ## Two preloaded files -/

def srvResolver : FileResolver where
  pathfinder := none
  preload := [("/srv/a.jsonic".toList, "@b.jsonic".toList), ("/srv/b.jsonic".toList, "1".toList)]

def emptyFs : NodeFs := ⟨fun _ => none, fun _ => false, fun _ => none⟩

/-- A filesystem with the preloaded files. -/
def srvFs : NodeFs where
  statSync path := if srvResolver.preload.get path = none then none else some true
  existsSync path := (srvResolver.preload.get path).isSome
  load path := srvResolver.preload.get path

def srvHost : Host := ⟨⟨fun _ _ => none, none⟩, emptyFs, "/".toList⟩

/-- The reference inside the first of them to the second, the files gone. -/
def srvRequest : Request :=
  ⟨.string "b.jsonic".toList, ⟨none, []⟩, ⟨some emptyFs, some "/srv/a.jsonic".toList⟩⟩

theorem preload_needs_its_files :
    Restores srvResolver.preload srvHost srvRequest.popts emptyFs srvFs ∧
      srvResolver.resolve srvHost (fun _ => .ok []) srvRequest =
        .error (.system "/srv/a.jsonic".toList) ∧
      ∃ r, srvResolver.resolve srvHost (fun _ => .ok []) (withFs srvRequest srvFs) = .ok r ∧
        r.full = some "/srv/b.jsonic".toList ∧ r.kind = "jsonic".toList ∧
        r.src = some "1".toList := by
  refine ⟨⟨fun p hp => if_neg hp, fun p _ => .inl rfl, fun p _ hp => hp⟩, rfl, ?_⟩
  have hok : (srvResolver.resolve srvHost (fun _ => .ok []) (withFs srvRequest srvFs)).toOption.map
      (fun r => (r.full, r.kind, r.src)) =
        some (some "/srv/b.jsonic".toList, "jsonic".toList, some "1".toList) := by
    decide +kernel
  cases hr : srvResolver.resolve srvHost (fun _ => .ok []) (withFs srvRequest srvFs) with
  | error e =>
    rw [hr] at hok
    exact absurd hok (by simp [Except.toOption])
  | ok r =>
    rw [hr] at hok
    simp only [Except.toOption, Option.map_some, Option.some.injEq, Prod.mk.injEq] at hok
    exact ⟨r, rfl, hok⟩

end FileResolver

end MultiSource.Ts
