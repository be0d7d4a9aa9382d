import MultiSource.Resolver
import MultiSource.Ts.NodePath
import MultiSource.Ts.Spec

/-!
# The package resolver of the canonical port

`makePkgResolver` keeps the search options of its `require` in the closure around the resolver. A
resolver is a state, its options, and a step, one reference.
-/

namespace MultiSource.Ts

/-- A `require` function: what `require.resolve(target, options)` answers, if it does not throw, the
options being the search paths if any, and `require.main.paths`. -/
structure Require where
  resolve : Str → Option (List Str) → Option (Option Str)
  mainPaths : Option (List Str)

/-- The `require` option of a resolver. -/
inductive RequireOption : Type
  | function (require : Require)
  | root (path : Str)
  | roots (paths : List Str)

/-- Where the module runs: its own `require`, the system's files, and the working directory. -/
structure Host where
  require : Require
  systemFs : NodeFs
  cwd : Str

/-- One call of a resolver. -/
structure Request where
  spec : Body
  popts : Options
  ctx : Ctx

namespace PkgResolver

/-- `requireOptions`, the variable of the closure. -/
abbrev State : Type := Option (List Str)

variable (host : Host) (objectText : ObjectText)

def useRequire : RequireOption → Require
  | .function require => require
  | _ => host.require

/-- The search options a resolver is made with. -/
def configured : RequireOption → State
  | .function _ => none
  | .root path => some [path]
  | .roots paths => some paths

/-- The search options the fallback sets. -/
def fallbackOptions : State := some ["/".toList]

def isRelativeRef (reference : Str) : Bool := MultiSource.isRelativeRef reference

def resolvefolder (fs : NodeFs) (path : Option Str) : Except Thrown (Option Str) :=
  match path with
  | none => .ok none
  | some path =>
    match fs.statSync path with
    | none => .error (.system path)
    | some true => .ok (some (NodePath.dir path))
    | some false => .ok (some path)

/-! ## The fallback's candidates -/

/-- What follows a first segment and its slash, `[^/]+\/`. -/
def afterSegment (path : Str) : Option Str :=
  match path.span (· ≠ '/') with
  | (_ :: _, _ :: rest) => some rest
  | _ => none

/-- The reference without its module name, `/^(@[^/]+\/)?[^/]+\//`. -/
def subpath (path : Str) : Str :=
  let named := match path with
    | '@' :: rest => (afterSegment rest).bind afterSegment
    | _ => none
  (named <|> afterSegment path).getD path

/-- A replacement string, its patterns expanded for a match of `node_modules` at the end of a text
that begins with `before`. -/
def expandReplacement (before : Str) : Str → Str
  | '$' :: c :: rest =>
    if c = '$' then '$' :: expandReplacement before rest
    else if c = '&' then "node_modules".toList ++ expandReplacement before rest
    else if c = Char.ofNat 96 then before ++ expandReplacement before rest
    else if c = Char.ofNat 39 then expandReplacement before rest
    else '$' :: expandReplacement before (c :: rest)
  | c :: rest => c :: expandReplacement before rest
  | [] => []

/-- `path.replace(/node_modules$/, replacement)`. -/
def replaceNodeModules (path replacement : Str) : Str :=
  match path.dropSuffix? "node_modules".toList with
  | some before => before ++ expandReplacement before replacement
  | none => path

/-- `text.length`, in UTF-16 code units. -/
def utf16Length (text : Str) : ℕ := (text.map fun c => if c.val < 0x10000 then 1 else 2).sum

/-- What the fallback tries, longest first. -/
def candidates (mainPaths : List Str) (request : Request) (ps : PathSpec) (path : Str) :
    List Str :=
  let walk := match request.ctx.fs with
    | none =>
      (NodePath.foldersAbove (NodePath.join [host.cwd, "NIL".toList])).map fun folder =>
        NodePath.join [folder, "node_modules".toList, path]
    | some _ => [path]
  let potentials := walk
    ++ mainPaths.map (fun p => NodePath.join [p, path])
    ++ mainPaths.map (fun p => replaceNodeModules p (subpath path))
    ++ buildPotentials ps request.popts fun a p => NodePath.resolve host.cwd (NodePath.join [a, p])
  potentials.mergeSort fun a b => utf16Length b ≤ utf16Length a

/-! ## One reference -/

/-- What a call has found so far. -/
structure Finding where
  full : Option Str
  kind : Str
  src : Option Str
  search : List Str

/-- The loop over the candidates. -/
def tryCandidates (require : Require) (fs : NodeFs) : List Str → Finding → Finding
  | [], found => found
  | path :: paths, found =>
    match require.resolve path fallbackOptions with
    | some (some full) =>
      { found with full := some full, src := host.systemFs.load full, kind := extKind (some full) }
    | some none => tryCandidates require fs paths { found with full := none }
    | none =>
      if fs.existsSync path then
        match fs.load path with
        | some src =>
          { found with full := some path, src := some src, kind := extKind (some path) }
        | none =>
          tryCandidates require fs paths
            { found with full := some path, src := none, search := found.search ++ [path] }
      else tryCandidates require fs paths { found with search := found.search ++ [path] }

def report (ps : PathSpec) (found : Finding) : Resolution Str :=
  { ps with
    full := found.full, kind := found.kind, src := found.src, found := found.src.isSome
    search := some found.search }

/-- A relative reference, against the folder of the source it stands in. -/
def resolveRelative (fs : NodeFs) (popts : Options) (ps : PathSpec) (full : Str) :
    Resolution Str :=
  let full := NodePath.resolve host.cwd full
  let potentials := full :: if ps.kind = NONE then
    buildPotentials { ps with full := some full } popts fun a p =>
      NodePath.resolve host.cwd (NodePath.join [a, p]) else []
  match tryEach fs.load potentials [] with
  | (some (path, src), search) => report ps ⟨some path, extKind (some path), some src, search⟩
  | (none, search) => report ps ⟨ps.full, ps.kind, none, search⟩

/-- A package reference, under the given search options. The fallback changes them for every later
reference. -/
def resolvePackage (require : Require) (request : Request) (ps : PathSpec) (path : Str)
    (requireOptions : State) : Except Thrown (Resolution Str) × State :=
  let fs := request.ctx.fs.getD host.systemFs
  match require.resolve path requireOptions with
  | some (some full) =>
    (.ok (report ps ⟨some full, extKind (some full), host.systemFs.load full, []⟩),
      requireOptions)
  | some none => (.ok (report ps ⟨none, ps.kind, none, []⟩), requireOptions)
  | none =>
    match require.mainPaths with
    | none => (.error .typeError, requireOptions)
    | some mainPaths =>
      let found := tryCandidates host require fs (candidates host mainPaths request ps path)
        ⟨ps.full, ps.kind, none, [path]⟩
      (.ok (report ps found), fallbackOptions)

/-- The package a reference asks `require` for, if it comes to that. -/
def packageOf (ps : PathSpec) : Option Str :=
  ps.path.filter fun path => !(isRelativeRef path && ps.full.isSome)

/-- One call of the resolver. -/
def resolve (option : RequireOption) (request : Request) (requireOptions : State) :
    Except Thrown (Resolution Str) × State :=
  let fs := request.ctx.fs.getD host.systemFs
  match resolvePathSpec objectText request.popts request.ctx request.spec (resolvefolder fs) with
  | .error thrown => (.error thrown, requireOptions)
  | .ok ps =>
    match packageOf ps with
    | some path => resolvePackage host (useRequire host option) request ps path requireOptions
    | none =>
      match ps.path, ps.full with
      | some _, some full =>
        (.ok (resolveRelative host fs request.popts ps full), requireOptions)
      | _, _ => (.ok (report ps ⟨ps.full, ps.kind, none, []⟩), requireOptions)

/-- What one resolver answers to a sequence of references. -/
def answers (option : RequireOption) :
    List Request → State → List (Except Thrown (Resolution Str))
  | [], _ => []
  | request :: requests, requireOptions =>
    (resolve host objectText option request requireOptions).1 ::
      answers option requests (resolve host objectText option request requireOptions).2

/-- What a resolver just made answers. -/
def fresh (option : RequireOption) (request : Request) : Except Thrown (Resolution Str) :=
  (resolve host objectText option request (configured option)).1

/-! ## What a call remembers -/

section Memory

variable {host objectText} {option : RequireOption}

/-- The package a request asks `require` for. -/
def asksFor (host : Host) (objectText : ObjectText) (request : Request) : Option Str :=
  match resolvePathSpec objectText request.popts request.ctx request.spec
    (resolvefolder (request.ctx.fs.getD host.systemFs)) with
  | .error _ => none
  | .ok ps => packageOf ps

/-- `require.resolve` throws for the package under the search options the resolver was made with,
and there are main paths to fall back on. -/
def FallsBack (host : Host) (objectText : ObjectText) (option : RequireOption)
    (request : Request) : Prop :=
  ∃ path, asksFor host objectText request = some path ∧
    (useRequire host option).resolve path (configured option) = none ∧
    (useRequire host option).mainPaths.isSome = true

/-- `require.resolve` answers the same under the search options of the fallback. -/
def SameUnderFallback (host : Host) (objectText : ObjectText) (option : RequireOption)
    (request : Request) : Prop :=
  ∀ path, asksFor host objectText request = some path →
    (useRequire host option).resolve path fallbackOptions =
      (useRequire host option).resolve path (configured option)

theorem search_tryCandidates {require : Require} {fs : NodeFs} {paths : List Str}
    {found : Finding} (h : found.search ≠ []) :
    (tryCandidates host require fs paths found).search ≠ [] := by
  induction paths generalizing found with
  | nil => exact h
  | cons path paths ih =>
    unfold tryCandidates
    split
    · exact h
    · exact ih h
    · split_ifs
      · split
        · exact h
        · exact ih (by simp)
      · exact ih (by simp)

/-- A package reference under an answer of `require.resolve` that is not an exception. -/
theorem resolvePackage_of_some (host : Host) {require : Require} (request : Request)
    (ps : PathSpec) {path : Str} {s : State} {full : Option Str}
    (h : require.resolve path s = some full) :
    ∃ kind src, resolvePackage host require request ps path s =
      (.ok (report ps ⟨full, kind, src, []⟩), s) := by
  unfold resolvePackage
  cases full with
  | none => exact ⟨ps.kind, none, by rw [h]⟩
  | some full => exact ⟨extKind (some full), host.systemFs.load full, by rw [h]⟩

/-- A package reference when `require.resolve` throws. It leaves the fallback's options. -/
theorem resolvePackage_of_none (host : Host) {require : Require} (request : Request)
    (ps : PathSpec) {path : Str} {s : State} (h : require.resolve path s = none) :
    resolvePackage host require request ps path s = (.error .typeError, s) ∧
        require.mainPaths = none ∨
      require.mainPaths.isSome = true ∧ ∃ found, found.search ≠ [] ∧
        resolvePackage host require request ps path s =
          (.ok (report ps found), fallbackOptions) := by
  unfold resolvePackage
  cases hm : require.mainPaths with
  | none => exact .inl ⟨by rw [h], rfl⟩
  | some mainPaths =>
    exact .inr ⟨rfl, _, search_tryCandidates (List.cons_ne_nil _ _), by rw [h]⟩

/-- What a package reference gets is a matter of what `require.resolve` answers, and shows it. -/
theorem resolvePackage_fst_eq_iff {require : Require} {request : Request} {ps : PathSpec}
    {path : Str} {s s' : State} :
    (resolvePackage host require request ps path s).1 =
        (resolvePackage host require request ps path s').1 ↔
      require.resolve path s = require.resolve path s' := by
  -- an answer leaves no search list, an exception leaves one or throws further
  have apart : ∀ {s s' : State} {full : Option Str}, require.resolve path s = some full →
      require.resolve path s' = none →
      (resolvePackage host require request ps path s).1 ≠
        (resolvePackage host require request ps path s').1 := by
    intro s s' full h h' he
    obtain ⟨kind, src, hr⟩ := resolvePackage_of_some host request ps h
    rw [hr] at he
    rcases resolvePackage_of_none host request ps h' with ⟨hr', -⟩ | ⟨-, found, hs, hr'⟩
    · rw [hr'] at he
      cases he
    · rw [hr'] at he
      simp only [report, Except.ok.injEq, Resolution.mk.injEq, Option.some.injEq] at he
      exact hs he.2.2.2.symm
  constructor
  · intro he
    cases h : require.resolve path s with
    | none =>
      cases h' : require.resolve path s' with
      | none => rfl
      | some full' => exact absurd he.symm (apart h' h)
    | some full =>
      cases h' : require.resolve path s' with
      | none => exact absurd he (apart h h')
      | some full' =>
        obtain ⟨kind, src, hr⟩ := resolvePackage_of_some host request ps h
        obtain ⟨kind', src', hr'⟩ := resolvePackage_of_some host request ps h'
        rw [hr, hr'] at he
        simp only [report, Except.ok.injEq, Resolution.mk.injEq, PathSpec.mk.injEq] at he
        rw [he.1.2.2.1]
  · intro h
    unfold resolvePackage
    rw [h]
    cases require.resolve path s' with
    | some full => cases full <;> rfl
    | none => cases require.mainPaths <;> rfl

/-- A reference that asks `require` for nothing gets the same under every state, and leaves it. -/
theorem resolve_of_asksFor_none {request : Request} (h : asksFor host objectText request = none)
    (s s' : State) : (resolve host objectText option request s).1 =
        (resolve host objectText option request s').1 ∧
      (resolve host objectText option request s).2 = s := by
  unfold asksFor at h
  unfold resolve
  dsimp only
  cases hp : resolvePathSpec objectText request.popts request.ctx request.spec
      (resolvefolder (request.ctx.fs.getD host.systemFs)) with
  | error thrown => exact ⟨rfl, rfl⟩
  | ok ps =>
    simp only [hp] at h
    dsimp only
    rw [h]
    dsimp only
    split <;> exact ⟨rfl, rfl⟩

/-- A reference that asks for a package is a package reference, whatever the state. -/
theorem resolve_of_asksFor (option : RequireOption) {request : Request} {path : Str}
    (h : asksFor host objectText request = some path) :
    ∃ ps, ∀ s, resolve host objectText option request s =
      resolvePackage host (useRequire host option) request ps path s := by
  unfold asksFor at h
  cases hp : resolvePathSpec objectText request.popts request.ctx request.spec
      (resolvefolder (request.ctx.fs.getD host.systemFs)) with
  | error thrown => simp [hp] at h
  | ok ps =>
    simp only [hp] at h
    refine ⟨ps, fun s => ?_⟩
    unfold resolve
    simp only [hp, h]

theorem resolve_fst_eq_iff {request : Request} {s s' : State} :
    (resolve host objectText option request s).1 = (resolve host objectText option request s').1 ↔
      ∀ path, asksFor host objectText request = some path →
        (useRequire host option).resolve path s = (useRequire host option).resolve path s' := by
  cases h : asksFor host objectText request with
  | none =>
    refine iff_of_true (resolve_of_asksFor_none h s s').1 fun path hp => ?_
    cases hp
  | some path =>
    obtain ⟨ps, hr⟩ := resolve_of_asksFor option h
    rw [hr, hr, resolvePackage_fst_eq_iff]
    constructor
    · rintro he _ ⟨⟩
      exact he
    · intro he
      exact he path rfl

/-- What a call does to the state: an exception of `require.resolve` sets the fallback's options. -/
theorem resolve_snd (host : Host) (objectText : ObjectText) (option : RequireOption)
    (request : Request) (s : State) :
    (∃ path, asksFor host objectText request = some path ∧
        (useRequire host option).resolve path s = none ∧
        (useRequire host option).mainPaths.isSome = true) ∧
        (resolve host objectText option request s).2 = fallbackOptions ∨
      (¬ ∃ path, asksFor host objectText request = some path ∧
        (useRequire host option).resolve path s = none ∧
        (useRequire host option).mainPaths.isSome = true) ∧
        (resolve host objectText option request s).2 = s := by
  cases h : asksFor host objectText request with
  | none => exact .inr ⟨by simp, (resolve_of_asksFor_none h s s).2⟩
  | some path =>
    obtain ⟨ps, hr⟩ := resolve_of_asksFor option h
    rw [hr]
    cases ha : (useRequire host option).resolve path s with
    | some full =>
      obtain ⟨kind, src, he⟩ := resolvePackage_of_some host request ps ha
      refine .inr ⟨?_, by rw [he]⟩
      rintro ⟨_, ⟨⟩, hn, -⟩
      rw [ha] at hn
      cases hn
    | none =>
      rcases resolvePackage_of_none host request ps ha with ⟨he, hm⟩ | ⟨hm, found, -, he⟩
      · exact .inr ⟨by simp [hm], by rw [he]⟩
      · exact .inl ⟨⟨path, rfl, ha, hm⟩, by rw [he]⟩

/-! ## A sequence of references -/

/-- Under the fallback's options a resolver stays there. -/
theorem answers_fallback_iff {requests : List Request} :
    answers host objectText option requests fallbackOptions =
        requests.map (fresh host objectText option) ↔
      ∀ request ∈ requests, SameUnderFallback host objectText option request := by
  induction requests with
  | nil => simp [answers]
  | cons request requests ih =>
    have hstay : (resolve host objectText option request fallbackOptions).2 = fallbackOptions := by
      rcases resolve_snd host objectText option request
        fallbackOptions with ⟨-, h⟩ | ⟨-, h⟩ <;> exact h
    rw [answers, hstay, List.map_cons, List.cons.injEq, List.forall_mem_cons, ih]
    exact and_congr_left' resolve_fst_eq_iff

/-- A resolver answers every sequence of references as fresh resolvers would exactly if, after a
reference that fell back, only references follow that fare the same under the fallback's options. -/
theorem memoryless_iff (host : Host) (objectText : ObjectText) (option : RequireOption)
    (requests : List Request) :
    answers host objectText option requests (configured option) =
        requests.map (fresh host objectText option) ↔
      ∀ pre request post, requests = pre ++ request :: post →
        (∃ missed ∈ pre, FallsBack host objectText option missed) →
        SameUnderFallback host objectText option request := by
  induction requests with
  | nil => simp [answers]
  | cons first requests ih =>
    rw [answers, List.map_cons, List.cons.injEq]
    refine (and_iff_right rfl).trans ?_
    rcases resolve_snd host objectText option first
      (configured option) with ⟨hmiss, hs⟩ | ⟨hkeep, hs⟩
    · -- the first reference fell back: every other one comes after it
      rw [hs, answers_fallback_iff]
      constructor
      · rintro h (_ | ⟨_, pre⟩) request post he ⟨missed, hm, hf⟩
        · cases hm
        · obtain ⟨rfl, rfl⟩ := List.cons.inj he
          exact h request (by simp)
      · intro h request hr
        obtain ⟨pre, post, rfl⟩ := List.append_of_mem hr
        exact h (first :: pre) request post rfl ⟨first, List.mem_cons_self .., hmiss⟩
    · rw [hs, ih]
      constructor
      · rintro h (_ | ⟨_, pre⟩) request post he ⟨missed, hm, hf⟩
        · cases hm
        · obtain ⟨rfl, rfl⟩ := List.cons.inj he
          rcases List.mem_cons.mp hm with rfl | hm
          · exact absurd hf hkeep
          · exact h pre request post rfl ⟨missed, hm, hf⟩
      · rintro h pre request post rfl ⟨missed, hm, hf⟩
        exact h (first :: pre) request post rfl ⟨missed, List.mem_cons_of_mem _ hm, hf⟩

/-- One package that is missing, and the next is not found where it is. -/
theorem missing_package_is_remembered :
    let require : Require :=
      { resolve := fun target options =>
          if target = "lib".toList ∧ options = some ["/app".toList]
          then some (some "/app/node_modules/lib/index.json".toList) else none
        mainPaths := some [] }
    let files : NodeFs := ⟨fun _ => none, fun _ => false, fun _ => none⟩
    let host : Host := ⟨require, files, "/app".toList⟩
    let objectText : ObjectText := fun _ => .ok "[object Object]".toList
    let ask := fun name : Str => (⟨.string name, ⟨none, []⟩, ⟨some files, none⟩⟩ : Request)
    let option : RequireOption := .roots ["/app".toList]
    answers host objectText option [ask "gone".toList, ask "lib".toList] (configured option) ≠
      [ask "gone".toList, ask "lib".toList].map (fresh host objectText option) := by
  intro require files host objectText ask option he
  have hgone : (resolve host objectText option (ask "gone".toList) (configured option)).2 =
      fallbackOptions := by
    rcases resolve_snd host objectText option
      (ask "gone".toList) (configured option) with ⟨-, h⟩ | ⟨hn, -⟩
    · exact h
    · exact absurd ⟨"gone".toList, rfl, rfl, rfl⟩ hn
  rw [answers, hgone, answers] at he
  have hlib := (List.cons.inj (List.cons.inj he).2).1
  have := resolve_fst_eq_iff.mp hlib "lib".toList rfl
  cases this

end Memory

end PkgResolver

end MultiSource.Ts
