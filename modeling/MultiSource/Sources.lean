import MultiSource.Outcome
import MultiSource.Search

/-!
# Finite source sets

What a set of sources is to a parse: a reference and the source it stands in decide what is loaded,
and a source is its full path and its text. The in-memory map and the filesystem in memory are such
sets.
-/

namespace MultiSource

open Interaction

/-- Sources under full paths, with what a reference in the source at `path`, or in the document,
resolves to. -/
structure SourceSet where
  text : Str → Option Str
  resolve : Option Str → Option Str → Resolution
  of_found : ∀ reference path, (resolve reference path).found = true →
    ∃ spec full src search, text full = some src ∧
      resolve reference path = (Resolution.ofFound spec full src).withSearch search

namespace SourceSet

variable (S : SourceSet)

/-- The full path of the source a reference loads. -/
def names (reference path : Option Str) : Option Str :=
  if (S.resolve reference path).found then (S.resolve reference path).spec.full else none

/-- The world is the source set. -/
def Serves {I : Type} (W : World I) : Prop :=
  ∀ reference parseMeta r, W.resolves reference parseMeta r →
    r = S.resolve reference (sourcePath parseMeta)

variable {S}

theorem of_names {reference path : Option Str} {full : Str}
    (h : S.names reference path = some full) :
    ∃ spec src search, S.text full = some src ∧
      S.resolve reference path = (Resolution.ofFound spec full src).withSearch search := by
  unfold names at h
  split_ifs at h with hf
  obtain ⟨spec, full', src, search, ht, hr⟩ := S.of_found _ _ hf
  rw [hr] at h
  obtain rfl : full' = full := Option.some.inj h
  exact ⟨spec, src, search, ht, hr⟩

theorem names_of_found {reference path : Option Str}
    (h : (S.resolve reference path).found = true) :
    ∃ full, S.names reference path = some full ∧ (S.resolve reference path).fullPath = full := by
  obtain ⟨spec, full, src, search, -, hr⟩ := S.of_found _ _ h
  refine ⟨full, ?_, ?_⟩
  · rw [names, if_pos h, hr]
    rfl
  · rw [hr]
    rfl

end SourceSet

/-- A source kind the default table parses again. -/
def isParsed (full : Str) : Bool :=
  extKind (some full) = "jsonic".toList || extKind (some full) = "jsc".toList

theorem nestedText_ofFound {options : MultiSourceOptions}
    (hproc : options.processor = defaultProcessors) (spec : PathSpec) (full src : Str)
    (search : List Str) :
    nestedText options ((Resolution.ofFound spec full src).withSearch search) =
      if isParsed full then some src else none := by
  simp only [nestedText, Resolution.ofFound, Resolution.withSearch,
    MultiSourceOptions.processorFor_default hproc, isParsed, Bool.or_eq_true, decide_eq_true_eq]
  split_ifs <;> rfl

theorem plainValue_ofFound {options : MultiSourceOptions}
    (hproc : options.processor = defaultProcessors) {spec : PathSpec} {full src : Str}
    {search : List Str} (h : isParsed full = false) :
    plainValue options ((Resolution.ofFound spec full src).withSearch search) = .string src := by
  simp only [isParsed, Bool.or_eq_false_iff, decide_eq_false_iff_not] at h
  simp only [plainValue, Resolution.ofFound, Resolution.withSearch,
    MultiSourceOptions.processorFor_default hproc, if_neg (not_or.mpr h)]
  rfl

/-! ## The two finite resolvers -/

/-- Metadata that says which source a reference stands in, and nothing else. -/
def metaAt : Option Str → Value
  | some path => .object [(RULE_NAME, .object [("path".toList, .string path)])]
  | none => .undefined

@[simp] theorem sourcePath_metaAt (path : Option Str) : sourcePath (metaAt path) = path := by
  cases path <;> rfl

theorem baseFor_congr (options : MultiSourceOptions) {m m' : Value}
    (h : sourcePath m = sourcePath m') (isFile : Str → Bool) (dir : Str → Str) :
    baseFor ⟨options, m⟩ isFile dir = baseFor ⟨options, m'⟩ isFile dir := by
  unfold baseFor
  rw [h]

/-- A resolver over finitely many sources: the in-memory one, or the file resolver over a
filesystem in memory. -/
inductive Store : Type
  | map (resolver : MapResolver)
  | file (os : Os) (resolver : FileResolver) (files : MapFs)

namespace Store

def resolve (options : MultiSourceOptions) : Store → Option Str → Value → Resolution
  | .map resolver, reference, parseMeta => resolver.resolve reference ⟨options, parseMeta⟩
  | .file os resolver files, reference, parseMeta =>
    FileResolver.resolve { resolver with fs := some files.toFs } os reference ⟨options, parseMeta⟩

/-- The text a resolver reads at a path. -/
def text : Store → Str → Option Str
  | .map resolver, path => resolver.files.get path
  | .file _ resolver files, path =>
    resolver.load files.toFs path (Confinement.new files.toFs resolver.root)

theorem resolve_congr (options : MultiSourceOptions) (store : Store) (reference : Option Str)
    {m m' : Value} (h : sourcePath m = sourcePath m') :
    store.resolve options reference m = store.resolve options reference m' := by
  cases store with
  | map resolver =>
    unfold resolve MapResolver.resolve
    simp only [baseFor_congr options h]
  | file os resolver files =>
    unfold resolve FileResolver.resolve FileResolver.specOf
    simp only [baseFor_congr options h]

theorem resolve_found (options : MultiSourceOptions) (store : Store) (reference : Option Str)
    (m : Value) (h : (store.resolve options reference m).found = true) :
    ∃ spec full src search, store.text full = some src ∧
      store.resolve options reference m = (Resolution.ofFound spec full src).withSearch search := by
  cases store with
  | map resolver => exact MapResolver.resolve_found h
  | file os resolver files =>
    exact FileResolver.resolve_found { resolver with fs := some files.toFs } os reference
      ⟨options, m⟩ h

/-- The source set of a store. -/
def sources (options : MultiSourceOptions) (store : Store) : SourceSet where
  text := store.text
  resolve reference path := store.resolve options reference (metaAt path)
  of_found reference path := store.resolve_found options reference (metaAt path)

/-- The world with these sources, where a thread is refused for the reasons in `refused` at
most. -/
abbrev world {I : Type} (options : MultiSourceOptions) (store : Store) (refused : Str → Prop) :
    World I :=
  World.of (store.resolve options) refused

theorem serves {I : Type} (options : MultiSourceOptions) (store : Store) (refused : Str → Prop) :
    (store.sources options).Serves (store.world options refused : World I) := by
  rintro reference parseMeta r rfl
  exact store.resolve_congr options reference (sourcePath_metaAt _).symm

end Store

end MultiSource
