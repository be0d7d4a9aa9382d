import MultiSource.Identity
import MultiSource.Preload
import MultiSource.Sources
import MultiSource.Substitution

/-!
# A preload changes no result

The preload is looked up by exact text and the filesystem by normal form. Everything the file
resolver asks for is in normal form, up to what an implicit extension appends, so it makes no
difference which of the two holds a file.
-/

namespace MultiSource

open Interaction

/-- The filesystem with the files under some keys only. -/
def MapFs.restrict (fs : MapFs) (keys : Entries Str) : MapFs where
  files := fs.files.filter fun e => (keys.get e.1).isSome
  clean_key e he := fs.clean_key e (List.mem_of_mem_filter he)

section ReadFrom

variable {fs : MapFs} {preload : Entries Str}

/-- A preload over a map filesystem holds stored texts under their keys. -/
theorem ReadFrom.get (h : ReadFrom fs.toDirFs preload) {path src : Str}
    (hp : preload.get path = some src) : clean path = path ∧ fs.files.get path = some src := by
  obtain ⟨⟨parts, rfl⟩, hread⟩ := h path src hp
  have hc : clean (MapFs.join parts) = MapFs.join parts := clean_clean _
  refine ⟨hc, ?_⟩
  rw [← hread]
  show _ = fs.files.get (clean (MapFs.join parts))
  rw [hc]
  rfl

theorem ReadFrom.readFile_restrict (h : ReadFrom fs.toDirFs preload) (path : Str) :
    (fs.restrict preload).readFile path = preload.get (clean path) := by
  unfold MapFs.readFile MapFs.restrict
  rw [Entries.get_filter_key (clean path) fun key => (preload.get key).isSome]
  cases hp : preload.get (clean path) with
  | none => rfl
  | some src => exact (h.get hp).2

end ReadFrom

/-! ## Two file resolvers -/

/-- The text a resolver has for a path, wherever it lies. -/
def heldText (preload : Entries Str) (fs : MapFs) (path : Str) : Option Str :=
  preload.get path <|> fs.readFile path

/-- A file resolver on a filesystem in memory. -/
def fileResolver (pathfinder : Option (Str → Str)) (root : Option Str) (preload : Entries Str)
    (fs : MapFs) : FileResolver :=
  ⟨pathfinder, preload, some fs.toFs, root⟩

section TwoResolvers

variable {preload preload' : Entries Str} {fs fs' : MapFs} {pathfinder : Option (Str → Str)}
  {root : Option Str}

theorem isFile_eq (preload : Entries Str) (fs : MapFs) (path : Str) :
    ((preload.get path).isSome || (fs.readFile path).isSome) =
      (heldText preload fs path).isSome := by
  unfold heldText
  cases preload.get path <;> simp

theorem load_eq (preload : Entries Str) (fs : MapFs) (path : Str) (confined : Confinement) :
    (fileResolver pathfinder root preload fs).load fs.toFs path confined =
      if confined.allows fs.toFs path then heldText preload fs path else none := by
  unfold FileResolver.load heldText fileResolver
  cases preload.get path <;> rfl

theorem specOf_eq_of_held {input : ResolverInput} (reference : Option Str)
    (h : let raw := (sourcePath input.parseMeta).getD input.options.path
      raw = [] ∨ heldText preload fs raw = heldText preload' fs' raw) :
    (fileResolver pathfinder root preload fs).specOf fs.toFs reference input =
      (fileResolver pathfinder root preload' fs').specOf fs'.toFs reference input := by
  unfold FileResolver.specOf
  apply congrArg (resolvePathSpec _)
  show baseFor input (fun path => (preload.get path).isSome || (fs.readFile path).isSome)
    MapFs.dir = baseFor input
    (fun path => (preload'.get path).isSome || (fs'.readFile path).isSome) MapFs.dir
  unfold baseFor
  dsimp only
  rcases h with h | h
  · rw [if_pos h, if_pos h]
  · simp only [isFile_eq, h]

theorem find_eq_of_held (confined : Confinement) (spec : PathSpec) {full : Str} {exts : List Str}
    (h : ∀ q ∈ full :: FileResolver.potentials MapFs.pathOps spec full exts,
      heldText preload fs q = heldText preload' fs' q) :
    (fileResolver pathfinder root preload fs).find fs.toFs confined spec full exts =
      (fileResolver pathfinder root preload' fs').find fs'.toFs confined spec full exts := by
  have hload : ∀ q ∈ full :: FileResolver.potentials MapFs.pathOps spec full exts,
      (fileResolver pathfinder root preload fs).load fs.toFs q confined =
        (fileResolver pathfinder root preload' fs').load fs'.toFs q confined := by
    intro q hq
    rw [load_eq, load_eq, h q hq]
    rfl
  unfold FileResolver.find
  rw [hload full (List.mem_cons_self ..)]
  split
  · rfl
  · exact resolveFirst_congr (fun q hq => hload q (List.mem_cons_of_mem _ hq)) _ _

/-- Two file resolvers that hold the same text for the base, and for all that a search tries, give
one resolution. -/
theorem resolve_eq_of_held (os : Os) (reference : Option Str) {input : ResolverInput}
    (hbase : let raw := (sourcePath input.parseMeta).getD input.options.path
      raw = [] ∨ heldText preload fs raw = heldText preload' fs' raw)
    (h : ∀ spec full, clean full = full →
      ∀ q ∈ full :: FileResolver.potentials MapFs.pathOps spec full input.options.implicitExt,
        heldText preload fs q = heldText preload' fs' q) :
    (fileResolver pathfinder root preload fs).resolve os reference input =
      (fileResolver pathfinder root preload' fs').resolve os reference input := by
  have hfs : filesystem (fileResolver pathfinder root preload fs).fs input.options os = fs.toFs :=
    rfl
  have hfs' : filesystem (fileResolver pathfinder root preload' fs').fs input.options os =
      fs'.toFs := rfl
  unfold FileResolver.resolve
  rw [hfs, hfs']
  dsimp only
  rw [specOf_eq_of_held reference hbase]
  split
  · rfl
  · rename_i full _
    exact find_eq_of_held _ _ (h _ _ (clean_clean full))

end TwoResolvers

/-! ## Bases in normal form -/

/-- A base in normal form, or none. Such is the path of a source the file resolver loaded. -/
inductive CanonicalBase (os : Os) : Str → Prop
  | unset : CanonicalBase os []
  | canonical {path : Str} : clean path = path → CanonicalBase os path
  | loaded {self : FileResolver} {fs : MapFs} {reference : Option Str} {input : ResolverInput}
      {full : Str} : filesystem self.fs input.options os = fs.toFs →
      KeepsClean input.options.implicitExt → (self.resolve os reference input).found = true →
      (self.resolve os reference input).spec.full = some full → CanonicalBase os full

theorem full_of_found {self : FileResolver} {os : Os} {fs : MapFs} {reference : Option Str}
    {input : ResolverInput} (hfs : filesystem self.fs input.options os = fs.toFs)
    (hexts : KeepsClean input.options.implicitExt)
    (h : (self.resolve os reference input).found = true) :
    ∃ full, (self.resolve os reference input).spec.full = some full ∧ clean full = full := by
  obtain ⟨full, -, hfull, -, hc, -⟩ := (self.resolve_reports hfs hexts).1 h
  exact ⟨full, hfull, hc⟩

theorem CanonicalBase.clean {os : Os} {path : Str} (h : CanonicalBase os path) :
    path = [] ∨ MultiSource.clean path = path := by
  cases h with
  | unset => exact .inl rfl
  | canonical hc => exact .inr hc
  | loaded hfs hexts hfound hfull =>
    obtain ⟨full, hfull', hc⟩ := full_of_found hfs hexts hfound
    rw [hfull, Option.some.injEq] at hfull'
    exact .inr (hfull' ▸ hc)

/-- The base path of the sources under some metadata. -/
def basePathUnder (options : MultiSourceOptions) (parseMeta : Value) : Str :=
  (sourcePath parseMeta).getD options.path

/-! ## With the files gone -/

section Preload

variable {fs : MapFs} {preload : Entries Str} (os : Os) (pathfinder : Option (Str → Str))
  (root : Option Str)

theorem heldText_gone (h : ReadFrom fs.toDirFs preload) {path : Str} (hc : clean path = path) :
    heldText preload .new path = heldText [] (fs.restrict preload) path := by
  unfold heldText
  rw [h.readFile_restrict, hc]
  cases preload.get path <;> rfl

theorem heldText_warm (h : ReadFrom fs.toDirFs preload) (path : Str) :
    heldText preload fs path = heldText [] fs path := by
  unfold heldText
  cases hp : preload.get path with
  | none => rfl
  | some src =>
    have hread := (h path src hp).2
    exact hread.symm

theorem resolve_gone (h : ReadFrom fs.toDirFs preload) (reference : Option Str)
    {input : ResolverInput} (hexts : KeepsClean input.options.implicitExt)
    (hbase : CanonicalBase os (basePathUnder input.options input.parseMeta)) :
    (fileResolver pathfinder root preload .new).resolve os reference input =
      (fileResolver pathfinder root [] (fs.restrict preload)).resolve os reference input :=
  resolve_eq_of_held os reference (hbase.clean.imp_right (heldText_gone h))
    fun _ _ hfull _ hq => heldText_gone h <| (List.mem_cons.mp hq).elim (fun he => he ▸ hfull)
      (clean_of_mem_potentials hfull hexts)

theorem resolve_warm (h : ReadFrom fs.toDirFs preload) (reference : Option Str)
    (input : ResolverInput) :
    (fileResolver pathfinder root preload fs).resolve os reference input =
      (fileResolver pathfinder root [] fs).resolve os reference input :=
  resolve_eq_of_held os reference (.inr (heldText_warm h _)) fun _ _ _ path _ =>
    heldText_warm h path

end Preload

/-- The answers of a resolver under one configuration. -/
def FileResolver.answers (self : FileResolver) (os : Os) (options : MultiSourceOptions)
    (reference : Option Str) (parseMeta : Value) : Resolution :=
  self.resolve os reference ⟨options, parseMeta⟩

/-- The runs of a parse whose references resolve by `resolve`. -/
def RunsWith {I : Type} {options : MultiSourceOptions} (engine : Engine I options.markchar)
    (W : World I) (resolve : Option Str → Value → Resolution) (c : Call I) (s : Shared I)
    (answer : Except TabnasError Value) (s' : Shared I) : Prop :=
  Exec (S := sig I) (Handles (W.resolvedBy resolve)) (body engine) s (body engine c) answer s'

theorem agreeing_gone {fs : MapFs} {preload : Entries Str} (h : ReadFrom fs.toDirFs preload)
    (os : Os) (pathfinder : Option (Str → Str)) (root : Option Str) {options : MultiSourceOptions}
    (hexts : KeepsClean options.implicitExt) :
    Agreeing ((fileResolver pathfinder root preload .new).answers os options)
      ((fileResolver pathfinder root [] (fs.restrict preload)).answers os options)
      fun parseMeta => CanonicalBase os (basePathUnder options parseMeta) where
  same reference parseMeta hm := resolve_gone os pathfinder root h reference hexts hm
  child reference parseMeta _ hfound parents dive ticket := by
    obtain ⟨full, hfull, hc⟩ := full_of_found (show _ = MapFs.new.toFs from rfl) hexts hfound
    have hpath : sourcePath (childMeta parseMeta
        ((fileResolver pathfinder root preload .new).answers os options reference parseMeta) parents
          dive ticket) = some full := by
      rw [sourcePath_childMeta]
      exact hfull
    unfold basePathUnder
    rw [hpath]
    exact .canonical hc

/-- **A preload changes no result.** A preload over the files it was scanned from is no preload.
With implicit extensions that keep paths in normal form, a preload over no files is the filesystem
of its files, for every base in normal form. So the parses are the same, nested ones included. -/
theorem preload_changes_no_result (scanned : PreloadOptions) (fs : MapFs) (os : Os)
    (pathfinder : Option (Str → Str)) (root : Option Str) (options : MultiSourceOptions) :
    let preload := preloadFilesWith scanned fs.toDirFs
    let warm := (fileResolver pathfinder root preload fs).answers os options
    let cold := (fileResolver pathfinder root [] fs).answers os options
    let gone := (fileResolver pathfinder root preload .new).answers os options
    let kept := (fileResolver pathfinder root [] (fs.restrict preload)).answers os options
    (∀ reference parseMeta, warm reference parseMeta = cold reference parseMeta) ∧
    (KeepsClean options.implicitExt → ∀ reference parseMeta,
      CanonicalBase os (basePathUnder options parseMeta) →
        gone reference parseMeta = kept reference parseMeta) ∧
    ∀ (I : Type) (engine : Engine I options.markchar) (W : World I) (c : Call I) s answer s',
      (RunsWith engine W warm c s answer s' ↔ RunsWith engine W cold c s answer s') ∧
      (KeepsClean options.implicitExt → CanonicalBase os (basePathUnder options c.parseMeta) →
        (RunsWith engine W gone c s answer s' ↔ RunsWith engine W kept c s answer s')) := by
  intro preload warm cold gone kept
  have h : ReadFrom fs.toDirFs preload := readFrom_preload scanned
  have hwarm : warm = cold := by
    funext reference parseMeta
    exact resolve_warm os pathfinder root h reference ⟨options, parseMeta⟩
  refine ⟨fun reference parseMeta => by rw [hwarm], fun hexts reference parseMeta hm => ?_,
    fun I engine W c s answer s' => ⟨by rw [hwarm], fun hexts hc => ?_⟩⟩
  · exact resolve_gone os pathfinder root h reference hexts hm
  · exact (agreeing_gone h os pathfinder root hexts).exec_iff engine W hc

/-- A folder with a source that names its neighbour. -/
def confFs : MapFs := .ofList [
  ("conf/a.jsonic".toList, "@b".toList), ("conf/b.jsonic".toList, "1".toList)]

def confPreload : Entries Str := preloadFilesWith ⟨["conf".toList], [], false⟩ confFs.toDirFs

/-- A reference inside a preloaded source resolves with the files gone. -/
theorem preload_changes_no_result_nested :
    (fileResolver none none confPreload .new).answers noOs .new (some "b".toList)
        (metaAt (some "conf/a.jsonic".toList)) =
      (fileResolver none none [] (confFs.restrict confPreload)).answers noOs .new (some "b".toList)
        (metaAt (some "conf/a.jsonic".toList)) := by
  have hexts : NoSeps MultiSourceOptions.new.implicitExt := by decide
  exact (preload_changes_no_result ⟨["conf".toList], [], false⟩ confFs noOs none none .new).2.1
    hexts.keepsClean _ _ (.canonical (by decide))

/-- Options with an implicit extension that ends in a separator. -/
def slashOptions : MultiSourceOptions :=
  { MultiSourceOptions.new with path := "conf".toList, implicitExt := [".jsonic/".toList] }

/-- With such an extension the filesystem reads a path that the preload does not hold. -/
theorem preload_misses_unclean_path :
    ((fileResolver none none confPreload .new).answers noOs slashOptions (some "b".toList)
        .undefined).found ≠
      ((fileResolver none none [] (confFs.restrict confPreload)).answers noOs slashOptions
        (some "b".toList) .undefined).found := by
  decide

end MultiSource
