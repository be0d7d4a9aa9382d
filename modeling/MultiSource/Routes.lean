import MultiSource.Sandbox

/-!
# Relative references compose

A reference inside a source resolves against the source's folder, which the resolver computes from
the metadata, a test for a file and the parent of its path. Along any chain of sources the outcome
is what one text of all the references names.
-/

namespace MultiSource

open Segments

/-- A relative reference that is not empty. -/
def IsRelative (reference : Str) : Prop := reference ≠ [] ∧ ∀ c ∈ reference.head?, isSep c = false

theorem isRelative_cons (c : Char) (h : isSep c = false) (rest : Str) : IsRelative (c :: rest) := by
  refine ⟨List.cons_ne_nil _ _, fun d hd => ?_⟩
  obtain rfl := Option.some.inj hd
  exact h

/-- The references after one another, each in the folder of the one before. -/
def composed (base : Str) : List Str → Str
  | [] => base
  | first :: rest => rest.foldl (fun path reference => path ++ "/../".toList ++ reference)
      (base ++ '/' :: first)

theorem composed_concat (base : Str) {references : List Str} (h : references ≠ [])
    (reference : Str) : composed base (references ++ [reference]) =
      composed base references ++ "/../".toList ++ reference := by
  obtain ⟨first, rest, rfl⟩ := List.exists_cons_of_ne_nil h
  rw [List.cons_append, composed, List.foldl_append]
  rfl

/-- A path at which the resolver sees a file. -/
def FileResolver.isFile (self : FileResolver) (fs : MapFs) (path : Str) : Bool :=
  (self.preload.get path).isSome || (fs.readFile path).isSome

/-- The resolution found its source at the first path it tried. -/
def FoundDirectly (resolution : Resolution) : Prop :=
  resolution.found = true ∧ ∃ full, resolution.search = [full]

section Route

variable {self : FileResolver} {fs : MapFs} {os : Os} {options : MultiSourceOptions}

/-- A chain of sources from a base folder, each found directly by a relative reference inside the
one before it. The references are what the pathfinder makes of those written. -/
inductive Route (self : FileResolver) (fs : MapFs) (os : Os) (options : MultiSourceOptions)
    (base : Str) : List Str → Resolution → Prop
  | first {parseMeta : Value} {reference : Str} :
      (sourcePath parseMeta).getD options.path = base → base = [] ∨ self.isFile fs base = false →
      IsRelative (self.pathfinder.getD id reference) →
      FoundDirectly (self.resolve os (some reference) ⟨options, parseMeta⟩) →
      Route self fs os options base [self.pathfinder.getD id reference]
        (self.resolve os (some reference) ⟨options, parseMeta⟩)
  | next {references : List Str} {previous : Resolution} {parent : Value} {parents : List Str}
      {dive : Option Value} {ticket reference : Str} :
      Route self fs os options base references previous →
      IsRelative (self.pathfinder.getD id reference) →
      FoundDirectly (self.resolve os (some reference)
        ⟨options, childMeta parent previous parents dive ticket⟩) →
      Route self fs os options base (references ++ [self.pathfinder.getD id reference])
        (self.resolve os (some reference) ⟨options, childMeta parent previous parents dive ticket⟩)

theorem Route.ne_nil {base : Str} {references : List Str} {resolution : Resolution}
    (h : Route self fs os options base references resolution) : references ≠ [] := by
  cases h <;> simp

theorem resolvePathSpec_of_relative {reference : Str} (h : IsRelative reference) (base : Str) :
    (resolvePathSpec (some reference) base).full =
      some (if base = [] then reference else base ++ '/' :: reference) := by
  obtain ⟨hne, hhead⟩ := h
  obtain ⟨c, rest, rfl⟩ := List.exists_cons_of_ne_nil hne
  have hc : isSep c = false := hhead c rfl
  simp [resolvePathSpec, hc]

theorem isFile_of_load {confined : Confinement} {path src : Str}
    (h : self.load fs.toFs path confined = some src) : self.isFile fs path = true := by
  unfold FileResolver.load at h
  unfold FileResolver.isFile
  split_ifs at h
  cases hp : self.preload.get path with
  | some text => rfl
  | none =>
    rw [hp] at h
    have hread : fs.readFile path = some src := h
    rw [hread]
    rfl

/-- A search with one path in its record found its source there. -/
theorem find_directly {confined : Confinement} {spec : PathSpec} {path full : Str}
    {exts : List Str} (hpath : spec.path = some path)
    (h : FoundDirectly (self.find fs.toFs confined spec full exts)) :
    (self.find fs.toFs confined spec full exts).spec.full = some full ∧
      self.isFile fs full = true := by
  unfold FileResolver.find at h ⊢
  cases hload : self.load fs.toFs full confined with
  | some src => exact ⟨rfl, isFile_of_load hload⟩
  | none =>
    -- the linked folders are tried too, so the record is longer
    rw [hload] at h
    obtain ⟨-, tried, hsearch⟩ := h
    dsimp only at hsearch
    rw [search_resolveFirst, FileResolver.potentials, hpath] at hsearch
    cases hsearch

theorem FoundDirectly.full {reference : Str} {input : ResolverInput}
    (hfs : filesystem self.fs input.options os = fs.toFs)
    (hrel : IsRelative (self.pathfinder.getD id reference))
    (h : FoundDirectly (self.resolve os (some reference) input)) :
    ∃ full, (self.resolve os (some reference) input).spec.full = some full ∧
      self.isFile fs full = true ∧ full = clean (baseFor input (self.isFile fs) MapFs.dir ++ '/' ::
        self.pathfinder.getD id reference) := by
  have hspec : (self.specOf fs.toFs (some reference) input).full =
      some (if baseFor input (self.isFile fs) MapFs.dir = [] then self.pathfinder.getD id reference
        else baseFor input (self.isFile fs) MapFs.dir ++
          '/' :: self.pathfinder.getD id reference) :=
    resolvePathSpec_of_relative hrel _
  unfold FileResolver.resolve at h ⊢
  rw [hfs] at h ⊢
  dsimp only at h ⊢
  rw [hspec] at h ⊢
  dsimp only at h ⊢
  obtain ⟨hfull, hfile⟩ := find_directly rfl h
  refine ⟨_, hfull, hfile, ?_⟩
  show clean _ = _
  split_ifs with hbase
  · rw [hbase, clean_eq_iff]
    exact (cleanSegments_cons_slash _).symm
  · rfl

/-- A step up after a path that the parent folder is taken from. -/
theorem cleanSegments_up (path reference : Str) :
    cleanSegments (path ++ "/../".toList ++ reference) =
      cleanSegments (MapFs.dir path ++ '/' :: reference) := by
  have htext : path ++ "/../".toList ++ reference =
      (path ++ "/..".toList) ++ '/' :: reference := by
    simp
  rw [htext, cleanSegments_append, cleanSegments_parent, cleanSegments_append,
    MapFs.cleanSegments_dir]

theorem baseFor_folder {input : ResolverInput} {isFile : Str → Bool} {dir : Str → Str} {base : Str}
    (hbase : (sourcePath input.parseMeta).getD input.options.path = base)
    (hfolder : base = [] ∨ isFile base = false) : baseFor input isFile dir = base := by
  unfold baseFor
  dsimp only
  rw [hbase]
  rcases hfolder with hnil | hfolder
  · rw [if_pos hnil, hnil]
  · rw [if_neg (c := isFile base = true) (by simp [hfolder])]
    split_ifs with hnil
    · exact hnil.symm
    · rfl

theorem baseFor_file {input : ResolverInput} {isFile : Str → Bool} {dir : Str → Str} {path : Str}
    (hpath : sourcePath input.parseMeta = some path) (hne : path ≠ [])
    (hfile : isFile path = true) : baseFor input isFile dir = dir path := by
  unfold baseFor
  dsimp only
  rw [hpath, Option.getD_some, if_neg hne, if_pos hfile]

/-- Along a chain, each reference adds a step up and itself to the text. -/
theorem Route.full_eq (hfs : filesystem self.fs options os = fs.toFs) {base : Str}
    {references : List Str} {resolution : Resolution}
    (h : Route self fs os options base references resolution) :
    ∃ full, resolution.spec.full = some full ∧ self.isFile fs full = true ∧
      full = clean (composed base references) := by
  induction h with
  | @first parseMeta reference hbase hfolder hrel hdirect =>
    obtain ⟨full, hfull, hfile, heq⟩ := hdirect.full hfs hrel
    rw [baseFor_folder hbase hfolder] at heq
    exact ⟨full, hfull, hfile, heq⟩
  | @next references previous parent parents dive ticket reference hroute hrel hdirect ih =>
    obtain ⟨full, hfull, hfile, heq⟩ := hdirect.full hfs hrel
    obtain ⟨prev, hprev, hprevFile, hprevEq⟩ := ih
    have hne : prev ≠ [] := by
      rw [hprevEq]
      exact spell_ne_nil fun s hs => isSegment_of_mem_clean hs
    have hpath : sourcePath (childMeta parent previous parents dive ticket) = some prev := by
      rw [sourcePath_childMeta, hprev]
    rw [baseFor_file hpath hne hprevFile] at heq
    refine ⟨full, hfull, hfile, ?_⟩
    rw [heq, clean_eq_iff, composed_concat base hroute.ne_nil, cleanSegments_up,
      cleanSegments_append, cleanSegments_append, MapFs.cleanSegments_dir, MapFs.cleanSegments_dir,
      hprevEq, cleanSegments_clean]

end Route

/-- **Relative references compose.** The source that a chain of references leads to lies at the
normal form of all of them after one another. -/
theorem relative_references_compose (self : FileResolver) (fs : MapFs) (os : Os)
    (options : MultiSourceOptions) (hfs : filesystem self.fs options os = fs.toFs) (base : Str)
    (references : List Str) (resolution : Resolution)
    (h : Route self fs os options base references resolution) :
    resolution.spec.full = some (clean (composed base references)) := by
  obtain ⟨full, hfull, -, heq⟩ := h.full_eq hfs
  rw [hfull, heq]

/-- Two sources in sibling folders. -/
def siblingFs : MapFs := .ofList [
  ("conf/a.jsonic".toList, "@\"..//lib/./b.jsonic\"".toList), ("lib/b.jsonic".toList, "1".toList)]

def siblingResolver : FileResolver := ⟨none, [], some siblingFs.toFs, none⟩

def confOptions : MultiSourceOptions := { MultiSourceOptions.new with path := "conf".toList }

def siblingA : Resolution :=
  siblingResolver.resolve noOs (some "./a.jsonic".toList) ⟨confOptions, .undefined⟩

def siblingB : Resolution :=
  siblingResolver.resolve noOs (some "..//lib/./b.jsonic".toList)
    ⟨confOptions, childMeta .undefined siblingA [] none []⟩

/-- The second source stands where its reference leads from the first. -/
theorem relative_references_compose_siblings : siblingB.spec.full = some "lib/b.jsonic".toList := by
  have hfirst : Route siblingResolver siblingFs noOs confOptions "conf".toList
      ["./a.jsonic".toList] siblingA := by
    apply Route.first
    · rfl
    · exact .inr (by decide)
    · exact isRelative_cons '.' rfl _
    · exact ⟨by decide, "conf/a.jsonic".toList, by decide⟩
  have hsecond : Route siblingResolver siblingFs noOs confOptions "conf".toList
      ["./a.jsonic".toList, "..//lib/./b.jsonic".toList] siblingB := by
    apply Route.next hfirst
    · exact isRelative_cons '.' rfl _
    · exact ⟨by decide, "lib/b.jsonic".toList, by decide⟩
  exact (relative_references_compose siblingResolver siblingFs noOs confOptions rfl _ _ _
    hsecond).trans (by decide)

end MultiSource
