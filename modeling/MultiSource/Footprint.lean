import MultiSource.Capped
import MultiSource.Preloaded

/-!
# What a document reads

A resolution looks at the root, at the base and at what its search list names, and at nothing else.
So a document comes to the same over every filesystem that agrees on what its references touch.
-/

namespace MultiSource

open Interaction Inclusion Inclusion.Library Lookups

/-- Two filesystems with the same paths that read and resolve some of them alike. -/
structure SameUnder (fs fs' : SourceFs) (paths : List Str) : Prop where
  ops : fs.toPathOps = fs'.toPathOps
  read : ∀ path ∈ paths, fs.readFile path = fs'.readFile path
  real : ∀ path ∈ paths, fs.realPath path = fs'.realPath path

namespace SameUnder

variable {fs fs' : SourceFs} {paths paths' : List Str}

theorem mono (h : SameUnder fs fs' paths) (hsub : paths' ⊆ paths) : SameUnder fs fs' paths' :=
  ⟨h.ops, fun path hp => h.read path (hsub hp), fun path hp => h.real path (hsub hp)⟩

theorem canon (h : SameUnder fs fs' paths) : fs.canon = fs'.canon := congrArg PathOps.canon h.ops

theorem dir (h : SameUnder fs fs' paths) : fs.dir = fs'.dir := congrArg PathOps.dir h.ops

theorem nativePaths (h : SameUnder fs fs' paths) : fs.nativePaths = fs'.nativePaths :=
  congrArg PathOps.nativePaths h.ops

theorem confinement (h : SameUnder fs fs' paths) (root : Option Str)
    (hroot : root.toList ⊆ paths) : Confinement.new fs root = Confinement.new fs' root := by
  unfold Confinement.new
  rw [h.nativePaths, h.canon]
  cases root with
  | none => rfl
  | some root => rw [Option.map_some, Option.map_some, h.real root (hroot (by simp))]

theorem allows (h : SameUnder fs fs' paths) (confined : Confinement) {path : Str}
    (hp : path ∈ paths) : confined.allows fs path = confined.allows fs' path := by
  unfold Confinement.allows
  rw [h.real path hp]

theorem baseFor (h : SameUnder fs fs' paths) {options : MultiSourceOptions} {parseMeta : Value}
    (hbase : basePathUnder options parseMeta ∈ paths) (held : Str → Bool) :
    MultiSource.baseFor ⟨options, parseMeta⟩ (fun path => held path || (fs.readFile path).isSome)
        fs.dir =
      MultiSource.baseFor ⟨options, parseMeta⟩ (fun path => held path || (fs'.readFile path).isSome)
        fs'.dir := by
  have hread := h.read _ hbase
  unfold basePathUnder at hread
  unfold MultiSource.baseFor
  simp only [hread, h.dir]

end SameUnder

/-! ## The file resolver -/

namespace FileResolver

variable (self : FileResolver) {fs fs' : SourceFs}

theorem load_of_same {paths : List Str} (h : SameUnder fs fs' paths) (confined : Confinement)
    {path : Str} (hp : path ∈ paths) :
    self.load fs path confined = self.load fs' path confined := by
  unfold load
  rw [h.allows confined hp, h.read path hp]

theorem find_of_same {confined : Confinement} {spec : PathSpec} {full : Str} {exts : List Str}
    (h : SameUnder fs fs' (self.find fs confined spec full exts).search) :
    self.find fs confined spec full exts = self.find fs' confined spec full exts := by
  have hops := h.ops
  cases hs : self.load fs full confined with
  | some src =>
    have hfind : self.find fs confined spec full exts =
        (Resolution.ofFound spec full src).withSearch [full] := by
      unfold find
      rw [hs]
    rw [hfind] at h ⊢
    unfold find
    rw [← self.load_of_same h confined (List.mem_singleton_self full), hs]
  | none =>
    have hfind : self.find fs confined spec full exts =
        resolveFirst (self.load fs · confined) spec (potentials fs.toPathOps spec full exts)
          (full :: potentials fs.toPathOps spec full exts) := by
      unfold find
      rw [hs]
    rw [hfind] at h ⊢
    rw [search_resolveFirst] at h
    unfold find
    rw [← self.load_of_same h confined (List.mem_cons_self ..), hs, ← hops]
    exact resolveFirst_congr
      (fun q hq => self.load_of_same h confined (List.mem_cons_of_mem _ hq)) _ _

theorem specOf_of_same {paths : List Str} (h : SameUnder fs fs' paths)
    {options : MultiSourceOptions} {parseMeta : Value} (reference : Option Str)
    (hbase : basePathUnder options parseMeta ∈ paths) :
    self.specOf fs reference ⟨options, parseMeta⟩ =
      self.specOf fs' reference ⟨options, parseMeta⟩ := by
  unfold specOf
  exact congrArg (resolvePathSpec _) (h.baseFor hbase fun path => (self.preload.get path).isSome)

theorem resolve_of_full_none (os : Os) {reference : Option Str} {input : ResolverInput}
    (hfull : (self.specOf fs reference input).full = none) :
    (self.withFs (some fs)).resolve os reference input =
      .notFound (self.specOf fs reference input) := by
  have hspec : (self.withFs (some fs)).specOf fs reference input =
      self.specOf fs reference input := rfl
  unfold resolve
  rw [show filesystem (self.withFs (some fs)).fs input.options os = fs from rfl]
  dsimp only
  rw [hspec, hfull]

theorem resolve_of_full_some (os : Os) {reference : Option Str} {input : ResolverInput} {full : Str}
    (hfull : (self.specOf fs reference input).full = some full) :
    (self.withFs (some fs)).resolve os reference input =
      self.find fs (Confinement.new fs self.root)
        { self.specOf fs reference input with
          full := some (fs.canon full)
          kind := extKind (some (fs.canon full)) } (fs.canon full) input.options.implicitExt := by
  have hspec : (self.withFs (some fs)).specOf fs reference input =
      self.specOf fs reference input := rfl
  unfold resolve
  rw [show filesystem (self.withFs (some fs)).fs input.options os = fs from rfl]
  dsimp only
  rw [hspec, hfull]
  rfl

/-- A resolution reads the root, the base and what it lists as searched. -/
theorem resolve_of_same (os : Os) {options : MultiSourceOptions} {parseMeta : Value}
    {reference : Option Str}
    (h : SameUnder fs fs' (self.root.toList ++ basePathUnder options parseMeta ::
      ((self.withFs (some fs)).resolve os reference ⟨options, parseMeta⟩).search)) :
    (self.withFs (some fs)).resolve os reference ⟨options, parseMeta⟩ =
      (self.withFs (some fs')).resolve os reference ⟨options, parseMeta⟩ := by
  have hconfined := h.confinement self.root (List.subset_append_left ..)
  have hbase := h.mono (List.subset_append_right ..)
  have hspec := self.specOf_of_same hbase reference (List.mem_cons_self ..)
  cases hfull : (self.specOf fs reference ⟨options, parseMeta⟩).full with
  | none =>
    rw [self.resolve_of_full_none os hfull, self.resolve_of_full_none os (hspec ▸ hfull), hspec]
  | some full =>
    rw [self.resolve_of_full_some os hfull] at hbase ⊢
    rw [self.resolve_of_full_some os (hspec ▸ hfull), ← hspec, ← hconfined, ← h.canon]
    exact self.find_of_same (hbase.mono (List.subset_cons_self ..))

end FileResolver

/-! ## The package resolver -/

namespace PkgResolver

variable (manifest : Str → Option Str) (ops : PathOps)

theorem lists_manifestMain (target : Str) :
    Lists fun load search => manifestMain manifest load ops target search := by
  have hstep : (fun load search => manifestMain manifest load ops target search) =
      andThen (look (ops.join [target, "package.json".toList])) fun text =>
        done ((text.bind manifest).bind fun main => if main = [] then none else some main) := by
    funext load search
    unfold manifestMain andThen look done
    dsimp only
    cases (load (ops.join [target, "package.json".toList])).bind manifest <;> rfl
  rw [hstep]
  exact (Lists.look _).andThen fun _ => .done _

theorem lists_resolveInPkgDir (nodeModules reference : Str) (exts : List Str) :
    Lists fun load search =>
      resolveInPkgDir manifest ops load nodeModules reference exts search := by
  let target := ops.join [nodeModules, reference]
  let potentials := buildPotentials target exts
  have hstep : (fun load search =>
      resolveInPkgDir manifest ops load nodeModules reference exts search) =
      orThen (fun load search =>
          tryEach load (potentials.filter fun candidate => !isIndexOf candidate target) search)
        (andThen (fun load search => manifestMain manifest load ops target search) fun main =>
          orThen (fun load search => tryEach load
              (main.elim [] fun main => buildPotentials (ops.join [target, main]) exts) search)
            fun load search =>
              tryEach load (potentials.filter fun candidate => isIndexOf candidate target)
                search) := by
    funext load search
    unfold resolveInPkgDir orThen andThen done
    dsimp only [target, potentials]
    rcases tryEach load _ search with ⟨_ | hit, search⟩
    · dsimp only [Option.elim_none]
      rcases manifestMain manifest load ops _ search with ⟨_ | main, search⟩ <;>
      · dsimp only [Option.elim_none, Option.elim_some]
        rcases tryEach load _ search with ⟨_ | hit, search⟩ <;> rfl
    · rfl
  rw [hstep]
  exact (lists_tryEach _).orThen ((lists_manifestMain manifest ops target).andThen fun main =>
    (lists_tryEach _).orThen (lists_tryEach _))

theorem lists_searchFolders (reference : Str) (exts folders seen : List Str) :
    Lists fun load search =>
      searchFolders manifest ops load reference exts folders seen search := by
  induction folders generalizing seen with
  | nil => exact .done none
  | cons folder folders ih =>
    by_cases hs : ops.join [folder, "node_modules".toList] ∈ seen
    · have hstep : (fun load search =>
          searchFolders manifest ops load reference exts (folder :: folders) seen search) =
          fun load search =>
            searchFolders manifest ops load reference exts folders seen search := by
        funext load search
        rw [searchFolders, if_pos hs]
      rw [hstep]
      exact ih seen
    · have hstep : (fun load search =>
          searchFolders manifest ops load reference exts (folder :: folders) seen search) =
          orThen (fun load search => resolveInPkgDir manifest ops load
              (ops.join [folder, "node_modules".toList]) reference exts search)
            fun load search => searchFolders manifest ops load reference exts folders
              (seen ++ [ops.join [folder, "node_modules".toList]]) search := by
        funext load search
        rw [searchFolders, if_neg hs]
        unfold orThen andThen done
        dsimp only
        rcases resolveInPkgDir manifest ops load _ reference exts search with ⟨_ | hit, search⟩ <;>
          rfl
      rw [hstep]
      exact (lists_resolveInPkgDir manifest ops _ reference exts).orThen (ih _)

variable {manifest} (self : PkgResolver) {fs fs' : SourceFs}

theorem pkgLoad_of_same {paths : List Str} (h : SameUnder fs fs' paths) (confined : Confinement)
    {path : Str} (hp : path ∈ paths) : pkgLoad fs confined path = pkgLoad fs' confined path := by
  unfold pkgLoad
  rw [h.allows confined hp, h.read path hp]

theorem resolvePackage_of_same (os : Os) {confined : Confinement} {spec : PathSpec} {path : Str}
    {exts : List Str}
    (h : SameUnder fs fs' (self.resolvePackage manifest fs (pkgLoad fs confined) os spec path
      exts).search) :
    self.resolvePackage manifest fs (pkgLoad fs confined) os spec path exts =
      self.resolvePackage manifest fs' (pkgLoad fs' confined) os spec path exts := by
  have hops := h.ops
  unfold resolvePackage at h ⊢
  dsimp only at h ⊢
  rw [← hops]
  generalize List.flatMap _ _ = folders at h ⊢
  have hsame := (lists_searchFolders manifest fs.toPathOps path exts folders []).same
    (pkgLoad fs confined) (pkgLoad fs' confined) []
  rcases hr : searchFolders manifest fs.toPathOps (pkgLoad fs confined) path exts folders [] [] with
    ⟨hit, search⟩
  rw [hr] at h hsame
  rw [← hsame fun q hq => ?_]
  cases hit with
  | none => exact pkgLoad_of_same h confined hq
  | some hit => exact pkgLoad_of_same h confined hq

/-- A resolution reads the root, the base and what it lists as searched. -/
theorem resolve_of_same (manifest : Str → Option Str) (os : Os) {options : MultiSourceOptions}
    {parseMeta : Value} {reference : Option Str}
    (h : SameUnder fs fs' (self.root.toList ++ basePathUnder options parseMeta ::
      ((self.withFs (some fs)).resolve manifest os reference ⟨options, parseMeta⟩).search)) :
    (self.withFs (some fs)).resolve manifest os reference ⟨options, parseMeta⟩ =
      (self.withFs (some fs')).resolve manifest os reference ⟨options, parseMeta⟩ := by
  have hconfined : Confinement.new fs (self.withFs (some fs)).root =
      Confinement.new fs' (self.withFs (some fs')).root :=
    h.confinement self.root (List.subset_append_left ..)
  have hbase := h.mono (List.subset_append_right ..)
  have hspec : resolvePathSpec reference (baseFor ⟨options, parseMeta⟩
      (fun path => (fs.readFile path).isSome) fs.dir) =
      resolvePathSpec reference (baseFor ⟨options, parseMeta⟩
        (fun path => (fs'.readFile path).isSome) fs'.dir) :=
    congrArg _ (hbase.baseFor (List.mem_cons_self ..) fun _ => false)
  have hsearch := hbase.mono (List.subset_cons_self ..)
  unfold resolve at hsearch ⊢
  rw [show filesystem (self.withFs (some fs)).fs options os = fs from rfl] at hsearch
  rw [show filesystem (self.withFs (some fs)).fs options os = fs from rfl,
    show filesystem (self.withFs (some fs')).fs options os = fs' from rfl]
  dsimp only at hsearch ⊢
  rw [← hspec, ← hconfined, ← hsearch.canon]
  generalize resolvePathSpec reference _ = spec at hsearch ⊢
  cases hpath : spec.path with
  | none => rfl
  | some path =>
    rw [hpath] at hsearch
    dsimp only at hsearch ⊢
    split_ifs at hsearch ⊢ with hempty hrelative
    · rfl
    · cases hfull : spec.full with
      | none => rfl
      | some full =>
        rw [hfull] at hsearch
        dsimp only at hsearch ⊢
        rw [search_resolveFirst] at hsearch
        exact resolveFirst_congr (fun q hq => pkgLoad_of_same hsearch _ hq) _ _
    · exact self.resolvePackage_of_same os hsearch

end PkgResolver

/-! ## Documents -/

/-- A resolver that reads a filesystem. -/
inductive FsResolver : Type
  | file (resolver : FileResolver)
  | pkg (manifest : Str → Option Str) (resolver : PkgResolver)

namespace FsResolver

def root : FsResolver → Option Str
  | .file resolver => resolver.root
  | .pkg _ resolver => resolver.root

section

variable (os : Os) (fs : SourceFs) (options : MultiSourceOptions)

/-- What a reference resolves to over the filesystem. -/
def resolve : FsResolver → Option Str → Value → Resolution
  | .file resolver, reference, parseMeta =>
    (resolver.withFs (some fs)).resolve os reference ⟨options, parseMeta⟩
  | .pkg manifest resolver, reference, parseMeta =>
    (resolver.withFs (some fs)).resolve manifest os reference ⟨options, parseMeta⟩

/-- What a resolution touches: the root, the base and the search list. -/
def touched (self : FsResolver) (reference : Option Str) (parseMeta : Value) : List Str :=
  self.root.toList ++ basePathUnder options parseMeta ::
    (self.resolve os fs options reference parseMeta).search

/-- The text the resolver reads at a path. -/
def text : FsResolver → Str → Option Str
  | .file resolver, path => resolver.load fs path (Confinement.new fs resolver.root)
  | .pkg _ resolver, path => PkgResolver.pkgLoad fs (Confinement.new fs resolver.root) path

theorem resolve_found (self : FsResolver) (reference : Option Str) (parseMeta : Value)
    (h : (self.resolve os fs options reference parseMeta).found = true) :
    ∃ spec full src search, self.text fs full = some src ∧
      self.resolve os fs options reference parseMeta =
        (Resolution.ofFound spec full src).withSearch search := by
  cases self with
  | file resolver => exact (resolver.withFs (some fs)).resolve_found os reference _ h
  | pkg manifest resolver =>
    obtain ⟨spec, full, src, search, hl, -, he⟩ :=
      (resolver.withFs (some fs)).resolve_found os reference _ h
    exact ⟨spec, full, src, search, hl, he⟩

theorem resolve_congr (self : FsResolver) (reference : Option Str) {m m' : Value}
    (h : sourcePath m = sourcePath m') :
    self.resolve os fs options reference m = self.resolve os fs options reference m' := by
  cases self with
  | file resolver =>
    unfold resolve FileResolver.resolve FileResolver.specOf
    simp only [baseFor_congr options h]
  | pkg manifest resolver =>
    unfold resolve PkgResolver.resolve
    simp only [baseFor_congr options h]

/-- The sources a resolver finds in the filesystem. -/
def sources (self : FsResolver) : SourceSet where
  text := self.text fs
  resolve reference path := self.resolve os fs options reference (metaAt path)
  of_found reference path := self.resolve_found os fs options reference (metaAt path)

theorem serves {I : Type} (self : FsResolver) (refused : Str → Prop) :
    (self.sources os fs options).Serves
      (World.of (self.resolve os fs options) refused : World I) := by
  rintro reference parseMeta r rfl
  exact self.resolve_congr os fs options reference (sourcePath_metaAt _).symm

end

theorem resolve_of_same (self : FsResolver) (os : Os) {fs fs' : SourceFs}
    {options : MultiSourceOptions} {reference : Option Str} {parseMeta : Value}
    (h : SameUnder fs fs' (self.touched os fs options reference parseMeta)) :
    self.resolve os fs options reference parseMeta =
      self.resolve os fs' options reference parseMeta := by
  cases self with
  | file resolver => exact resolver.resolve_of_same os h
  | pkg manifest resolver => exact resolver.resolve_of_same manifest os h

end FsResolver

section Transfer

variable {S S' : SourceSet} {float : ExpFormat} {tree : Str → Parse} {maxDepth : ℕ}
  {refused : Str → Prop}

theorem SourceSet.names_of_same {reference path : Option Str}
    (h : S.resolve reference path = S'.resolve reference path) :
    S.names reference path = S'.names reference path := by
  unfold SourceSet.names
  rw [h]

theorem SourceSet.text_of_same {reference path : Option Str} {full src : Str}
    (h : S.resolve reference path = S'.resolve reference path)
    (hn : S.names reference path = some full) (ht : S.text full = some src) :
    S'.text full = some src := by
  obtain ⟨spec, src₁, search, ht₁, hr⟩ := SourceSet.of_names hn
  obtain ⟨spec', src₂, search', ht₂, hr'⟩ :=
    SourceSet.of_names (SourceSet.names_of_same h ▸ hn)
  have hsrc : some src₁ = some src₂ := congrArg Resolution.src (hr.symm.trans (h.trans hr'))
  rw [ht₂, ← hsrc, ← ht₁, ht]

/-- Source sets that resolve the references a document leads to alike give it the same
outcomes. -/
theorem Comes.transfer {path : Option Str} {chain : List Str} {task : Task} {o : Outcome}
    (h : Comes S float tree maxDepth refused path chain task o)
    (root : Place Str (Option Str) Value OwnError)
    (hsame : ∀ trail reference, (S.library float tree).Trail root trail →
      (S.library float tree).Inside ((S.library float tree).last root trail) reference →
      S.resolve reference ((S.library float tree).last root trail).1 =
        S'.resolve reference ((S.library float tree).last root trail).1) :
    (S.library float tree).Trail root chain →
      RestsAt S float tree ((S.library float tree).last root chain) path task →
      Comes S' float tree maxDepth refused path chain task o := by
  induction h with
  | value => exact fun _ _ => .value
  | own => exact fun _ _ => .own
  | next hv _ ih ih' =>
    intro ht hr
    obtain ⟨k, hk, he⟩ := hv.visited
    exact .next (ih ht ⟨hr.here.symm, hr.inside _ .here⟩) (ih' ht (hr.next hk he))
  | stop _ ih => exact fun ht hr => .stop (ih ht ⟨hr.here.symm, hr.inside _ .here⟩)
  | missing hn =>
    rintro ht ⟨rfl, hi⟩
    have heq := hsame _ _ ht hi
    rw [heq]
    exact .missing (SourceSet.names_of_same heq ▸ hn)
  | refused hn hcheck =>
    rintro ht ⟨rfl, hi⟩
    exact .refused (SourceSet.names_of_same (hsame _ _ ht hi) ▸ hn) hcheck
  | text hn hcheck htext hp =>
    rintro ht ⟨rfl, hi⟩
    have heq := hsame _ _ ht hi
    exact .text (SourceSet.names_of_same heq ▸ hn) hcheck (SourceSet.text_of_same heq hn htext) hp
  | noThread hn hcheck hp hr =>
    rintro ht ⟨rfl, hi⟩
    exact .noThread (SourceSet.names_of_same (hsame _ _ ht hi) ▸ hn) hcheck hp hr
  | @nested path chain site full src o o' hn hcheck htext hp _ ho ih =>
    rintro ht ⟨rfl, hi⟩
    have heq := hsame _ _ ht hi
    have hrest : Rests (S.library float tree) ((S.library float tree).last root (chain ++ [full]))
        (some full, (tree src).text float) := library_place_parsed htext hp ▸ .concat ..
    exact .nested (SourceSet.names_of_same heq ▸ hn) hcheck
      (SourceSet.text_of_same heq hn htext) hp (ih (ht.snoc ⟨_, hi, hn⟩) hrest) ho

end Transfer

/-- **Untouched files change nothing.** A document comes to the same over two filesystems that agree
on what its references touch: the roots, the bases, and the candidates of their searches. So nothing
else that is in a filesystem, or is put into it, taken from it or changed there, shows in an answer,
and the search list of a report names all that could have been found instead. -/
theorem untouched_files_change_nothing {I : Type} {options : MultiSourceOptions}
    {engine : Engine I options.markchar} {tree : Str → Parse} {parser : I}
    (hproc : options.processor = defaultProcessors) (htree : Textual engine tree)
    (resolver : FsResolver) (os : Os) {fs fs' : SourceFs} {src : Str} {parseMeta : Value}
    (hm : Unmarked parseMeta) {s : Shared I} (hs : s.slots = []) :
    let L := (resolver.sources os fs options).library engine.float tree
    let p : Place Str (Option Str) Value OwnError := (none, (tree src).text engine.float)
    let Ran (fs : SourceFs) := Exec (S := sig I)
      (Handles (World.of (resolver.resolve os fs options) granted)) (body engine) s
      (body engine (.parse parser src parseMeta))
    (∀ trail reference, L.Trail p trail → L.Inside (L.last p trail) reference →
      SameUnder fs fs' (resolver.touched os fs options reference (metaAt (L.last p trail).1))) →
    ∀ answer answer' s₁ s₂, Ran fs answer s₁ → Ran fs' answer' s₂ →
      ∃ o, Answers o answer ∧ Answers o answer' := by
  intro L p Ran hsame answer answer' s₁ s₂ h h'
  obtain ⟨o, hcomes, hanswers⟩ :=
    exec_comes hproc (resolver.serves os fs options granted) htree hm hs h
  obtain ⟨o', hcomes', hanswers'⟩ :=
    exec_comes hproc (resolver.serves os fs' options granted) htree hm hs h'
  have hresolve : ∀ trail reference, L.Trail p trail → L.Inside (L.last p trail) reference →
      (resolver.sources os fs options).resolve reference (L.last p trail).1 =
        (resolver.sources os fs' options).resolve reference (L.last p trail).1 :=
    fun trail reference ht hi => resolver.resolve_of_same os (hsame trail reference ht hi)
  have hmoved := hcomes.transfer p hresolve .nil (.refl _)
  exact ⟨o, hanswers, hmoved.outcome_unique hcomes' ▸ hanswers'⟩

/-! ## A file beside a leaf -/

/-- A new file is under none of the paths. -/
theorem MapFs.sameUnder_insert {fs : MapFs} {path : Str} (content : Str) {paths : List Str}
    (h : ∀ q ∈ paths, clean path ≠ clean q) :
    SameUnder fs.toFs (fs.insert path content).toFs paths where
  ops := rfl
  read q hq := ((readFile_insert fs path content q).trans (if_neg (h q hq))).symm
  real _ _ := rfl

/-- A filesystem with one file. -/
def lonelyFs : MapFs := MapFs.ofList [("a.jsonic".toList, "x".toList)]

/-- A file resolver without a root. -/
abbrev anywhere : FsResolver := .file ⟨none, [], none, none⟩

theorem lonelyFs_text {full src : Str} (h : anywhere.text lonelyFs.toFs full = some src) :
    src = "x".toList := by
  change (lonelyFs.files.get (clean full)) = some src at h
  rw [show lonelyFs.files = [("a.jsonic".toList, "x".toList)] by decide, Entries.get] at h
  split_ifs at h
  · exact (Option.some.inj h).symm
  · cases h

theorem untouched_files_change_nothing_lonely :
    let Ran (fs : MapFs) := Exec (S := sig Bool)
      (Handles (World.of (anywhere.resolve noOs fs.toFs .new) granted)) (body aloneEngine)
      Shared.init (body aloneEngine (.parse true "@a".toList .undefined))
    ∃ answer answer' s₁ s₂, Ran lonelyFs answer s₁ ∧
      Ran (lonelyFs.insert "b.jsonic".toList "y".toList) answer' s₂ ∧
      ∃ o, Answers o answer ∧ Answers o answer' := by
  intro Ran
  have hruns (fs : MapFs) : ∃ answer s, Ran fs answer s :=
    Halts.exec (fun s o => ⟨_, _, handles_answer _ granted s o⟩) (halts_body _) Shared.init
  obtain ⟨answer, s₁, h⟩ := hruns lonelyFs
  obtain ⟨answer', s₂, h'⟩ := hruns (lonelyFs.insert "b.jsonic".toList "y".toList)
  refine ⟨answer, answer', s₁, s₂, h, h', ?_⟩
  have htree : Textual aloneEngine parseAlone := fun _ _ _ => rfl
  have hm : Unmarked Value.undefined := rfl
  refine untouched_files_change_nothing rfl htree anywhere noOs hm rfl ?_ _ _ _ _ h h'
  intro trail reference ht hi
  apply MapFs.sameUnder_insert
  cases ht with
  | nil =>
    rw [last_nil] at hi ⊢
    change Library.Inside _ (none, .refer (some "a".toList) fun v => .done (.ok v)) _ at hi
    cases hi with
    | here => decide
    | later _ _ hi => cases hi
  | @snoc trail k _ hr =>
    rw [last_concat] at hi
    obtain ⟨_, -, hn⟩ := hr
    obtain ⟨_, src, _, htext, -⟩ := SourceSet.of_names hn
    obtain rfl := lonelyFs_text htext
    cases hp : isParsed k with
    | true =>
      rw [library_place_parsed htext hp] at hi
      cases hi
    | false =>
      rw [library_place_unparsed htext hp] at hi
      cases hi

end MultiSource
