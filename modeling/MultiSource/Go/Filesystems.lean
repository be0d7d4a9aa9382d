import MultiSource.Go.Dependencies
import MultiSource.Go.Resolvers

/-!
# Documents over a filesystem in the Go port

The search list of a resolution is all that was looked at for it. Over an injected filesystem the
resolvers find finitely many sources, so that every document ends although nothing caps its loads.
-/

namespace MultiSource.Go

open Interaction Inclusion Inclusion.Library Lookups

/-- A resolver that looks at a filesystem. -/
inductive FsResolver : Type
  | file (o : FileResolverOptions)
  | pkg (manifest : Str → Option Str) (o : PkgResolverOptions)

namespace FsResolver

def resolver (v : View) : FsResolver → Resolver
  | file o => fileResolver o v
  | pkg manifest o => pkgResolver v manifest o

/-- The text the resolver finds at a path. -/
def text (v : View) : FsResolver → Str → Option Str
  | file o => o.text v
  | pkg .. => v.readFile

end FsResolver

/-! ## What is found -/

section Found

variable {v : View} {manifest : Str → Option Str} {p src : Str}

/-- A candidate of a path in the form of the view. -/
def Candidate (v : View) (exts : List Str) (p : Str) : Prop :=
  (∃ x, p ∈ buildPotentials (v.canon x) exts) ∨ ∃ parts, p ∈ buildPotentials (v.join parts) exts

theorem mem_of_firstLoaded {load : Str → Option Str} {candidates : List Str}
    (h : firstLoaded load candidates = some (p, src)) : p ∈ candidates ∧ load p = some src := by
  obtain ⟨pre, post, rfl, -, hl⟩ := firstLoaded_eq_some h
  exact ⟨by simp, hl⟩

theorem mem_of_resolveInPkgDir {nm ref : Str} {exts search search' : List Str}
    (h : resolveInPkgDir v.toVfs manifest nm ref exts search = (some (p, src), search')) :
    (∃ parts, p ∈ buildPotentials (v.join parts) exts) ∧ v.readFile p = some src := by
  unfold resolveInPkgDir at h
  dsimp only at h
  rcases hr : tryEach v.readFile (buildPotentials (v.join [nm, ref]) exts) search with
    ⟨_ | hit, search₁⟩
  · rw [hr] at h
    dsimp only at h
    split at h
    · split_ifs at h with hmain
      · cases h
      · obtain ⟨hm, hl⟩ := tryEach_hit (congrArg Prod.fst h)
        exact ⟨⟨_, hm⟩, hl⟩
    · cases h
  · rw [hr] at h
    cases h
    obtain ⟨hm, hl⟩ := tryEach_hit (congrArg Prod.fst hr)
    exact ⟨⟨_, hm⟩, hl⟩

theorem mem_of_searchFolders {ref : Str} {exts dirs seen search search' : List Str}
    (h : searchFolders v manifest ref exts dirs seen search = (some (p, src), search')) :
    (∃ parts, p ∈ buildPotentials (v.join parts) exts) ∧ v.readFile p = some src := by
  induction dirs generalizing seen search with
  | nil => cases h
  | cons dir dirs ih =>
    rw [searchFolders] at h
    split_ifs at h with hseen
    · exact ih h
    · rcases hr : resolveInPkgDir v.toVfs manifest (v.join [dir, "node_modules".toList]) ref exts
        search with ⟨_ | hit, search₁⟩
      · rw [hr] at h
        exact ih h
      · rw [hr] at h
        cases h
        exact mem_of_resolveInPkgDir hr

theorem fileResolver_cases (o : FileResolverOptions) (v : View) (spec : PathSpec)
    (opts : Options) : (fileResolver o v spec opts).found = false ∨
      ∃ spec' x p src search, p ∈ buildPotentials (v.canon x) opts.implicitExt ∧
        o.text v p = some src ∧ fileResolver o v spec opts = .hit spec' p src search := by
  unfold fileResolver
  dsimp only
  split_ifs with hfull
  · exact .inl rfl
  · split
    · rename_i p src hl
      exact .inr ⟨_, _, _, _, _, (mem_of_firstLoaded hl).1, (mem_of_firstLoaded hl).2, rfl⟩
    · exact .inl rfl

theorem pkgResolver_cases (v : View) (manifest : Str → Option Str) (o : PkgResolverOptions)
    (spec : PathSpec) (opts : Options) : (pkgResolver v manifest o spec opts).found = false ∨
      ∃ p src search, Candidate v opts.implicitExt p ∧ v.readFile p = some src ∧
        pkgResolver v manifest o spec opts = .hit spec p src search := by
  unfold pkgResolver
  dsimp only
  generalize (if o.paths = [] then v.start else o.paths) = roots
  split_ifs with hpath hrelative
  · exact .inl rfl
  · split
    · rename_i p src hl
      exact .inr ⟨_, _, _, .inl ⟨_, (mem_of_firstLoaded hl).1⟩, (mem_of_firstLoaded hl).2, rfl⟩
    · exact .inl rfl
  · split
    · rename_i p src search hs
      exact .inr ⟨_, _, _, .inr (mem_of_searchFolders hs).1, (mem_of_searchFolders hs).2, rfl⟩
    · exact .inl rfl

theorem candidate_ne_nil {exts : List Str} (h : Candidate v exts p) : p ≠ [] := by
  rcases h with ⟨x, h⟩ | ⟨parts, h⟩
  · exact ne_nil_of_mem_buildPotentials h
  · exact ne_nil_of_mem_buildPotentials h

end Found

namespace FsResolver

variable (self : FsResolver) (v : View) (opts : Options)

/-- Whatever the resolver finds is a candidate, with its text. -/
theorem resolver_cases (spec : PathSpec) : (self.resolver v spec opts).found = false ∨
    ∃ spec' p src search, Candidate v opts.implicitExt p ∧ self.text v p = some src ∧
      self.resolver v spec opts = .hit spec' p src search := by
  cases self with
  | file o =>
    rcases fileResolver_cases o v spec opts with h | ⟨spec', x, p, src, search, hp, ht, he⟩
    · exact .inl h
    · exact .inr ⟨spec', p, src, search, .inl ⟨x, hp⟩, ht, he⟩
  | pkg manifest o =>
    rcases pkgResolver_cases v manifest o spec opts with h | ⟨p, src, search, hp, ht, he⟩
    · exact .inl h
    · exact .inr ⟨spec, p, src, search, hp, ht, he⟩

theorem found_of_resolver {spec : PathSpec} (h : (self.resolver v spec opts).found = true) :
    Found (self.text v) (self.resolver v spec opts) := by
  rcases self.resolver_cases v opts spec with hf | ⟨spec', p, src, search, hp, ht, he⟩
  · rw [hf] at h
    cases h
  · rw [he]
    exact ⟨ht, candidate_ne_nil hp, rfl⟩

/-- The sources the resolver finds through a view. -/
def sources : SourceSet where
  resolver := self.resolver v
  opts := opts
  text := self.text v
  of_found _ := self.found_of_resolver v opts

theorem candidate_of_names {path : Option Str} {reference full : Str}
    (h : (self.sources v opts).names path reference = some full) :
    Candidate v opts.implicitExt full ∧ ∃ src, self.text v full = some src := by
  obtain ⟨hf, rfl⟩ := SourceSet.names_eq_some.mp h
  have hresolve : (self.sources v opts).resolve path reference =
      self.resolver v (resolvePathSpec reference (baseAt opts path)) opts := rfl
  rw [hresolve] at hf ⊢
  rcases self.resolver_cases v opts (resolvePathSpec reference (baseAt opts path)) with
    hn | ⟨spec', p, src, search, hp, ht, he⟩
  · rw [hn] at hf
    cases hf
  · rw [he]
    exact ⟨hp, src, ht⟩

end FsResolver

/-! ## What is looked at -/

/-- Two views compute paths alike. -/
structure SamePaths (v v' : View) : Prop where
  join : v.join = v'.join
  dir : v.dir = v'.dir
  canon : v.canon = v'.canon
  start : v.start = v'.start
  depth : v.depth = v'.depth

theorem SamePaths.ancestors {v v' : View} (h : SamePaths v v') :
    Go.ancestors v = Go.ancestors v' := by
  have hfrom (n : ℕ) (dir : Str) : ancestorsFrom v n dir = ancestorsFrom v' n dir := by
    induction n generalizing dir with
    | zero => rfl
    | succ n ih => rw [ancestorsFrom, ancestorsFrom, h.dir, ih]
  funext dir
  unfold Go.ancestors
  rw [h.depth, hfrom]

section Searches

variable (manifest : Str → Option Str) (join : List Str → Str)

theorem lists_resolveInPkgDir (nm ref : Str) (exts : List Str) :
    Lists fun load search => resolveInPkgDir ⟨load, join⟩ manifest nm ref exts search := by
  let mains (text : Option Str) : List Str := (text.bind manifest).elim [] fun main =>
    if main = [] then [] else buildPotentials (join [join [nm, ref], main]) exts
  have hstep : (fun load search => resolveInPkgDir ⟨load, join⟩ manifest nm ref exts search) =
      orThen (fun load search => tryEach load (buildPotentials (join [nm, ref]) exts) search)
        (andThen (look (join [join [nm, ref], "package.json".toList])) fun text load search =>
          tryEach load (mains text) search) := by
    funext load search
    unfold resolveInPkgDir orThen andThen look done
    dsimp only [mains]
    rcases tryEach load _ search with ⟨_ | hit, search⟩
    · dsimp only [Option.elim_none]
      cases (load (join [join [nm, ref], "package.json".toList])).bind manifest with
      | none => rfl
      | some main =>
        dsimp only [Option.elim_some]
        split_ifs <;> rfl
    · rfl
  rw [hstep]
  exact (lists_tryEach _).orThen ((Lists.look _).andThen fun text => lists_tryEach _)

theorem lists_searchFolders (v : View) (ref : Str) (exts dirs seen : List Str) :
    Lists fun load search =>
      searchFolders { v with readFile := load } manifest ref exts dirs seen search := by
  induction dirs generalizing seen with
  | nil => exact .done none
  | cons dir dirs ih =>
    by_cases hs : v.join [dir, "node_modules".toList] ∈ seen
    · have hstep : (fun load search =>
          searchFolders { v with readFile := load } manifest ref exts (dir :: dirs) seen search) =
          fun load search =>
            searchFolders { v with readFile := load } manifest ref exts dirs seen search := by
        funext load search
        rw [searchFolders, if_pos hs]
      rw [hstep]
      exact ih seen
    · have hstep : (fun load search =>
          searchFolders { v with readFile := load } manifest ref exts (dir :: dirs) seen search) =
          orThen (fun load search => resolveInPkgDir ⟨load, v.join⟩ manifest
              (v.join [dir, "node_modules".toList]) ref exts search)
            fun load search => searchFolders { v with readFile := load } manifest ref exts dirs
              (seen ++ [v.join [dir, "node_modules".toList]]) search := by
        funext load search
        rw [searchFolders, if_neg hs]
        unfold orThen andThen done
        dsimp only
        rcases resolveInPkgDir ⟨load, v.join⟩ manifest _ ref exts search with
          ⟨_ | hit, search⟩ <;> rfl
      rw [hstep]
      exact (lists_resolveInPkgDir manifest v.join _ ref exts).orThen (ih _)

end Searches

section Same

variable {v v' : View} {manifest : Str → Option Str} {spec : PathSpec} {opts : Options}

theorem searchFolders_of_join (hjoin : v.join = v'.join) (ref : Str)
    (exts dirs seen search : List Str) : searchFolders v' manifest ref exts dirs seen search =
      searchFolders { v with readFile := v'.readFile } manifest ref exts dirs seen search := by
  have hvfs : v'.toVfs = ⟨v'.readFile, v.join⟩ := by rw [hjoin]
  induction dirs generalizing seen search with
  | nil => rfl
  | cons dir dirs ih =>
    rw [searchFolders, searchFolders, hvfs]
    simp only [ih]

theorem fileResolver_of_same (h : SamePaths v v') (o : FileResolverOptions)
    (hread : ∀ p ∈ (fileResolver o v spec opts).search, v.readFile p = v'.readFile p) :
    fileResolver o v spec opts = fileResolver o v' spec opts := by
  unfold fileResolver at hread ⊢
  dsimp only at hread ⊢
  rw [← h.canon]
  split_ifs at hread ⊢ with hfull
  · rfl
  · have htext : ∀ p ∈ buildPotentials (v.canon (o.specOf spec).full) opts.implicitExt,
        o.text v p = o.text v' p := by
      intro p hp
      unfold FileResolverOptions.text
      rw [hread p]
      split <;> exact hp
    rw [firstLoaded_congr htext]

theorem pkgResolver_of_same (h : SamePaths v v') (o : PkgResolverOptions)
    (hread : ∀ p ∈ (pkgResolver v manifest o spec opts).search, v.readFile p = v'.readFile p) :
    pkgResolver v manifest o spec opts = pkgResolver v' manifest o spec opts := by
  unfold pkgResolver at hread ⊢
  dsimp only at hread ⊢
  rw [← h.canon, ← h.start, ← h.ancestors]
  generalize (if o.paths = [] then v.start else o.paths) = roots at hread ⊢
  split_ifs at hread ⊢ with hpath hrelative
  · rfl
  · have htext : ∀ p ∈ buildPotentials (v.canon spec.full) opts.implicitExt,
        v.readFile p = v'.readFile p := by
      intro p hp
      apply hread
      split <;> exact hp
    rw [firstLoaded_congr htext]
  · have hsame : (∀ p ∈ (searchFolders v manifest spec.path opts.implicitExt
        (roots.flatMap (ancestors v)) [] []).2, v.readFile p = v'.readFile p) →
        searchFolders v manifest spec.path opts.implicitExt (roots.flatMap (ancestors v)) [] [] =
          searchFolders v' manifest spec.path opts.implicitExt (roots.flatMap (ancestors v)) []
            [] := by
      rw [searchFolders_of_join h.join]
      exact (lists_searchFolders manifest v spec.path opts.implicitExt _ []).same _ _ []
    rw [← hsame]
    intro p hp
    apply hread
    rcases hr : searchFolders v manifest spec.path opts.implicitExt
        (roots.flatMap (ancestors v)) [] [] with ⟨_ | hit, search⟩ <;>
    · rw [hr] at hp
      exact hp

/-- A resolution looks at what it lists as searched and at nothing else. -/
theorem FsResolver.resolver_of_same (self : FsResolver) (h : SamePaths v v')
    (hread : ∀ p ∈ (self.resolver v spec opts).search, v.readFile p = v'.readFile p) :
    self.resolver v spec opts = self.resolver v' spec opts := by
  cases self with
  | file o => exact fileResolver_of_same h o hread
  | pkg manifest o => exact pkgResolver_of_same h o hread

end Same

section Injected

variable {fs : MapFs} {exts : List Str} {p full : Str}

theorem mem_buildPotentials (h : p ∈ buildPotentials full exts) : p = full ∨ ∃ e ∈ exts,
    p = full ++ e ∨ p = full ++ '/' :: ("index".toList ++ e) ∨
      p = full ++ '/' :: ("index.".toList ++ (afterLast isSep full ++ e)) := by
  unfold buildPotentials at h
  dsimp only at h
  split_ifs at h with hnil hext hbase
  · cases h
  all_goals
    simp only [List.singleton_append, List.append_nil, List.mem_cons, List.mem_append,
      List.mem_map, List.not_mem_nil, or_false] at h
  · rcases h with h | (⟨e, he, rfl⟩ | ⟨e, he, rfl⟩) | ⟨e, he, rfl⟩
    · exact .inl h
    · exact .inr ⟨e, he, .inl rfl⟩
    · exact .inr ⟨e, he, .inr (.inl (by simp))⟩
    · exact .inr ⟨e, he, .inr (.inr (by simp))⟩
  · rcases h with h | ⟨e, he, rfl⟩ | ⟨e, he, rfl⟩
    · exact .inl h
    · exact .inr ⟨e, he, .inl rfl⟩
    · exact .inr ⟨e, he, .inr (.inl (by simp))⟩
  · exact .inl h

/-- A candidate is in normal form, unless it is one of the root's. -/
theorem candidate_io (hext : ∀ e ∈ exts, '/' ∉ e) (h : Candidate (ioView fs) exts p) :
    p ∈ buildPotentials ".".toList exts ∨ ∃ lead parts, Normal lead parts p := by
  obtain ⟨y, hy⟩ : ∃ y, p ∈ buildPotentials (fsClean y) exts := by
    rcases h with ⟨x, h⟩ | ⟨parts, h⟩
    · exact ⟨x, h⟩
    · exact ⟨pathJoin parts, h⟩
  rcases fsClean_normal y with hroot | ⟨lead, parts, hnormal, -⟩
  · exact .inl (hroot ▸ hy)
  · right
    have hbase : '/' ∉ afterLast isSep (fsClean y) := fun h => by
      cases afterLast_not_mem isSep (fsClean y) '/' h
    rcases mem_buildPotentials hy with rfl | ⟨e, he, rfl | rfl | rfl⟩
    · exact ⟨lead, parts, hnormal⟩
    · exact hnormal.ext (hext e he)
    · exact ⟨_, _, hnormal.child (isName_append (by decide) (by decide) (hext e he)
        (.inl (by decide)))⟩
    · refine ⟨_, _, hnormal.child (isName_append (by decide) (by decide) ?_ (.inl (by decide)))⟩
      exact fun h => (List.mem_append.mp h).elim hbase (hext e he)

/-- A path in normal form is read as a file of that name. -/
theorem key_of_read {lead parts : List Str} {src : Str} (h : Normal lead parts p)
    (hread : (ioView fs).readFile p = some src) : fs.files.get p = some src := by
  have hread : (if validPath (fsClean p) then fs.files.get (fsClean p) else none) = some src :=
    hread
  split_ifs at hread
  rwa [h.fsClean_eq] at hread

/-- Over an injected filesystem finitely many sources are found. -/
theorem FsResolver.finite_io (self : FsResolver) (fs : MapFs) (opts : Options)
    (hext : ∀ e ∈ opts.implicitExt, '/' ∉ e) : (self.sources (ioView fs) opts).Finite := by
  have of_read {p src : Str} (hp : Candidate (ioView fs) opts.implicitExt p)
      (hread : (ioView fs).readFile p = some src) :
      p ∈ buildPotentials ".".toList opts.implicitExt ++ fs.files.map Prod.fst := by
    rcases candidate_io hext hp with hroot | ⟨lead, parts, hnormal⟩
    · exact List.mem_append_left _ hroot
    · exact List.mem_append_right _
        (List.mem_map.mpr ⟨_, Entries.get_mem (key_of_read hnormal hread), rfl⟩)
  cases self with
  | file o =>
    refine ⟨(buildPotentials ".".toList opts.implicitExt ++ fs.files.map Prod.fst) ++
      o.preload.map Prod.fst, fun path reference full h => ?_⟩
    obtain ⟨hp, src, ht⟩ := candidate_of_names _ _ _ h
    have ht : (o.preload.get full <|> (ioView fs).readFile full) = some src := ht
    cases hget : o.preload.get full with
    | some text =>
      exact List.mem_append_right _ (List.mem_map.mpr ⟨_, Entries.get_mem hget, rfl⟩)
    | none =>
      rw [hget] at ht
      exact List.mem_append_left _ (of_read hp ht)
  | pkg manifest o =>
    refine ⟨buildPotentials ".".toList opts.implicitExt ++ fs.files.map Prod.fst,
      fun path reference full h => ?_⟩
    obtain ⟨hp, src, ht⟩ := candidate_of_names _ _ _ h
    exact of_read hp ht

end Injected

/-- With the file or the package resolver over an injected filesystem, whatever is preloaded, every
document ends under any metadata, although nothing caps its loads: with a value exactly if it is
sound, the value of its text, and else with an error that says what is wrong by its code. -/
theorem document_over_files_ends (self : FsResolver) (fs : MapFs) (opts : Options)
    (hext : ∀ e ∈ opts.implicitExt, '/' ∉ e) (engine : Engine) (tree : Str → Parse)
    (htree : Textual engine tree) (c : Call) :
    let S := self.sources (ioView fs) opts
    let L := S.library engine tree
    ∃ tr a, (∀ tr' a', Evals (S := sig) (S.body engine) (S.body engine c) tr' a' ↔
        tr' = tr ∧ a' = a) ∧
      ((∃ v, a = .ok v) ↔ L.Sound (metaChain c.parseMeta) (document engine tree c)) ∧
      (∀ v, a = .ok v → L.Ends (document engine tree c) (.ok v)) ∧
      ∀ err, a = .error err →
        ∃ f, Blames L (metaChain c.parseMeta) (document engine tree c) f ∧ Coded f err.code := by
  intro S L
  have hfin := self.finite_io fs opts hext
  obtain ⟨es, o, a, h, -, hall⟩ := evals_document hfin htree c
  have hruns := hall S (.refl _)
  exact ⟨_, a, hruns, (document_loads_iff_sound S hfin engine tree htree c).2 _ _
    ((hruns _ _).mpr ⟨rfl, rfl⟩)⟩

/-- A source that refers to itself. -/
def selfLoop : MapFs := MapFs.ofList [("a.jsonic".toList, "@a".toList)]

/-- The file resolver with nothing preloaded. -/
abbrev plainFiles : FsResolver := .file ⟨none, []⟩

/-- The sources it finds. -/
abbrev loopSources : SourceSet := plainFiles.sources (ioView selfLoop) ⟨[], [".jsonic".toList]⟩

theorem selfLoop_names (path : Option Str) (h : baseAt ⟨[], [".jsonic".toList]⟩ path = []) :
    loopSources.names path "a".toList = some "a.jsonic".toList := by
  have hresolve : loopSources.resolve path "a".toList = fileResolver ⟨none, []⟩ (ioView selfLoop)
      (resolvePathSpec "a".toList []) ⟨[], [".jsonic".toList]⟩ := by
    rw [← h]
    rfl
  rw [SourceSet.names_eq_some, hresolve]
  decide

/-- A document that refers to it ends, with an error. -/
theorem document_over_files_ends_selfLoop : ∃ tr err,
    Evals (S := sig) (loopSources.body aloneEngine)
      (loopSources.body aloneEngine ⟨"@a".toList, []⟩) tr (.error err) := by
  have htree : Textual aloneEngine parseAlone := fun _ _ => rfl
  obtain ⟨tr, a, hruns, hsound, -⟩ := document_over_files_ends plainFiles selfLoop
    ⟨[], [".jsonic".toList]⟩ (by decide) aloneEngine parseAlone htree ⟨"@a".toList, []⟩
  have hrun := (hruns _ _).mpr ⟨rfl, rfl⟩
  cases a with
  | error err => exact ⟨tr, err, hrun⟩
  | ok v =>
    have hs := hsound.mp ⟨v, rfl⟩
    have hself : Library.RefersTo (loopSources.library aloneEngine parseAlone)
        "a.jsonic".toList "a.jsonic".toList :=
      ⟨"a".toList, .here, selfLoop_names (some "a.jsonic".toList) (by decide)⟩
    exact absurd (.single hself) (hs.acyclic _ (.of_refers
      ⟨"a".toList, .here, selfLoop_names none rfl⟩))

/-- The filesystem with a file that nothing refers to. -/
abbrev withNote : MapFs := selfLoop.insert "b.txt".toList []

/-- Wherever the document leads, the text is the one reference. -/
theorem selfLoop_last {trail : List Str}
    (h : (loopSources.library aloneEngine parseAlone).Trail
      (document aloneEngine parseAlone ⟨"@a".toList, []⟩) trail) :
    ∃ path, baseAt ⟨[], [".jsonic".toList]⟩ path = [] ∧
      (loopSources.library aloneEngine parseAlone).last
        (document aloneEngine parseAlone ⟨"@a".toList, []⟩) trail =
          (path, .refer "a".toList fun v => .done (.ok v)) := by
  induction h with
  | nil => exact ⟨none, rfl, rfl⟩
  | @snoc trail k _ hr ih =>
    obtain ⟨path, hbase, hlast⟩ := ih
    obtain ⟨reference, hi, hn⟩ : Library.Refers _ (Library.last _ _ trail) k := hr
    rw [hlast] at hi hn
    cases hi with
    | later _ _ h => cases h
    | here =>
      obtain rfl := Option.some.inj (hn.symm.trans (selfLoop_names path hbase))
      refine ⟨some "a.jsonic".toList, by decide, ?_⟩
      rw [last_concat]
      rfl

end MultiSource.Go
