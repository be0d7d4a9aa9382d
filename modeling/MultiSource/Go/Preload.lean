import MultiSource.Go.Filesystems

/-!
# The preload of the Go port

`PreloadFiles` scans folders and everything below them, with no bound on how deep. What it holds is
what the view reads under the same paths, so a document whose sources it holds needs no files.
-/

namespace MultiSource.Go

open Interaction Inclusion Inclusion.Library

section Scan

variable (v : View) (extensions : List Str) (recursive : Bool)

/-- One entry of a scanned folder. -/
def scanEntry (descend : Str → Entries Str → Option (Entries Str)) (folder : Str)
    (filemap : Entries Str) (e : DirEntry) : Option (Entries Str) :=
  let full := v.join [folder, e.name]
  if e.isDir then
    if recursive then descend full filemap else some filemap
  else if extensions.any fun ext => ext.isSuffixOf e.name then
    match v.readFile full with
    | some src => some (filemap.insert full src)
    | none => some filemap
  else some filemap

/-- Scan a folder. There is no result if folders are inside each other so many deep. -/
def scan : ℕ → Str → Entries Str → Option (Entries Str)
  | 0, _, _ => none
  | n + 1, folder, filemap =>
    match v.readDir folder with
    | none => some filemap
    | some entries => entries.foldlM (scanEntry v extensions recursive (scan n) folder) filemap

end Scan

/-- `PreloadFiles`, by a scan of at most so many folders inside each other. -/
def preloadFiles (n : ℕ) (options : PreloadOptions) (v : View) : Option (Entries Str) :=
  options.folders.foldlM (fun filemap folder =>
    scan v options.extensions options.recursive n (v.canon folder) filemap) []

/-! ## What a preload holds -/

/-- Every text of the map is what the view reads under the same path. -/
def ReadFrom (v : View) (filemap : Entries Str) : Prop :=
  ∀ path src, filemap.get path = some src → v.readFile path = some src

theorem foldlM_invariant {α β : Type} {P : β → Prop} {step : β → α → Option β}
    (hstep : ∀ b a b', P b → step b a = some b' → P b') (items : List α) {b b' : β} (hb : P b)
    (h : items.foldlM step b = some b') : P b' := by
  induction items generalizing b with
  | nil =>
    obtain rfl := Option.some.inj h
    exact hb
  | cons a items ih =>
    rw [List.foldlM_cons] at h
    obtain ⟨mid, hmid, hrest⟩ := Option.bind_eq_some_iff.mp h
    exact ih (hstep b a mid hb hmid) hrest

section ReadFrom

variable {v : View} {extensions : List Str} {recursive : Bool} {filemap filemap' : Entries Str}

theorem ReadFrom.scanEntry {descend : Str → Entries Str → Option (Entries Str)}
    (hd : ∀ folder m m', ReadFrom v m → descend folder m = some m' → ReadFrom v m')
    (folder : Str) (e : DirEntry) (h : ReadFrom v filemap)
    (hs : Go.scanEntry v extensions recursive descend folder filemap e = some filemap') :
    ReadFrom v filemap' := by
  unfold Go.scanEntry at hs
  dsimp only at hs
  split_ifs at hs with hdir hrec hext
  · exact hd _ _ _ h hs
  · exact Option.some.inj hs ▸ h
  · cases hread : v.readFile (v.join [folder, e.name]) with
    | none =>
      rw [hread] at hs
      exact Option.some.inj hs ▸ h
    | some src =>
      rw [hread] at hs
      obtain rfl := Option.some.inj hs
      intro path text hget
      rw [Entries.get_insert] at hget
      split_ifs at hget with hpath
      · obtain rfl := Option.some.inj hget
        exact hpath ▸ hread
      · exact h path text hget
  · exact Option.some.inj hs ▸ h

theorem ReadFrom.scan (n : ℕ) : ∀ folder filemap filemap', ReadFrom v filemap →
    Go.scan v extensions recursive n folder filemap = some filemap' → ReadFrom v filemap' := by
  induction n with
  | zero =>
    intro folder filemap filemap' _ hs
    cases hs
  | succ n ih =>
    intro folder filemap filemap' h hs
    rw [Go.scan] at hs
    cases hread : v.readDir folder with
    | none =>
      rw [hread] at hs
      exact Option.some.inj hs ▸ h
    | some entries =>
      rw [hread] at hs
      exact foldlM_invariant (fun m e m' hm he => hm.scanEntry ih folder e he) entries h hs

theorem readFrom_preload {n : ℕ} {options : PreloadOptions}
    (h : preloadFiles n options v = some filemap) : ReadFrom v filemap :=
  foldlM_invariant (fun m folder m' hm hs => ReadFrom.scan n _ m m' hm hs) options.folders
    (fun _ _ hget => by cases hget) h

end ReadFrom

/-! ## Documents with the files gone -/

/-- A search that can only find less finds the same, if it finds that. -/
theorem firstLoaded_of_sub {load load' : Str → Option Str} {candidates : List Str}
    (hsub : ∀ p src, load' p = some src → load p = some src)
    (hhit : ∀ p src, firstLoaded load candidates = some (p, src) → (load' p).isSome = true) :
    firstLoaded load' candidates = firstLoaded load candidates := by
  induction candidates with
  | nil => rfl
  | cons d candidates ih =>
    rw [firstLoaded] at hhit
    rw [firstLoaded, firstLoaded]
    cases hd : load d with
    | none =>
      rw [hd] at hhit
      have hd' : load' d = none := by
        by_contra hne
        obtain ⟨src, hsrc⟩ := Option.ne_none_iff_exists'.mp hne
        cases hd.symm.trans (hsub d src hsrc)
      rw [hd']
      exact ih hhit
    | some src =>
      rw [hd] at hhit
      obtain ⟨src', hsrc'⟩ := Option.isSome_iff_exists.mp (hhit d src rfl)
      obtain rfl := Option.some.inj ((hsub d src' hsrc').symm.trans hd)
      rw [hsrc']

variable {v v' : View} {preload : Entries Str} {pathFinder : Option (Str → Str)} {opts : Options}

/-- What is in memory or still there is what was read. -/
theorem text_of_gone (hread : ReadFrom v preload)
    (hgone : ∀ p src, v'.readFile p = some src → v.readFile p = some src) {p src : Str}
    (h : (FileResolverOptions.mk pathFinder preload).text v' p = some src) :
    v.readFile p = some src := by
  have h : (preload.get p <|> v'.readFile p) = some src := h
  cases hget : preload.get p with
  | none =>
    rw [hget] at h
    exact hgone p src h
  | some text =>
    rw [hget] at h
    obtain rfl := Option.some.inj h
    exact hread p text hget

/-- A resolution with what was read in memory, where files may have gone since: the same, if what it
found is in memory or still there. -/
theorem fileResolver_preloaded (hpaths : SamePaths v v') (hread : ReadFrom v preload)
    (hgone : ∀ p src, v'.readFile p = some src → v.readFile p = some src) {spec : PathSpec}
    (h : (fileResolver ⟨pathFinder, []⟩ v spec opts).found = true →
      ((FileResolverOptions.mk pathFinder preload).text v'
        (fileResolver ⟨pathFinder, []⟩ v spec opts).full).isSome = true) :
    fileResolver ⟨pathFinder, preload⟩ v' spec opts =
      fileResolver ⟨pathFinder, []⟩ v spec opts := by
  have hspec : (FileResolverOptions.mk pathFinder preload).specOf spec =
      (FileResolverOptions.mk pathFinder []).specOf spec := rfl
  have hplain : (FileResolverOptions.mk pathFinder []).text v = v.readFile := rfl
  unfold fileResolver at h ⊢
  dsimp only at h ⊢
  rw [hspec, ← hpaths.canon]
  split_ifs at h ⊢ with hfull
  · rfl
  · rw [hplain] at h ⊢
    rw [firstLoaded_of_sub fun p src => text_of_gone hread hgone]
    intro p src hl
    rw [hl] at h
    exact h rfl

/-- A scan of everything. -/
abbrev scanAll : PreloadOptions := ⟨[".".toList], [], true⟩

end MultiSource.Go
