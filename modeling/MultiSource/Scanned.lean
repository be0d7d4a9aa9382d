import MultiSource.Listing

/-!
# What a scan finds

A scan of a folder adds the files with few enough segments more than the folder, and a scan of
several adds what each of them does.
-/

namespace MultiSource

open Segments

/-! ## What a scan adds -/

/-- `f` writes the files in `S` into a map, and nothing else. -/
def Adds (fs : MapFs) (S : Str → Prop) (f : Entries Str → Entries Str) : Prop :=
  ∀ filemap path, (S path → (f filemap).get path = fs.files.get path) ∧
    (¬ S path → (f filemap).get path = filemap.get path)

section Adds

variable {fs : MapFs} {S T : Str → Prop} {f : Entries Str → Entries Str}

theorem Adds.congr (h : Adds fs S f) (hST : ∀ path, S path ↔ T path) : Adds fs T f := by
  intro filemap path
  rw [← hST]
  exact h filemap path

theorem adds_nothing (fs : MapFs) : Adds fs (fun _ => False) id :=
  fun _ _ => ⟨fun h => h.elim, fun _ => rfl⟩

theorem adds_insert {key src : Str} (h : fs.files.get key = some src) :
    Adds fs (fun path => path = key) (fun filemap => filemap.insert key src) := by
  intro filemap path
  dsimp only
  rw [Entries.get_insert]
  constructor
  · rintro rfl
    rw [if_pos rfl, h]
  · intro hne
    exact if_neg (Ne.symm hne)

/-- A loop adds what its steps add. -/
theorem Adds.foldl {β : Type} {items : List β} {step : Entries Str → β → Entries Str}
    {S : β → Str → Prop}
    (h : ∀ item ∈ items, Adds fs (S item) (fun filemap => step filemap item)) :
    Adds fs (fun path => ∃ item ∈ items, S item path)
      (fun filemap => items.foldl step filemap) := by
  induction items with
  | nil =>
    intro filemap path
    refine ⟨?_, fun _ => rfl⟩
    rintro ⟨item, hm, -⟩
    exact absurd hm List.not_mem_nil
  | cons item items ih =>
    intro filemap path
    obtain ⟨hin, hout⟩ := ih (fun i hi => h i (List.mem_cons_of_mem _ hi)) (step filemap item) path
    obtain ⟨hin', hout'⟩ := h item List.mem_cons_self filemap path
    by_cases hrest : ∃ i ∈ items, S i path
    · obtain ⟨i, hi, hS⟩ := hrest
      exact ⟨fun _ => hin ⟨i, hi, hS⟩, fun hn => absurd ⟨i, List.mem_cons_of_mem _ hi, hS⟩ hn⟩
    · have hstep := hout hrest
      constructor
      · rintro ⟨i, hi, hS⟩
        rcases List.mem_cons.mp hi with rfl | hi
        · exact hstep.trans (hin' hS)
        · exact absurd ⟨i, hi, hS⟩ hrest
      · intro hn
        exact hstep.trans (hout' fun hS => hn ⟨item, List.mem_cons_self, hS⟩)

end Adds

/-- A file fewer than `levels` folders below `folder`, with one of the extensions. -/
def InReach (fs : MapFs) (extensions : List Str) (recursive : Bool) (levels : ℕ) (folder : List Str)
    (path : Str) : Prop :=
  (fs.files.get path).isSome = true ∧ ∃ mid n, path.splitOn '/' = folder ++ (mid ++ [n]) ∧
    mid.length < levels ∧ (mid = [] ∨ recursive = true) ∧ ∃ ext ∈ extensions, ext <:+ n

section Scan

variable {fs : MapFs} {extensions : List Str} {recursive : Bool} {folder : List Str}

/-- A name in a folder is a segment, unless it is the root's. -/
theorem isSegment_of_listed {key n : Str} {more : List Str} (hkey : clean key = key)
    (h : key.splitOn '/' = folder ++ n :: more) :
    IsSegment n ∨ folder = [] ∧ n = ".".toList ∧ more = [] := by
  rcases splitOn_key hkey with ⟨rfl, -⟩ | ⟨-, he⟩
  · right
    rw [show ".".toList.splitOn '/' = [".".toList] from rfl, eq_comm, List.append_eq_singleton_iff]
      at h
    rcases h with ⟨hf, hn⟩ | ⟨-, hn⟩
    · exact ⟨hf, (List.cons.inj hn).1, (List.cons.inj hn).2⟩
    · cases hn
  · left
    have hmem : n ∈ cleanSegments key := by
      rw [← he, h]
      simp
    exact isSegment_of_mem_clean hmem

theorem join_segment {n : Str} (hf : ∀ s ∈ folder, IsSegment s) (hn : IsSegment n) :
    MapFs.join [spell folder, n] = spell (folder ++ [n]) := by
  have hpush :
      ((unified n).splitOn '/').foldl (push OsPath.blank isUp) folder = folder ++ [n] := by
    rw [unified_of_not_mem hn.2.2, List.splitOn_eq_singleton hn.2.1, List.foldl_cons,
      List.foldl_nil, push_of_plain hn.1]
  unfold MapFs.join clean
  rw [joined_pair, cleanSegments_append, cleanSegments_spell hf, hpush]

/-- The path of a file in a folder is the folder's joined with the name. -/
theorem join_file {key n : Str} (hf : ∀ s ∈ folder, IsSegment s) (hkey : clean key = key)
    (h : key.splitOn '/' = folder ++ [n]) : MapFs.join [spell folder, n] = key := by
  rcases isSegment_of_listed hkey h with hn | ⟨rfl, rfl, -⟩
  · rw [join_segment hf hn, spell, if_neg (by simp), ← h, joined_splitOn]
  · rw [List.nil_append] at h
    rw [← joined_splitOn '/' key, h]
    rfl

/-- What one entry of a folder adds. -/
def EntryInReach (fs : MapFs) (extensions : List Str) (recursive : Bool) (levels : ℕ)
    (folder : List Str) (entry : DirEntry) (path : Str) : Prop :=
  if entry.isDir then
    recursive = true ∧ InReach fs extensions recursive levels (folder ++ [entry.name]) path
  else
    (fs.files.get path).isSome = true ∧ path.splitOn '/' = folder ++ [entry.name] ∧
      ∃ ext ∈ extensions, ext <:+ entry.name

theorem scanEntry_file_adds {descend : Str → Entries Str → Entries Str}
    (hf : ∀ s ∈ folder, IsSegment s) {key n : Str} (hkey : (fs.files.get key).isSome = true)
    (hsplit : key.splitOn '/' = folder ++ [n]) (levels : ℕ) :
    Adds fs (EntryInReach fs extensions recursive levels folder ⟨n, false⟩)
      (fun filemap => scanEntry fs.toDirFs extensions recursive descend (spell folder) filemap
        ⟨n, false⟩) := by
  have hclean := clean_of_file hkey
  have hfull : fs.toDirFs.join [spell folder, n] = key := join_file hf hclean hsplit
  obtain ⟨src, hsrc⟩ := Option.isSome_iff_exists.mp hkey
  have hread : fs.toDirFs.readFile key = some src := by
    show fs.files.get (clean key) = some src
    rw [hclean, hsrc]
  by_cases hext : ∃ ext ∈ extensions, ext <:+ n
  · have hany : (extensions.any fun ext => ext.isSuffixOf n) = true := by
      simpa [List.any_eq_true] using hext
    have hstep : (fun filemap => scanEntry fs.toDirFs extensions recursive descend (spell folder)
        filemap ⟨n, false⟩) = fun filemap => filemap.insert key src := by
      funext filemap
      simp [scanEntry, hfull, hany, hread]
    rw [hstep]
    apply (adds_insert hsrc).congr
    intro path
    constructor
    · rintro rfl
      exact ⟨hkey, hsplit, hext⟩
    · rintro ⟨-, hpath, -⟩
      exact splitOn_inj (hpath.trans hsplit.symm)
  · have hany : (extensions.any fun ext => ext.isSuffixOf n) = false := by
      rw [Bool.eq_false_iff]
      simpa [List.any_eq_true] using hext
    have hstep : (fun filemap => scanEntry fs.toDirFs extensions recursive descend (spell folder)
        filemap ⟨n, false⟩) = id := by
      funext filemap
      simp [scanEntry, hany]
    rw [hstep]
    apply (adds_nothing fs).congr
    intro path
    exact iff_of_false id fun h => hext h.2.2

theorem scanEntry_dir_adds {levels : ℕ} {descend : Str → Entries Str → Entries Str}
    (hf : ∀ s ∈ folder, IsSegment s) {n : Str} (hn : IsSegment n)
    (hdescend : Adds fs (InReach fs extensions recursive levels (folder ++ [n]))
      (descend (spell (folder ++ [n])))) :
    Adds fs (EntryInReach fs extensions recursive levels folder ⟨n, true⟩)
      (fun filemap => scanEntry fs.toDirFs extensions recursive descend (spell folder) filemap
        ⟨n, true⟩) := by
  have hfull : fs.toDirFs.join [spell folder, n] = spell (folder ++ [n]) := join_segment hf hn
  cases recursive with
  | true =>
    have hstep : (fun filemap => scanEntry fs.toDirFs extensions true descend (spell folder)
        filemap ⟨n, true⟩) = descend (spell (folder ++ [n])) := by
      funext filemap
      simp [scanEntry, hfull]
    rw [hstep]
    apply hdescend.congr
    intro path
    simp [EntryInReach]
  | false =>
    have hstep : (fun filemap => scanEntry fs.toDirFs extensions false descend (spell folder)
        filemap ⟨n, true⟩) = id := by
      funext filemap
      simp [scanEntry]
    rw [hstep]
    apply (adds_nothing fs).congr
    intro path
    simp [EntryInReach]

theorem scanEntry_adds {levels : ℕ} {descend : Str → Entries Str → Entries Str}
    (hleaves : FilesAreLeaves fs) (hf : ∀ s ∈ folder, IsSegment s)
    (hdescend : ∀ sub : List Str, (∀ s ∈ sub, IsSegment s) →
      Adds fs (InReach fs extensions recursive levels sub) (descend (spell sub)))
    {entry : DirEntry} (hmem : entry ∈ fs.listed (spell folder)) :
    Adds fs (EntryInReach fs extensions recursive levels folder entry)
      (fun filemap => scanEntry fs.toDirFs extensions recursive descend (spell folder) filemap
        entry) := by
  obtain ⟨n, isDir⟩ := entry
  obtain ⟨key, hkey, more, hmore, rfl⟩ := (mem_listed hleaves hf n isDir).mp hmem
  by_cases hm : more = []
  · subst hm
    exact scanEntry_file_adds hf hkey hmore levels
  · have hn : IsSegment n :=
      (isSegment_of_listed (clean_of_file hkey) hmore).resolve_right fun h => hm h.2.2
    have hsub : ∀ s ∈ folder ++ [n], IsSegment s := by
      intro s hs
      rcases List.mem_append.mp hs with hs | hs
      · exact hf s hs
      · rw [List.mem_singleton.mp hs]
        exact hn
    rw [decide_eq_true hm]
    exact scanEntry_dir_adds hf hn (hdescend _ hsub)

/-- Every file below a folder is below one of its entries. -/
theorem below_succ_iff (hleaves : FilesAreLeaves fs) (hf : ∀ s ∈ folder, IsSegment s) (levels : ℕ)
    (path : Str) :
    (∃ entry ∈ fs.listed (spell folder),
      EntryInReach fs extensions recursive levels folder entry path) ↔
        InReach fs extensions recursive (levels + 1) folder path := by
  constructor
  · rintro ⟨⟨n, isDir⟩, -, h⟩
    cases isDir with
    | false =>
      simp only [EntryInReach, Bool.false_eq_true, if_false] at h
      obtain ⟨hfile, hsplit, hext⟩ := h
      exact ⟨hfile, [], n, hsplit, Nat.succ_pos _, .inl rfl, hext⟩
    | true =>
      simp only [EntryInReach, if_true] at h
      obtain ⟨hr, hfile, mid, m, hsplit, hlen, -, hext⟩ := h
      refine ⟨hfile, n :: mid, m, ?_, Nat.succ_lt_succ hlen, .inr hr, hext⟩
      rw [hsplit, List.append_assoc]
      rfl
  · rintro ⟨hfile, mid, n, hsplit, hlen, hr, hext⟩
    cases mid with
    | nil =>
      refine ⟨⟨n, false⟩, (mem_listed hleaves hf n false).mpr ⟨path, hfile, [], hsplit, rfl⟩, ?_⟩
      simp only [EntryInReach, Bool.false_eq_true, if_false]
      exact ⟨hfile, hsplit, hext⟩
    | cons m mid =>
      have hr := hr.resolve_left (List.cons_ne_nil _ _)
      refine ⟨⟨m, true⟩, (mem_listed hleaves hf m true).mpr
        ⟨path, hfile, mid ++ [n], hsplit, (decide_eq_true (by simp)).symm⟩, ?_⟩
      simp only [EntryInReach, if_true]
      refine ⟨hr, hfile, mid, n, ?_, Nat.lt_of_succ_lt_succ hlen, .inr hr, hext⟩
      rw [hsplit, List.append_assoc]
      rfl

/-- A scan adds the files fewer folders below than it has levels. -/
theorem scan_adds (hleaves : FilesAreLeaves fs) (levels : ℕ) :
    ∀ folder : List Str, (∀ s ∈ folder, IsSegment s) →
      Adds fs (InReach fs extensions recursive levels folder)
        (scan fs.toDirFs extensions recursive levels (spell folder)) := by
  induction levels with
  | zero =>
    intro folder _
    apply (adds_nothing fs).congr
    intro path
    apply iff_of_false id
    rintro ⟨-, mid, n, -, hlen, -⟩
    exact Nat.not_lt_zero _ hlen
  | succ levels ih =>
    intro folder hf
    have hscan : scan fs.toDirFs extensions recursive (levels + 1) (spell folder) = fun filemap =>
        (fs.listed (spell folder)).foldl (scanEntry fs.toDirFs extensions recursive
          (scan fs.toDirFs extensions recursive levels) (spell folder)) filemap := by
      funext filemap
      have hread : fs.toDirFs.readDir (spell folder) = fs.readDir (spell folder) := rfl
      rw [scan, MapFs.listed, hread]
      cases fs.readDir (spell folder) <;> rfl
    rw [hscan]
    apply (Adds.foldl fun entry hmem => scanEntry_adds hleaves hf ih hmem).congr
    exact below_succ_iff hleaves hf levels

end Scan

/-! ## Folders above a file -/

theorem iterate_dir (path : Str) (k : ℕ) : MapFs.dir^[k + 1] path =
    spell ((cleanSegments path).take ((cleanSegments path).length - (k + 1))) := by
  induction k with
  | zero => rw [Function.iterate_one, MapFs.dir_eq, List.dropLast_eq_take]
  | succ k ih =>
    have hseg : ∀ s ∈ (cleanSegments path).take ((cleanSegments path).length - (k + 1)),
        IsSegment s := fun s hs => isSegment_of_mem_clean (List.mem_of_mem_take hs)
    rw [Function.iterate_succ_apply', ih, MapFs.dir_eq, cleanSegments_spell hseg,
      List.dropLast_eq_take, List.take_take, List.length_take]
    congr 2
    omega

/-- The folders above a file, by the segments of its path. -/
theorem iterate_dir_key {path : Str} (h : clean path = path) (k : ℕ) {folder : List Str}
    (hf : ∀ s ∈ folder, IsSegment s) : MapFs.dir^[k + 1] path = spell folder ↔
      (path.splitOn '/').take ((path.splitOn '/').length - (k + 1)) = folder := by
  have htake : (path.splitOn '/').take ((path.splitOn '/').length - (k + 1)) =
      (cleanSegments path).take ((cleanSegments path).length - (k + 1)) := by
    rcases splitOn_key h with ⟨rfl, he⟩ | ⟨-, he⟩
    · rw [he, show ".".toList.splitOn '/' = [".".toList] from rfl]
      simp
    · rw [he]
  rw [iterate_dir, htake]
  constructor
  · intro he
    rw [← cleanSegments_spell hf, ← he, cleanSegments_spell]
    exact fun s hs => isSegment_of_mem_clean (List.mem_of_mem_take hs)
  · intro he
    rw [he]

theorem exists_take_iff {parts folder : List Str} (hne : parts ≠ []) (most : ℕ) :
    (∃ k ≤ most, parts.take (parts.length - (k + 1)) = folder) ↔
      ∃ mid n, parts = folder ++ (mid ++ [n]) ∧ mid.length ≤ most := by
  constructor
  · rintro ⟨k, hk, rfl⟩
    obtain ⟨mid, n, hmid⟩ : ∃ mid n, parts.drop (parts.length - (k + 1)) = mid ++ [n] := by
      have hdrop : parts.drop (parts.length - (k + 1)) ≠ [] := by
        have := List.length_pos_of_ne_nil hne
        rw [Ne, List.drop_eq_nil_iff]
        omega
      exact ⟨_, _, (List.dropLast_append_getLast hdrop).symm⟩
    refine ⟨mid, n, by rw [← hmid, List.take_append_drop], ?_⟩
    have hlen := congrArg List.length hmid
    rw [List.length_drop, List.length_append, List.length_singleton] at hlen
    omega
  · rintro ⟨mid, n, rfl, hlen⟩
    refine ⟨mid.length, hlen, ?_⟩
    rw [List.length_append, List.length_append, List.length_singleton, Nat.add_sub_cancel]
    exact List.take_left

theorem afterLast_of_splitOn {path n : Str} {init : List Str}
    (h : path.splitOn '/' = init ++ [n]) : afterLast (· = '/') path = n := by
  have hn : ∀ c ∈ n, decide (c = '/') = false := by
    intro c hc
    apply decide_eq_false
    rintro rfl
    exact not_mem_of_mem_splitOn (h ▸ List.mem_append_right _ (List.mem_singleton_self n)) hc
  rw [← joined_splitOn '/' path, h]
  by_cases hi : init = []
  · rw [hi, List.nil_append, joined_singleton, afterLast_of_forall hn]
  · rw [joined_append hi (List.cons_ne_nil _ _), joined_singleton]
    exact afterLast_append_cons rfl hn

/-- The files a scan promises: one of the extensions ends the name, and one of the folders is the
file's, or in a recursive scan at most 64 folders above the file's. -/
def Wanted (options : PreloadOptions) (path : Str) : Prop :=
  (∃ ext ∈ options.extensions, ext <:+ afterLast (· = '/') path) ∧
    ∃ folder ∈ options.folders, ∃ k ≤ if options.recursive then 64 else 0,
      MapFs.dir^[k + 1] path = clean folder

theorem below_iff_wanted {fs : MapFs} (options : PreloadOptions) {path : Str}
    (hfile : (fs.files.get path).isSome = true) :
    (∃ folder ∈ options.folders, InReach fs options.extensions options.recursive
      (MAX_SCAN_DEPTH + 1) (cleanSegments folder) path) ↔ Wanted options path := by
  have hdepth : ∀ mid : List Str, mid.length < MAX_SCAN_DEPTH + 1 ∧
      (mid = [] ∨ options.recursive = true) ↔
        mid.length ≤ if options.recursive then 64 else 0 := by
    intro mid
    rw [← List.length_eq_zero_iff, MAX_SCAN_DEPTH]
    cases options.recursive with
    | true => simp [Nat.lt_succ_iff]
    | false =>
      simp only [Bool.false_eq_true, or_false, if_false]
      omega
  have hfolder : ∀ folder : Str,
      (∃ k ≤ if options.recursive then 64 else 0, MapFs.dir^[k + 1] path = clean folder) ↔
        ∃ mid n, path.splitOn '/' = cleanSegments folder ++ (mid ++ [n]) ∧
          mid.length ≤ if options.recursive then 64 else 0 := by
    intro folder
    rw [← exists_take_iff (List.splitOn_ne_nil '/' path)]
    apply exists_congr
    intro k
    rw [clean, iterate_dir_key (clean_of_file hfile) k fun s hs => isSegment_of_mem_clean hs]
  unfold Wanted
  constructor
  · rintro ⟨folder, hmem, -, mid, n, hsplit, hlen, hr, hext⟩
    refine ⟨?_, folder, hmem, (hfolder folder).mpr ⟨mid, n, hsplit, (hdepth mid).mp ⟨hlen, hr⟩⟩⟩
    rw [← List.append_assoc] at hsplit
    rwa [afterLast_of_splitOn hsplit]
  · rintro ⟨hext, folder, hmem, hk⟩
    obtain ⟨mid, n, hsplit, hlen⟩ := (hfolder folder).mp hk
    obtain ⟨hlen, hr⟩ := (hdepth mid).mpr hlen
    refine ⟨folder, hmem, hfile, mid, n, hsplit, hlen, hr, ?_⟩
    rw [← List.append_assoc] at hsplit
    rwa [afterLast_of_splitOn hsplit] at hext

theorem get_preload (options : PreloadOptions) {fs : MapFs} (h : FilesAreLeaves fs)
    (path src : Str) : (preloadFilesWith options fs.toDirFs).get path = some src ↔
      fs.files.get path = some src ∧ Wanted options path := by
  have hfolder : ∀ folder ∈ options.folders, Adds fs
      (InReach fs options.extensions options.recursive (MAX_SCAN_DEPTH + 1) (cleanSegments folder))
      (fun filemap => scan fs.toDirFs options.extensions options.recursive (MAX_SCAN_DEPTH + 1)
        (fs.toDirFs.canon folder) filemap) := by
    intro folder _
    exact scan_adds h (MAX_SCAN_DEPTH + 1) (cleanSegments folder)
      fun s hs => isSegment_of_mem_clean hs
  obtain ⟨hin, hout⟩ := Adds.foldl hfolder [] path
  by_cases hb : ∃ folder ∈ options.folders, InReach fs options.extensions options.recursive
      (MAX_SCAN_DEPTH + 1) (cleanSegments folder) path
  · have hget := hin hb
    obtain ⟨folder, hmem, hfile, hrest⟩ := hb
    rw [preloadFilesWith, hget, and_iff_left]
    exact (below_iff_wanted options hfile).mp ⟨folder, hmem, hfile, hrest⟩
  · rw [preloadFilesWith, hout hb]
    apply iff_of_false (by simp)
    rintro ⟨hget, hwanted⟩
    apply hb
    apply (below_iff_wanted options _).mpr hwanted
    rw [hget]
    rfl

/-- **A preload finds what it promises.** It holds the wanted files under their canonical paths with
their own texts, and nothing else; the folders may stand in any order and spelling, and repeat. -/
theorem preload_finds_exactly (options : PreloadOptions) (fs : MapFs) (h : FilesAreLeaves fs) :
    (∀ path src, (preloadFilesWith options fs.toDirFs).get path = some src ↔
      clean path = path ∧ fs.readFile path = some src ∧ Wanted options path) ∧
    ∀ folders : List Str,
      (∀ folder, folder ∈ folders.map clean ↔ folder ∈ options.folders.map clean) →
      ∀ path, (preloadFilesWith { options with folders } fs.toDirFs).get path =
        (preloadFilesWith options fs.toDirFs).get path := by
  constructor
  · intro path src
    rw [get_preload options h]
    constructor
    · rintro ⟨hget, hwanted⟩
      have hclean : clean path = path := fs.clean_key _ (Entries.get_mem hget)
      refine ⟨hclean, ?_, hwanted⟩
      rw [MapFs.readFile, hclean, hget]
    · rintro ⟨hclean, hread, hwanted⟩
      rw [MapFs.readFile, hclean] at hread
      exact ⟨hread, hwanted⟩
  · intro folders hsame path
    apply Option.ext
    intro src
    rw [get_preload _ h, get_preload _ h]
    apply and_congr_right
    intro _
    unfold Wanted
    apply and_congr_right
    intro _
    have hmap : ∀ names : List Str,
        (∃ folder ∈ names, ∃ k ≤ if options.recursive then 64 else 0,
          MapFs.dir^[k + 1] path = clean folder) ↔
        ∃ folder ∈ names.map clean, ∃ k ≤ if options.recursive then 64 else 0,
          MapFs.dir^[k + 1] path = folder := by
      intro names
      constructor
      · rintro ⟨folder, hmem, hk⟩
        exact ⟨clean folder, List.mem_map_of_mem hmem, hk⟩
      · rintro ⟨_, hmem, hk⟩
        obtain ⟨folder, hfolder, rfl⟩ := List.mem_map.mp hmem
        exact ⟨folder, hfolder, hk⟩
    rw [hmap, hmap]
    apply exists_congr
    intro folder
    rw [hsame]

/-- Nested, repeated and respelt folders over siblings that share a prefix. -/
theorem preload_finds_exactly_nested :
    (preloadFilesWith ⟨["./t/".toList, "t/f".toList, "t".toList], ["json".toList], true⟩
      (MapFs.ofList [("t/a.json".toList, "1".toList), ("t/f/b.json".toList, "2".toList),
        ("tt/c.json".toList, "3".toList)]).toDirFs).get "t/f/b.json".toList =
      some "2".toList := by
  have hleaves : FilesAreLeaves (MapFs.ofList [("t/a.json".toList, "1".toList),
      ("t/f/b.json".toList, "2".toList), ("tt/c.json".toList, "3".toList)]) :=
    filesAreLeaves_of_keys (by decide)
  apply ((preload_finds_exactly _ _ hleaves).1 _ _).mpr
  refine ⟨by decide, by decide, ⟨".json".toList, by decide, by decide⟩, "t".toList, by decide,
    1, by decide, by decide⟩

end MultiSource
