import Mathlib.Data.List.TakeWhile
import MultiSource.Preload

/-!
# What a folder lists

A folder of an in-memory filesystem is the common beginning of some keys. Where no file is a folder
of another, it lists the next segment of each, as a file where the key ends there.
-/

namespace MultiSource

open Segments

/-! ## Maps in order -/

namespace Entries

variable {α : Type} {key : Str} {value : α} {es : Entries α} {e : Str × α}

theorem mem_place (h : e ∈ place key value es) : e = (key, value) ∨ e ∈ es := by
  induction es with
  | nil => exact .inl (List.mem_singleton.mp h)
  | cons d es ih =>
    rw [place] at h
    split_ifs at h with hk hlt
    · rcases List.mem_cons.mp h with h | h
      · rw [h, hk]
        exact .inl rfl
      · exact .inr (List.mem_cons_of_mem _ h)
    · exact List.mem_cons.mp h
    · rcases List.mem_cons.mp h with rfl | h
      · exact .inr List.mem_cons_self
      · exact (ih h).imp_right (List.mem_cons_of_mem _)

theorem get_place (key key' : Str) (value : α) (es : Entries α) :
    get key (place key' value es) = if key' = key then some value else get key es := by
  induction es with
  | nil => rfl
  | cons d es ih =>
    obtain ⟨k, v⟩ := d
    rw [place]
    by_cases hk : k = key'
    · subst hk
      rw [if_pos rfl]
      by_cases he : k = key
      · rw [if_pos he]
        exact if_pos he
      · rw [if_neg he, get_cons_of_ne he, get_cons_of_ne he]
    · rw [if_neg hk]
      by_cases hlt : key' < k
      · rw [if_pos hlt]
        rfl
      · rw [if_neg hlt, get, get, ih]
        by_cases he : key' = key
        · rw [if_pos he, if_pos he, if_neg fun h => hk (h.trans he.symm)]
        · rw [if_neg he, if_neg he]

theorem mem_inOrder (h : e ∈ inOrder es) : e ∈ es := by
  induction es with
  | nil => exact h
  | cons d es ih =>
    rcases mem_place h with rfl | h
    · exact List.mem_cons_self
    · exact List.mem_cons_of_mem _ (ih h)

@[simp] theorem get_inOrder (key : Str) (es : Entries α) : get key (inOrder es) = get key es := by
  induction es with
  | nil => rfl
  | cons d es ih =>
    obtain ⟨k, v⟩ := d
    show get key (place k v (inOrder es)) = _
    rw [get_place, ih]
    rfl

theorem mem_keys_inOrder : key ∈ (inOrder es).map Prod.fst ↔ (get key es).isSome = true := by
  rw [← get_inOrder, Option.isSome_iff_ne_none, Ne, get_eq_none, not_not]

end Entries

/-! ## Keys by segments -/

section Keys

variable {key : Str} {folder more : List Str} {n : Str}

theorem spell_eq_dot {parts : List Str} (h : ∀ s ∈ parts, IsSegment s) :
    spell parts = ".".toList ↔ parts = [] := by
  constructor
  · intro he
    rw [← cleanSegments_spell h, he]
    rfl
  · rintro rfl
    rfl

/-- The segments of a key, or `.` alone. -/
theorem splitOn_key (h : clean key = key) :
    key = ".".toList ∧ cleanSegments key = [] ∨
      cleanSegments key ≠ [] ∧ key.splitOn '/' = cleanSegments key := by
  by_cases hc : cleanSegments key = []
  · left
    refine ⟨?_, hc⟩
    rw [← h, clean, hc]
    rfl
  · right
    refine ⟨hc, ?_⟩
    conv_lhs => rw [← h, clean, spell, if_neg hc]
    exact splitOn_joined (fun s hs => (isSegment_of_mem_clean hs).2.1) hc

theorem splitOn_inj {p q : Str} (h : p.splitOn '/' = q.splitOn '/') : p = q := by
  rw [← joined_splitOn '/' p, h, joined_splitOn]

/-- The keys of a folder start with this. -/
theorem dropPrefix?_iff {rest : Str} (hf : ∀ s ∈ folder, IsSegment s) :
    key.dropPrefix? (if spell folder = ".".toList then [] else spell folder ++ ['/']) = some rest ↔
      key.splitOn '/' = folder ++ rest.splitOn '/' := by
  rw [List.dropPrefix?_eq_some_iff]
  simp only [beq_iff_eq, exists_eq_right]
  by_cases hd : folder = []
  · rw [if_pos ((spell_eq_dot hf).mpr hd), hd]
    exact ⟨fun h => by rw [h]; rfl, fun h => splitOn_inj h⟩
  · have hsplit : ∀ rest : Str, (spell folder ++ ['/'] ++ rest).splitOn '/' =
        folder ++ rest.splitOn '/' := by
      intro rest
      rw [List.append_assoc, List.singleton_append, List.splitOn_append_cons_self, spell,
        if_neg hd, splitOn_joined (fun s hs => (hf s hs).2.1) hd]
    rw [if_neg (mt (spell_eq_dot hf).mp hd), ← hsplit]
    exact ⟨fun h => by rw [h], fun h => splitOn_inj h⟩

theorem takeWhile_splitOn {rest : Str} (h : rest.splitOn '/' = n :: more) :
    rest.takeWhile (fun c => c ≠ '/') = n ∧ ('/' ∈ rest ↔ more ≠ []) := by
  have hn : '/' ∉ n := not_mem_of_mem_splitOn (h ▸ List.mem_cons_self)
  have hp : ∀ c ∈ n, decide (c ≠ '/') = true := by
    intro c hc
    apply decide_eq_true
    rintro rfl
    exact hn hc
  have hrest : rest = joined '/' (n :: more) := by rw [← h, joined_splitOn]
  cases more with
  | nil =>
    rw [joined_singleton] at hrest
    subst hrest
    exact ⟨List.takeWhile_eq_self_iff.mpr hp, iff_of_false hn (fun h => h rfl)⟩
  | cons m more =>
    have hjoin : rest = n ++ '/' :: joined '/' (m :: more) := by
      rw [hrest, ← List.singleton_append, joined_append (List.cons_ne_nil _ _)
        (List.cons_ne_nil _ _), joined_singleton]
    rw [hjoin, List.takeWhile_append_of_pos hp, List.takeWhile_cons_of_neg (by simp),
      List.append_nil]
    exact ⟨rfl, iff_of_true (by simp) (List.cons_ne_nil _ _)⟩

end Keys

/-! ## What a folder lists -/

section Listing

variable {folder : List Str} {key : Str} {entries : Entries Bool} {n : Str} {isDir : Bool}

/-- The key lies in the folder under the name, below a folder of that name or as a file. -/
def ListedAs (folder : List Str) (key : Str) (n : Str) (isDir : Bool) : Prop :=
  ∃ more, key.splitOn '/' = folder ++ n :: more ∧ isDir = decide (more ≠ [])

/-- Every segment of a key is a text. -/
theorem segment_ne_nil (h : clean key = key) {s : Str} (hs : s ∈ key.splitOn '/') : s ≠ [] := by
  rcases splitOn_key h with ⟨rfl, -⟩ | ⟨-, he⟩
  · rw [show ".".toList.splitOn '/' = [".".toList] from rfl, List.mem_singleton] at hs
    rw [hs]
    exact List.cons_ne_nil _ _
  · rw [he] at hs
    rintro rfl
    exact absurd (isSegment_of_mem_clean hs).1.1 (by decide)

/-- One key adds the name it is listed as, or nothing. -/
theorem listKey_cases (hf : ∀ s ∈ folder, IsSegment s) (hkey : clean key = key)
    (entries : Entries Bool) :
    (∃ n isDir, ListedAs folder key n isDir ∧
      MapFs.listKey (if spell folder = ".".toList then [] else spell folder ++ ['/']) entries key =
        entries.insert n isDir) ∨
      (∀ n isDir, ¬ ListedAs folder key n isDir) ∧
        MapFs.listKey (if spell folder = ".".toList then [] else spell folder ++ ['/']) entries
          key = entries := by
  unfold MapFs.listKey
  cases hd : key.dropPrefix? (if spell folder = ".".toList then [] else spell folder ++ ['/']) with
  | none =>
    right
    refine ⟨?_, rfl⟩
    rintro n isDir ⟨more, hk, -⟩
    have hslash : ∀ s ∈ n :: more, '/' ∉ s := by
      intro s hs
      exact not_mem_of_mem_splitOn (hk ▸ List.mem_append_right _ hs)
    have hrest : key.splitOn '/' = folder ++ (joined '/' (n :: more)).splitOn '/' := by
      rw [splitOn_joined hslash (List.cons_ne_nil _ _), hk]
    rw [(dropPrefix?_iff hf).mpr hrest] at hd
    cases hd
  | some rest =>
    left
    have hk := (dropPrefix?_iff hf).mp hd
    obtain ⟨n, more, hrest⟩ : ∃ n more, rest.splitOn '/' = n :: more :=
      List.exists_cons_of_ne_nil (List.splitOn_ne_nil '/' rest)
    have hne : rest ≠ [] := by
      rintro rfl
      apply segment_ne_nil hkey (s := [])
      · rw [hk]
        simp
      · rfl
    obtain ⟨htake, hmem⟩ := takeWhile_splitOn hrest
    refine ⟨n, decide (more ≠ []), ⟨more, by rw [hk, hrest], rfl⟩, ?_⟩
    dsimp only
    rw [if_neg hne, htake, decide_eq_decide.mpr hmem]

theorem mem_foldl_listKey (hf : ∀ s ∈ folder, IsSegment s) {keys : List Str}
    (hkeys : ∀ key ∈ keys, clean key = key)
    (h : (n, isDir) ∈ keys.foldl
      (MapFs.listKey (if spell folder = ".".toList then [] else spell folder ++ ['/'])) entries) :
    (n, isDir) ∈ entries ∨ ∃ key ∈ keys, ListedAs folder key n isDir := by
  induction keys generalizing entries with
  | nil => exact .inl h
  | cons key keys ih =>
    rcases ih (fun k hk => hkeys k (List.mem_cons_of_mem _ hk)) h with h | ⟨k, hk, h⟩
    · rcases listKey_cases hf (hkeys key List.mem_cons_self) entries with
        ⟨m, d, hl, he⟩ | ⟨-, he⟩
      · rw [he] at h
        rcases Entries.mem_insert h with heq | h
        · obtain ⟨rfl, rfl⟩ := Prod.mk.inj heq
          exact .inr ⟨key, List.mem_cons_self, hl⟩
        · exact .inl h
      · rw [he] at h
        exact .inl h
    · exact .inr ⟨k, List.mem_cons_of_mem _ hk, h⟩

theorem get_foldl_listKey (hf : ∀ s ∈ folder, IsSegment s) {keys : List Str}
    (hkeys : ∀ key ∈ keys, clean key = key)
    (h : (entries.get n).isSome = true ∨ ∃ key ∈ keys, ListedAs folder key n isDir) :
    ((keys.foldl (MapFs.listKey (if spell folder = ".".toList then [] else spell folder ++ ['/']))
      entries).get n).isSome = true := by
  induction keys generalizing entries with
  | nil =>
    rcases h with h | ⟨key, hkey, -⟩
    · exact h
    · exact absurd hkey List.not_mem_nil
  | cons key keys ih =>
    apply ih fun k hk => hkeys k (List.mem_cons_of_mem _ hk)
    rcases listKey_cases hf (hkeys key List.mem_cons_self) entries with ⟨m, d, hl, he⟩ | ⟨hl, he⟩
    · rw [he]
      rcases h with h | ⟨k, hk, h⟩
      · left
        rw [Entries.get_insert]
        split_ifs
        · rfl
        · exact h
      · rcases List.mem_cons.mp hk with rfl | hk
        · left
          obtain ⟨more, hmore, -⟩ := h
          obtain ⟨more', hmore', -⟩ := hl
          rw [hmore] at hmore'
          rw [(List.cons.inj (List.append_cancel_left hmore')).1, Entries.get_insert_self]
          rfl
        · exact .inr ⟨k, hk, h⟩
    · rw [he]
      rcases h with h | ⟨k, hk, h⟩
      · exact .inl h
      · rcases List.mem_cons.mp hk with rfl | hk
        · exact absurd h (hl n isDir)
        · exact .inr ⟨k, hk, h⟩

end Listing

/-- No file's path is a folder of another file. -/
def FilesAreLeaves (fs : MapFs) : Prop :=
  ∀ p q, (fs.files.get p).isSome = true → (fs.files.get q).isSome = true →
    cleanSegments p <+: cleanSegments q → p = q

theorem filesAreLeaves_of_keys {fs : MapFs} (h : ∀ p ∈ fs.files.map Prod.fst,
    ∀ q ∈ fs.files.map Prod.fst, cleanSegments p <+: cleanSegments q → p = q) :
    FilesAreLeaves fs := by
  have hmem : ∀ {p}, (fs.files.get p).isSome = true → p ∈ fs.files.map Prod.fst := by
    intro p hp
    by_contra hn
    rw [Entries.get_eq_none.mpr hn] at hp
    cases hp
  intro p q hp hq
  exact h p (hmem hp) q (hmem hq)

/-- What a folder lists. -/
def MapFs.listed (fs : MapFs) (folder : Str) : List DirEntry := (fs.readDir folder).getD []

theorem clean_of_file {fs : MapFs} {key : Str} (h : (fs.files.get key).isSome = true) :
    clean key = key := by
  obtain ⟨src, hsrc⟩ := Option.isSome_iff_exists.mp h
  exact fs.clean_key _ (Entries.get_mem hsrc)

theorem FilesAreLeaves.eq_of_splitOn {fs : MapFs} (h : FilesAreLeaves fs) {p q : Str}
    (hp : (fs.files.get p).isSome = true) (hq : (fs.files.get q).isSome = true)
    (hpre : p.splitOn '/' <+: q.splitOn '/') : p = q := by
  rcases splitOn_key (clean_of_file hp) with ⟨-, he⟩ | ⟨-, he⟩
  · exact h p q hp hq (he ▸ List.nil_prefix)
  · rcases splitOn_key (clean_of_file hq) with ⟨-, he'⟩ | ⟨-, he'⟩
    · exact (h q p hq hp (he' ▸ List.nil_prefix)).symm
    · exact h p q hp hq (by rwa [← he, ← he'])

/-- Of two files under one name in a folder, both are files there if one is. -/
theorem FilesAreLeaves.no_more {fs : MapFs} (h : FilesAreLeaves fs) {p q n : Str}
    {folder more more' : List Str} (hp : (fs.files.get p).isSome = true)
    (hq : (fs.files.get q).isSome = true) (hmore : p.splitOn '/' = folder ++ n :: more)
    (hmore' : q.splitOn '/' = folder ++ n :: more') (hnil : more = []) : more' = [] := by
  subst hnil
  have hpre : p.splitOn '/' <+: q.splitOn '/' := by
    rw [hmore, hmore', List.append_cons folder n more']
    exact List.prefix_append ..
  obtain rfl := h.eq_of_splitOn hp hq hpre
  rw [hmore] at hmore'
  exact (List.cons.inj (List.append_cancel_left hmore')).2.symm

/-- Of two keys under one name, none is a folder of the other. -/
theorem ListedAs.isDir_eq {fs : MapFs} (h : FilesAreLeaves fs) {folder : List Str}
    {key key' n : Str} {d d' : Bool} (hkey : (fs.files.get key).isSome = true)
    (hkey' : (fs.files.get key').isSome = true) (hl : ListedAs folder key n d)
    (hl' : ListedAs folder key' n d') : d = d' := by
  obtain ⟨more, hk, rfl⟩ := hl
  obtain ⟨more', hk', rfl⟩ := hl'
  rw [decide_eq_decide, not_iff_not]
  exact ⟨h.no_more hkey hkey' hk hk', h.no_more hkey' hkey hk' hk⟩

/-- A folder lists the names of the keys in it. -/
theorem mem_listed {fs : MapFs} (h : FilesAreLeaves fs) {folder : List Str}
    (hf : ∀ s ∈ folder, IsSegment s) (n : Str) (isDir : Bool) :
    (⟨n, isDir⟩ : DirEntry) ∈ fs.listed (spell folder) ↔
      ∃ key, (fs.files.get key).isSome = true ∧ ListedAs folder key n isDir := by
  generalize hentries : (fs.files.inOrder.map Prod.fst).foldl
    (MapFs.listKey (if spell folder = ".".toList then [] else spell folder ++ ['/'])) [] = entries
  have hkeys : ∀ key ∈ fs.files.inOrder.map Prod.fst, clean key = key := fun key hkey =>
    clean_of_file (Entries.mem_keys_inOrder.mp hkey)
  have hlisted : fs.listed (spell folder) = entries.inOrder.map fun e => ⟨e.1, e.2⟩ := by
    unfold MapFs.listed MapFs.readDir
    dsimp only
    rw [clean_spell hf, hentries]
    split_ifs with hempty
    · rw [hempty.1]
      rfl
    · rfl
  have sound : ∀ {d}, (n, d) ∈ entries.inOrder →
      ∃ key, (fs.files.get key).isSome = true ∧ ListedAs folder key n d := by
    intro d hd
    have hmem := Entries.mem_inOrder hd
    rw [← hentries] at hmem
    rcases mem_foldl_listKey hf hkeys hmem with hnil | ⟨key, hkey, hl⟩
    · exact absurd hnil List.not_mem_nil
    · exact ⟨key, Entries.mem_keys_inOrder.mp hkey, hl⟩
  rw [hlisted, List.mem_map]
  constructor
  · rintro ⟨⟨m, d⟩, hd, he⟩
    obtain ⟨rfl, rfl⟩ := DirEntry.mk.inj he
    exact sound hd
  · rintro ⟨key, hkey, hl⟩
    have hget : (entries.get n).isSome = true := by
      rw [← hentries]
      exact get_foldl_listKey hf hkeys (.inr ⟨key, Entries.mem_keys_inOrder.mpr hkey, hl⟩)
    obtain ⟨d, hd⟩ := Option.isSome_iff_exists.mp hget
    rw [← Entries.get_inOrder] at hd
    have hd := Entries.get_mem hd
    obtain ⟨key', hkey', hl'⟩ := sound hd
    obtain rfl := hl'.isDir_eq h hkey' hkey hl
    exact ⟨_, hd, rfl⟩

end MultiSource
