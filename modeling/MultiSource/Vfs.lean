import MultiSource.Value
import MultiSource.OsPath

/-!
# The filesystem seam

Every path a resolver touches goes through a `SourceFs`. `MapFs` reads an in-memory map by clean
paths, `Os` the real filesystem by native ones. `withinRoot` compares a path with a sandbox root by
whole segments.
-/

namespace MultiSource

open Segments

/-- The part of a filesystem that computes paths and reads nothing. -/
structure PathOps where
  join : List Str → Str
  dir : Str → Str
  canon : Str → Str
  nativePaths : Bool

/-- A read-only view of a filesystem. -/
structure SourceFs extends PathOps where
  readFile : Str → Option Str
  realPath : Str → Option Str

/-! ## Clean paths -/

def unified (path : Str) : Str := path.map fun c => if c = '\\' then '/' else c

def isUp (segment : Str) : Bool := segment = "..".toList

/-- The segments of a path once `.` and `..` are resolved. A `..` that would climb above the root
is dropped. -/
def cleanSegments (path : Str) : List Str :=
  collapse OsPath.blank isUp ((unified path).splitOn '/')

/-- Segments as a map key: slash separated, no leading slash, and `.` for the root. -/
def spell (parts : List Str) : Str := if parts = [] then ".".toList else joined '/' parts

/-- A path as a map key. -/
def clean (path : Str) : Str := spell (cleanSegments path)

/-- A segment `clean` leaves as it is. -/
def IsSegment (s : Str) : Prop := Plain OsPath.blank isUp s ∧ '/' ∉ s ∧ '\\' ∉ s

theorem isSegment_of_mem_clean {path s : Str} (h : s ∈ cleanSegments path) : IsSegment s := by
  obtain ⟨hs, hp⟩ := mem_collapse h
  have hn := not_mem_of_mem_splitOn hs
  refine ⟨hp, hn, fun hb => ?_⟩
  have hm : '\\' ∈ unified path := by
    have hj := joined_splitOn '/' (unified path)
    rw [← hj]
    exact mem_joined_of_mem hs hb
  obtain ⟨c, -, hc⟩ := List.mem_map.mp hm
  split_ifs at hc with h
  · exact absurd hc (by decide)
  · exact h hc

theorem unified_of_not_mem {path : Str} (h : '\\' ∉ path) : unified path = path := by
  unfold unified
  conv_rhs => rw [← List.map_id path]
  refine List.map_congr_left fun c hc => if_neg ?_
  rintro rfl
  exact h hc

theorem unified_append (p q : Str) : unified (p ++ q) = unified p ++ unified q :=
  List.map_append

theorem not_mem_spell {parts : List Str} (h : ∀ s ∈ parts, IsSegment s) : '\\' ∉ spell parts := by
  unfold spell
  split_ifs with hp
  · decide
  · intro hm
    rcases mem_joined hm with he | ⟨s, hs, hm⟩
    · exact absurd he (by decide)
    · exact (h s hs).2.2 hm

@[simp] theorem cleanSegments_spell {parts : List Str} (h : ∀ s ∈ parts, IsSegment s) :
    cleanSegments (spell parts) = parts := by
  rw [cleanSegments, unified_of_not_mem (not_mem_spell h), spell]
  split_ifs with hp
  · subst hp
    rfl
  · rw [splitOn_joined (fun s hs => (h s hs).2.1) hp,
      collapse_of_plain fun s hs => (h s hs).1]

@[simp] theorem cleanSegments_clean (path : Str) :
    cleanSegments (clean path) = cleanSegments path :=
  cleanSegments_spell fun _ => isSegment_of_mem_clean

@[simp] theorem clean_clean (path : Str) : clean (clean path) = clean path := by
  rw [clean, cleanSegments_clean, ← clean]

theorem clean_spell {parts : List Str} (h : ∀ s ∈ parts, IsSegment s) :
    clean (spell parts) = spell parts := by
  rw [clean, cleanSegments_spell h]

theorem joined_ne_nil {parts : List Str} (h : ∀ s ∈ parts, IsSegment s) (hne : parts ≠ []) :
    joined '/' parts ≠ [] := by
  intro he
  have hs := splitOn_joined (fun s hs => (h s hs).2.1) hne
  rw [he, List.splitOn_nil] at hs
  have hskip := (h [] (by rw [← hs]; simp)).1.1
  simp [OsPath.blank] at hskip

theorem spell_ne_nil {parts : List Str} (h : ∀ s ∈ parts, IsSegment s) : spell parts ≠ [] := by
  unfold spell
  split_ifs with hp
  · decide
  · exact joined_ne_nil h hp

theorem clean_eq_iff {p q : Str} : clean p = clean q ↔ cleanSegments p = cleanSegments q := by
  constructor
  · intro h
    rw [← cleanSegments_clean p, h, cleanSegments_clean]
  · intro h
    rw [clean, h, ← clean]

theorem cleanSegments_append (p q : Str) :
    cleanSegments (p ++ '/' :: q) =
      ((unified q).splitOn '/').foldl (push OsPath.blank isUp) (cleanSegments p) := by
  rw [cleanSegments, unified_append, show unified ('/' :: q) = '/' :: unified q from rfl,
    List.splitOn_append_cons_self, collapse_append, ← cleanSegments]

/-- A step up takes the last segment away, if there is one. -/
theorem cleanSegments_parent (p : Str) :
    cleanSegments (p ++ "/..".toList) = (cleanSegments p).dropLast := by
  show cleanSegments (p ++ '/' :: "..".toList) = _
  rw [cleanSegments_append]
  rfl

theorem cleanSegments_cons_slash (p : Str) : cleanSegments ('/' :: p) = cleanSegments p := by
  have h : unified ('/' :: p) = [] ++ '/' :: unified p := rfl
  unfold cleanSegments
  rw [h, List.splitOn_append_cons_self, collapse_append]
  rfl

/-- Is `candidate` at or below `root`, comparing whole path segments? -/
def withinRoot (candidate root : Str) (osPaths : Bool) : Bool :=
  let norm (path : Str) : Str :=
    if osPaths then (OsPath.parse path).lexical.render else clean path
  let candidate := norm candidate
  let root := norm root
  if root = [] ∨ root = ".".toList then true
  else if candidate = root then true
  else
    let pre := if root.getLast? = some '/' then root else root ++ ['/']
    pre.isPrefixOf candidate

/-! ## The in-memory filesystem -/

/-- An in-memory filesystem. Its keys are clean paths. -/
structure MapFs where
  files : Entries Str
  clean_key : ∀ e ∈ files, clean e.1 = e.1

namespace MapFs

def new : MapFs := ⟨[], fun _ h => absurd h List.not_mem_nil⟩

/-- Add one file, replacing any file already at that path. -/
def insert (fs : MapFs) (path content : Str) : MapFs where
  files := fs.files.insert (clean path) content
  clean_key := by
    intro e he
    rcases Entries.mem_insert he with rfl | he
    · exact clean_clean path
    · exact fs.clean_key e he

def ofList (entries : Entries Str) : MapFs :=
  entries.foldl (fun fs e => fs.insert e.1 e.2) new

def readFile (fs : MapFs) (path : Str) : Option Str := fs.files.get (clean path)

theorem readFile_insert (fs : MapFs) (path content q : Str) :
    (fs.insert path content).readFile q =
      if clean path = clean q then some content else fs.readFile q :=
  Entries.get_insert (clean q) (clean path) content fs.files

def join (parts : List Str) : Str := clean (joined '/' parts)

def dir (path : Str) : Str :=
  match rsplit (· = '/') (clean path) with
  | some (c :: head, _) => c :: head
  | some ([], _) => ".".toList
  | none => ".".toList

/-- The folder of a path has all its segments but the last. -/
theorem dir_eq (path : Str) : dir path = spell (cleanSegments path).dropLast := by
  have hseg : ∀ s ∈ cleanSegments path, IsSegment s := fun s => isSegment_of_mem_clean
  unfold dir clean
  generalize cleanSegments path = parts at hseg
  cases parts using List.reverseRecOn with
  | nil => rfl
  | append_singleton init s =>
    have hs : ∀ c ∈ s, decide (c = '/') = false := by
      intro c hc
      apply decide_eq_false
      rintro rfl
      exact (hseg s (by simp)).2.1 hc
    rw [spell, if_neg (by simp), List.dropLast_concat]
    by_cases hi : init = []
    · subst hi
      rw [List.nil_append, joined_singleton, rsplit_eq_none.mpr hs]
      rfl
    · rw [joined_append hi (List.cons_ne_nil _ _), joined_singleton, rsplit_append_cons rfl hs,
        spell, if_neg hi]
      obtain ⟨c, head, hhead⟩ := List.exists_cons_of_ne_nil
        (joined_ne_nil (fun t ht => hseg t (List.mem_append_left _ ht)) hi)
      rw [hhead]

theorem cleanSegments_dir (path : Str) :
    cleanSegments (dir path) = (cleanSegments path).dropLast := by
  rw [dir_eq, cleanSegments_spell]
  intro s hs
  exact isSegment_of_mem_clean (List.mem_of_mem_dropLast hs)

def pathOps : PathOps where
  join := join
  dir := dir
  canon := clean
  nativePaths := false

def toFs (fs : MapFs) : SourceFs where
  toPathOps := pathOps
  readFile := fs.readFile
  realPath path := some (clean path)

end MapFs

/-- The real filesystem, addressed by native paths. -/
def Os.toFs (os : Os) : SourceFs where
  join := Os.join
  dir := Os.dir
  canon := os.canon
  nativePaths := true
  readFile := os.read
  realPath := os.realPath

end MultiSource
