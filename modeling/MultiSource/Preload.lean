import MultiSource.Vfs

/-!
# Reading folders into memory

A preload scans folders of a filesystem before a parse starts. What it holds is what the filesystem
reads under the same joined paths.
-/

namespace MultiSource

/-! ## Folders -/

/-- A name in a folder. -/
structure DirEntry where
  name : Str
  isDir : Bool
  deriving DecidableEq

/-- A filesystem with folders that can be listed. -/
structure DirFs extends SourceFs where
  readDir : Str → Option (List DirEntry)

namespace Entries

variable {α : Type}

/-- Insert into a map that keeps its keys in order. -/
def place (key : Str) (value : α) : Entries α → Entries α
  | [] => [(key, value)]
  | (k, v) :: es =>
    if k = key then (k, value) :: es
    else if key < k then (key, value) :: (k, v) :: es
    else (k, v) :: place key value es

/-- The entries of a map in the order of their keys. -/
def inOrder (es : Entries α) : Entries α := es.foldr (fun e ordered => place e.1 e.2 ordered) []

end Entries

namespace MapFs

/-- One key listed in the folder whose keys start with `pre`: it is a file there, or it lies in a
folder there. -/
def listKey (pre : Str) (entries : Entries Bool) (key : Str) : Entries Bool :=
  match key.dropPrefix? pre with
  | none => entries
  | some rest =>
    if rest = [] then entries
    else entries.insert (rest.takeWhile fun c => c ≠ '/') (decide ('/' ∈ rest))

def readDir (fs : MapFs) (path : Str) : Option (List DirEntry) :=
  let folder := clean path
  let pre := if folder = ".".toList then [] else folder ++ ['/']
  let entries := (fs.files.inOrder.map Prod.fst).foldl (listKey pre) []
  if entries = [] ∧ folder ≠ ".".toList then none
  else some (entries.inOrder.map fun e => ⟨e.1, e.2⟩)

def toDirFs (fs : MapFs) : DirFs where
  toSourceFs := fs.toFs
  readDir := fs.readDir

end MapFs

/-! ## The scan -/

/-- Which folders to scan, and for what. -/
structure PreloadOptions where
  folders : List Str
  ext : List Str
  recursive : Bool

/-- The extension list with a leading dot on every entry, and the default when none was given. -/
def PreloadOptions.extensions (options : PreloadOptions) : List Str :=
  let raw := if options.ext = [] then [".jsonic".toList, ".json".toList] else options.ext
  raw.map fun ext => if ext.head? = some '.' then ext else '.' :: ext

/-- How deep a recursive scan descends. -/
def MAX_SCAN_DEPTH : ℕ := 64

section Scan

variable (fs : DirFs) (extensions : List Str) (recursive : Bool)

/-- One entry of a scanned folder. `descend` scans a folder in it. -/
def scanEntry (descend : Str → Entries Str → Entries Str) (folder : Str) (filemap : Entries Str)
    (entry : DirEntry) : Entries Str :=
  let full := fs.join [folder, entry.name]
  if entry.isDir then
    if recursive then descend full filemap else filemap
  else if extensions.any fun ext => ext.isSuffixOf entry.name then
    match fs.readFile full with
    | some src => filemap.insert full src
    | none => filemap
  else filemap

/-- Scan a folder, `levels` deep with itself. -/
def scan : ℕ → Str → Entries Str → Entries Str
  | 0, _, filemap => filemap
  | levels + 1, folder, filemap =>
    match fs.readDir folder with
    | none => filemap
    | some entries =>
      entries.foldl (scanEntry fs extensions recursive (scan levels) folder) filemap

end Scan

/-- Scan the folders in `options`. -/
def preloadFilesWith (options : PreloadOptions) (fs : DirFs) : Entries Str :=
  options.folders.foldl (fun filemap folder =>
    scan fs options.extensions options.recursive (MAX_SCAN_DEPTH + 1) (fs.canon folder) filemap) []

example : (preloadFilesWith ⟨["conf".toList], [], false⟩ (MapFs.ofList
    [("conf/a.jsonic".toList, "a:1".toList), ("conf/note.txt".toList, "skip".toList)]).toDirFs) =
    [("conf/a.jsonic".toList, "a:1".toList)] := by decide

/-! ## What a preload holds -/

/-- Every text of the map is what the filesystem reads under the same joined path. -/
def ReadFrom (fs : DirFs) (filemap : Entries Str) : Prop :=
  ∀ path src, filemap.get path = some src →
    (∃ parts, path = fs.join parts) ∧ fs.readFile path = some src

section ReadFrom

variable {fs : DirFs} {extensions : List Str} {recursive : Bool} {filemap : Entries Str}

theorem ReadFrom.scanEntry {descend : Str → Entries Str → Entries Str}
    (hd : ∀ folder filemap, ReadFrom fs filemap → ReadFrom fs (descend folder filemap))
    (folder : Str) (entry : DirEntry) (h : ReadFrom fs filemap) :
    ReadFrom fs (scanEntry fs extensions recursive descend folder filemap entry) := by
  unfold MultiSource.scanEntry
  dsimp only
  split_ifs
  · exact hd _ _ h
  · exact h
  · split
    · rename_i src hsrc
      intro path text hget
      rw [Entries.get_insert] at hget
      split_ifs at hget with hp
      · obtain rfl := Option.some.inj hget
        rw [← hp]
        exact ⟨⟨_, rfl⟩, hsrc⟩
      · exact h path text hget
    · exact h
  · exact h

theorem ReadFrom.scan (levels : ℕ) : ∀ (folder : Str) (filemap : Entries Str),
    ReadFrom fs filemap → ReadFrom fs (scan fs extensions recursive levels folder filemap) := by
  induction levels with
  | zero => exact fun _ _ h => h
  | succ levels ih =>
    intro folder filemap h
    rw [MultiSource.scan]
    split
    · exact h
    · exact List.foldlRecOn _ _ h fun _ h entry _ => h.scanEntry ih folder entry

theorem readFrom_preload (options : PreloadOptions) : ReadFrom fs (preloadFilesWith options fs) :=
  List.foldlRecOn _ _ (fun _ _ h => absurd h (by simp)) fun filemap h folder _ =>
    h.scan (MAX_SCAN_DEPTH + 1) (fs.canon folder) filemap

end ReadFrom

end MultiSource
