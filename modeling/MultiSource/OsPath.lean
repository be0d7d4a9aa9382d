import MultiSource.Text
import MultiSource.Lib.Segments
import MultiSource.Lib.LinkTree

/-!
# Native paths

Paths of the real filesystem as the standard library reads them: an optional root and components.
`lexical` normalizes a path without reading anything, `canonicalize` follows every link.
-/

namespace MultiSource

open LinkTree Segments

/-- A name a directory entry can have. -/
@[ext] structure Name where
  text : Str
  isName : text ≠ [] ∧ text ≠ ".".toList ∧ text ≠ "..".toList ∧ '/' ∉ text
  deriving DecidableEq

/-- A path by its components. A leading `.` is a component, a later one is not. -/
structure OsPath where
  absolute : Bool
  hops : List (Hop Name)
  deriving DecidableEq

namespace OsPath

/-- The root or the leading `.` of a path, and what follows. -/
def splitHead : Str → Str × Str
  | '/' :: rest => (['/'], rest)
  | ['.'] => (['.'], [])
  | '.' :: '/' :: rest => (['.'], '/' :: rest)
  | path => ([], path)

/-- A segment that is no component: an empty one or a `.`. -/
def blank (segment : Str) : Bool := segment = [] ∨ segment = ".".toList

def hopOf (segment : Str) : Option (Hop Name) :=
  if h : segment ≠ [] ∧ segment ≠ ".".toList ∧ segment ≠ "..".toList ∧ '/' ∉ segment then
    some (.name ⟨segment, h⟩)
  else if segment = "..".toList then some .up
  else none

/-- `Path::components`. -/
def parse (path : Str) : OsPath :=
  let (head, body) := splitHead path
  let hops := (body.splitOn '/').filterMap hopOf
  { absolute := head = ['/'], hops := if head = ['.'] then .here :: hops else hops }

/-- A path as the system reads it, for which a `.` or a trailing `/` asks for a directory. -/
def system (path : Str) : OsPath :=
  let hops := (path.splitOn '/').filterMap fun segment =>
    if segment = ".".toList then some .here else hopOf segment
  { absolute := path.head? = some '/'
    hops := if path.getLast? = some '/' then hops ++ [.here] else hops }

def hopText : Hop Name → Str
  | .here => ".".toList
  | .up => "..".toList
  | .name n => n.text

def render (path : OsPath) : Str :=
  (if path.absolute then ['/'] else []) ++ joined '/' (path.hops.map hopText)

/-- `Path::parent`, as text. -/
def parent (path : Str) : Option Str :=
  let (head, body) := splitHead path
  let trim (segments : List Str) : List Str := (segments.reverse.dropWhile blank).reverse
  match trim (body.splitOn '/') with
  | [] => if head = ['.'] then some [] else none
  | segments => some (head ++ joined '/' (trim segments.dropLast))

/-- `PathBuf::pop` and, where it refuses, `push("..")`. -/
def climb (out : OsPath) : OsPath :=
  { out with hops := if out.hops = [] then [.up] else out.hops.dropLast }

/-- One component of `lexical`. -/
def lexicalStep (out : OsPath) (hop : Hop Name) : OsPath :=
  match hop with
  | .here => out
  | .up => out.climb
  | .name n => { out with hops := out.hops ++ [.name n] }

/-- Resolve `.` and `..` without touching the filesystem. -/
def lexical (path : OsPath) : OsPath :=
  let out := path.hops.foldl lexicalStep { absolute := path.absolute, hops := [] }
  if out.absolute = false ∧ out.hops = [] then { out with hops := [.here] } else out

/-- `PathBuf::push`. -/
def push (out part : Str) : Str :=
  if part.head? = some '/' then part
  else if out = [] ∨ out.getLast? = some '/' then out ++ part
  else out ++ '/' :: part

end OsPath

/-! ## The real filesystem -/

/-- A filesystem and the process that reads it: the entries of the root directory, the process's
directory and what the system reports it as, and how many links a resolution may follow. -/
structure Os where
  entries : List (Name × Node Name Str)
  start : List Name
  cwd : Option Str
  links : ℕ

namespace Os

variable (os : Os)

def tree : Node Name Str := .dir os.entries

def from? (path : OsPath) : Option (List Name) :=
  if path.absolute then some [] else if path.hops = [] then none else some os.start

/-- `std::fs::canonicalize`: the link-free location a path leads to. -/
def canonicalize (path : OsPath) : Option (List Name) :=
  (os.from? path).bind fun cur => resolve os.tree os.links cur path.hops

/-- `std::fs::symlink_metadata` succeeds. -/
def symlinkMetadata (path : OsPath) : Bool :=
  match os.from? path with
  | some cur => present os.tree os.links cur path.hops
  | none => false

/-- `std::fs::read` of a path, decoded. -/
def read (path : Str) : Option Str :=
  (os.canonicalize (OsPath.system path)).bind fun loc =>
    match os.tree.at? loc with
    | some (.file content) => some content
    | _ => none

/-- `path` as an absolute path, against the working directory when it is relative. -/
def absolute (path : Str) : OsPath :=
  if path.head? = some '/' then OsPath.parse path
  else
    match os.cwd with
    | some cwd => OsPath.parse (OsPath.push cwd path)
    | none => OsPath.parse path

/-- The text of a link-free location. -/
def located (loc : List Name) : Str := OsPath.render ⟨true, loc.map .name⟩

/-- The loop of `real_path`: the components still to try, last first, and the names taken off. -/
def deepest (whole : OsPath) : List (Hop Name) → List Name → Option Str
  | hops, rest =>
    let pre : OsPath := ⟨whole.absolute, hops.reverse⟩
    match os.canonicalize pre with
    | some real => some (located (real ++ rest))
    | none =>
      if os.symlinkMetadata pre then none
      else
        match hops with
        | .name n :: hops => deepest whole hops (n :: rest)
        | _ => some whole.render

def realPath (path : Str) : Option Str :=
  let absolute := OsPath.lexical (os.absolute path)
  match os.canonicalize absolute with
  | some real => some (located real)
  | none => os.deepest absolute absolute.hops.reverse []

def join (parts : List Str) : Str :=
  (OsPath.lexical (OsPath.parse (parts.foldl OsPath.push []))).render

def canon (path : Str) : Str := (OsPath.lexical (os.absolute path)).render

def dir (path : Str) : Str := (OsPath.parent path).getD path

end Os

example : (OsPath.parse "/a/./b//../c".toList).lexical.render = "/a/c".toList := by decide
example : OsPath.parent "a/b".toList = some "a".toList := by decide

end MultiSource
