import MultiSource.Value

/-!
# Path specs and resolutions

What a resolver answers with, and the string functions that turn a reference and a base into the
paths it may name.
-/

namespace MultiSource

/-- An unknown or missing source-reference extension. -/
def NONE : Str := []

/-- The path to a source, including the base prefix when there is one. -/
structure PathSpec where
  kind : Str
  path : Option Str
  full : Option Str
  base : Str
  abs : Bool

/-- A source and where it was found. -/
structure Resolution where
  spec : PathSpec
  src : Option Str
  val : Value
  found : Bool
  search : List Str
  err : Option TabnasError

/-- The source kind: the extension of the last path segment, without the dot. -/
def extKind (full : Option Str) : Str :=
  match full with
  | none => NONE
  | some full =>
    match rsplit (· = '.') (afterLast isSep full) with
    | some (_, ext) => ext
    | none => NONE

namespace Resolution

def notFound (spec : PathSpec) : Resolution :=
  { spec, src := none, val := .undefined, found := false, search := [], err := none }

/-- A resolution that found `src` at `full`. -/
def ofFound (spec : PathSpec) (full src : Str) : Resolution :=
  { spec := { spec with kind := extKind (some full), full := some full }
    src := some src, val := .undefined, found := true, search := [], err := none }

def withSearch (r : Resolution) (search : List Str) : Resolution := { r with search }

/-- The path a resolution is known by. -/
def fullPath (r : Resolution) : Str :=
  (r.spec.full <|> r.spec.path).getD "no-path".toList

theorem fullPath_of_full {r : Resolution} {f : Str} (h : r.spec.full = some f) :
    r.fullPath = f := by
  simp [fullPath, h]

end Resolution

/-- A reference against `base`. An absolute reference ignores the base. -/
def resolvePathSpec (reference : Option Str) (base : Str) : PathSpec :=
  let abs := match reference with
    | some (c :: _) => isSep c
    | _ => false
  let full := match reference with
    | some path =>
      if abs then some path
      else if path = [] then none
      else some (if base = [] then path else base ++ '/' :: path)
    | none => none
  { kind := extKind full, path := reference, full, base, abs }

/-- Every path a reference could name: the path itself, then the implicit extensions, then a folder
index file, then a folder index file that repeats the folder name. -/
def buildPotentials (full : Str) (implicitExt : List Str) : List Str :=
  if full = [] then []
  else
    let segment := afterLast isSep full
    if '.' ∈ segment then [full]
    else
      [full] ++ implicitExt.map (full ++ ·)
        ++ implicitExt.map (full ++ "/index".toList ++ ·)
        ++ if segment = [] ∨ segment = ['.'] then []
          else implicitExt.map (full ++ "/index.".toList ++ segment ++ ·)

/-- The directory a relative reference inside `path` resolves against. -/
def sourceDir (path : Str) : Str :=
  let trimmed := trimEnd isSep path
  match rsplit isSep trimmed with
  | none => []
  | some ([], _) => trimmed.take 1
  | some (dir, _) => dir

example : extKind (some "a.d/foo".toList) = NONE := by decide
example : sourceDir "/a.jsonic".toList = "/".toList := by decide
example : sourceDir "data/a.jsonic".toList = "data".toList := by decide

end MultiSource
