import MultiSource.Body
import MultiSource.Lib.Segments
import MultiSource.PathSpec
import MultiSource.Ts.Number

/-!
# Path specs in the canonical port

`resolvePathSpec` of the TypeScript, with the coercion that decides which source a body names. The
text of an object is the engine's to decide, by the prototype it gives its objects.
-/

namespace MultiSource.Ts

/-- An exception that escapes. -/
inductive Thrown : Type
  | typeError
  | system (path : Str)
  deriving DecidableEq

/-- `'' + object`, for an object with these entries. -/
abbrev ObjectText : Type := Entries Body → Except Thrown Str

/-- `null == value`. -/
def isNullish : Body → Bool
  | .absent => true
  | .null => true
  | _ => false

mutual

/-- `'' + value`. -/
def coerce (objectText : ObjectText) : Body → Except Thrown Str
  | .absent => .ok "undefined".toList
  | .null => .ok "null".toList
  | .bool flag => .ok (if flag then "true".toList else "false".toList)
  | .number number => .ok (numberToString number)
  | .string text => .ok text
  | .array items => (coerceItems objectText items).map (Segments.joined ',')
  | .object entries => objectText entries
termination_by structural body => body

/-- The items an array joins. One that is null or absent is empty. -/
def coerceItems (objectText : ObjectText) : List Body → Except Thrown (List Str)
  | [] => .ok []
  | item :: items => do
    let text ← if isNullish item then .ok [] else coerce objectText item
    let texts ← coerceItems objectText items
    return text :: texts
termination_by structural items => items

end

/-- The plugin options a resolver reads. -/
structure Options where
  path : Option Str
  implictExt : List Str

/-- The options with every implicit extension in the form `.name`. -/
def Options.normalize (popts : Options) : Options :=
  { popts with
    implictExt := popts.implictExt.map fun ext => if ext.head? = some '.' then ext else '.' :: ext }

/-- A filesystem module. `statSync` answers whether the path is a file, or throws, and a read that
fails has no text. -/
structure NodeFs where
  statSync : Str → Option Bool
  existsSync : Str → Bool
  load : Str → Option Str

/-- What a resolver reads of the parse context: `meta.fs` and `meta.multisource.path`. -/
structure Ctx where
  fs : Option NodeFs
  path : Option Str

structure PathSpec where
  kind : Str
  path : Option Str
  full : Option Str
  base : Option Str
  abs : Bool

/-- A resolution to a source in `α`. -/
structure Resolution (α : Type) extends PathSpec where
  src : Option α
  found : Bool
  search : Option (List Str)

def extKind (full : Option Str) : Str :=
  match full with
  | none => NONE
  | some full =>
    match rsplit (· = '.') (afterLast isSep full) with
    | some (_, ext) => ext
    | none => NONE

theorem extKind_eq (full : Option Str) : extKind full = MultiSource.extKind full := by
  cases full <;> rfl

/-- The path a body names: the body if it is a string, else its `path` property, if it has one. -/
def specPath (objectText : ObjectText) : Body → Except Thrown (Option Str)
  | .string text => .ok (some text)
  | .absent => .error .typeError
  | .null => .error .typeError
  | .object entries =>
    match Entries.get "path".toList entries with
    | none => .ok none
    | some value =>
      if isNullish value then .ok none else (coerce objectText value).map some
  | _ => .ok none

def resolvePathSpec (objectText : ObjectText) (popts : Options) (ctx : Ctx) (spec : Body)
    (resolvefolder : Option Str → Except Thrown (Option Str)) : Except Thrown PathSpec := do
  let base ← resolvefolder (ctx.path <|> popts.path)
  let path ← specPath objectText spec
  let abs := match path with
    | some (c :: _) => isSep c
    | _ => false
  let full := match path with
    | some path =>
      if abs then some path
      else if path = [] then none
      else
        match base with
        | some (b :: base) => some (b :: base ++ '/' :: path)
        | _ => some path
    | none => none
  return { kind := extKind full, path, full, base, abs }

/-- The name of a folder that a reference ends in, less its trailing separators. -/
def folderName (path : Str) : Option Str :=
  let folder := afterLast isSep (trimEnd isSep path)
  if folder = [] then none else some folder

/-- What is tried after the path itself, if its last segment has no dot. -/
def buildPotentials (ps : PathSpec) (popts : Options) (pathjoin : Str → Str → Str) : List Str :=
  let full := ps.full.getD []
  if full = [] ∨ '.' ∈ afterLast isSep full then []
  else
    popts.implictExt.map (full ++ ·)
      ++ popts.implictExt.map (fun ext => pathjoin full ("index".toList ++ ext))
      ++ match ps.path.bind folderName with
        | some folder =>
          popts.implictExt.map fun ext => pathjoin full ("index.".toList ++ folder ++ ext)
        | none => []

end MultiSource.Ts
