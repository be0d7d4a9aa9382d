import MultiSource.Go.Spec

/-!
# Parse metadata in the Go port

Metadata is a map of any values, and its readers are type assertions: a value of another type is as
good as none.
-/

namespace MultiSource.Go

/-- A value of type `any`, by the types the plugin asserts. -/
inductive Any : Type
  | string (text : Str)
  | strings (texts : List Str)
  | map (entries : List (Str × Any))
  /-- A `DependencyMap` of the caller. -/
  | deps
  | other

/-- `ctx.Meta`. -/
abbrev Meta : Type := Entries Any

def multisourceOf (parent : Meta) : Option (Entries Any) :=
  match parent.get "multisource".toList with
  | some (.map entries) => some entries
  | _ => none

/-- The string a value is asserted to be, the empty one if it is none. -/
def asString : Option Any → Str
  | some (.string text) => text
  | _ => []

def asStrings : Option Any → List Str
  | some (.strings texts) => texts
  | _ => []

/-- The source being parsed, empty at the top level. -/
def metaSourcePath (parseMeta : Meta) : Str :=
  match multisourceOf parseMeta with
  | some entries => asString (entries.get "path".toList)
  | none => []

def metaParents (parseMeta : Meta) : List Str :=
  match multisourceOf parseMeta with
  | some entries => asStrings (entries.get "parents".toList)
  | none => []

/-- Whether the caller collects dependencies. -/
def metaDeps (parseMeta : Meta) : Bool :=
  match (multisourceOf parseMeta).bind (Entries.get "deps".toList) with
  | some .deps => true
  | _ => false

/-- What `resolveSource` resolves a reference against. -/
def baseFor (opts : Options) (parseMeta : Meta) : Str :=
  let parent := metaSourcePath parseMeta
  if parent ≠ [] then sourceDir parent else opts.path

/-- A reference put to a resolver. -/
def Resolver.resolve (resolver : Resolver) (opts : Options) (pathStr : Str) (parseMeta : Meta) :
    Resolution :=
  resolver (resolvePathSpec pathStr (baseFor opts parseMeta)) opts

/-- A reference put to the in-memory resolver. -/
abbrev resolve (files : Entries Str) (opts : Options) (pathStr : Str) (parseMeta : Meta) :
    Resolution :=
  Resolver.resolve (memResolver files) opts pathStr parseMeta

theorem resolve_found {files : Entries Str} {opts : Options} {pathStr : Str} {parseMeta : Meta}
    (h : (resolve files opts pathStr parseMeta).found = true) :
    Found files.get (resolve files opts pathStr parseMeta) :=
  memResolver_found h

/-- The metadata a source is parsed under: a copy, with this source and the ones around it. -/
def childMeta (parent : Meta) (res : Resolution) : Meta :=
  let prevMS := (multisourceOf parent).getD []
  let prev := asString (prevMS.get "path".toList)
  let parents := asStrings (prevMS.get "parents".toList) ++ if prev ≠ [] then [prev] else []
  let ms := Entries.insert "path".toList (.string res.full) prevMS
  Entries.insert "multisource".toList (.map (Entries.insert "parents".toList (.strings parents) ms))
    parent

/-- The sources around a reference, as the cycle check puts them together. -/
def metaChain (parseMeta : Meta) : List Str :=
  let cur := metaSourcePath parseMeta
  metaParents parseMeta ++ if cur ≠ [] then [cur] else []

variable (parent : Meta) (res : Resolution)

theorem multisourceOf_childMeta : multisourceOf (childMeta parent res) =
    some (Entries.insert "parents".toList (.strings (metaChain parent))
      (Entries.insert "path".toList (.string res.full) ((multisourceOf parent).getD []))) := by
  have hchain : metaChain parent =
      let prev := asString (((multisourceOf parent).getD []).get "path".toList)
      asStrings (((multisourceOf parent).getD []).get "parents".toList) ++
        if prev ≠ [] then [prev] else [] := by
    unfold metaChain metaParents metaSourcePath
    cases multisourceOf parent <;> rfl
  rw [hchain]
  conv_lhs => unfold multisourceOf childMeta
  rw [Entries.get_insert_self]

@[simp] theorem metaSourcePath_childMeta : metaSourcePath (childMeta parent res) = res.full := by
  unfold metaSourcePath
  rw [multisourceOf_childMeta]
  show asString (Entries.get _ _) = _
  rw [Entries.get_insert_of_ne (by decide), Entries.get_insert_self, asString]

@[simp] theorem metaParents_childMeta : metaParents (childMeta parent res) = metaChain parent := by
  unfold metaParents
  rw [multisourceOf_childMeta]
  show asStrings (Entries.get _ _) = _
  rw [Entries.get_insert_self, asStrings]

/-- The chain inside a source is the chain around it, and then the source. -/
theorem metaChain_childMeta (h : res.full ≠ []) :
    metaChain (childMeta parent res) = metaChain parent ++ [res.full] := by
  rw [metaChain, metaSourcePath_childMeta, metaParents_childMeta]
  simp [h]

end MultiSource.Go
