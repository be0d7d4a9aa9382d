import MultiSource.Value

/-!
# Path specs in the Go port

The candidate search of the Go port and its in-memory resolver. Go has no absent string: a
reference that names nothing is the empty one.
-/

namespace MultiSource.Go

def NONE : Str := []

structure PathSpec where
  kind : Str
  path : Str
  full : Str
  base : Str
  abs : Bool
  deriving DecidableEq

/-- A path spec with the source found for it. -/
structure Resolution extends PathSpec where
  src : Str
  found : Bool
  search : List Str
  deriving DecidableEq

/-- The options a resolver reads. -/
structure Options where
  path : Str
  implicitExt : List Str

/-- `path.Ext`: from the last dot of the last segment on. Only a slash separates here. -/
def ext (path : Str) : Str :=
  match rsplit (· = '.') (afterLast (· = '/') path) with
  | some (_, suffix) => '.' :: suffix
  | none => []

def extKind (fullpath : Str) : Str :=
  if ext fullpath = [] then NONE else (ext fullpath).tail

def buildPotentials (fullpath : Str) (implicitExt : List Str) : List Str :=
  if fullpath = [] then []
  else
    let base := afterLast isSep fullpath
    [fullpath] ++
      if ext base = [] then
        implicitExt.map (fullpath ++ ·)
          ++ implicitExt.map (fullpath ++ "/index".toList ++ ·)
          ++ if base ≠ [] ∧ base ≠ ['.'] then
              implicitExt.map (fullpath ++ "/index.".toList ++ base ++ ·)
            else []
      else []

theorem ne_nil_of_mem_buildPotentials {fullpath p : Str} {implicitExt : List Str}
    (h : p ∈ buildPotentials fullpath implicitExt) : p ≠ [] := by
  unfold buildPotentials at h
  by_cases hf : fullpath = []
  · rw [if_pos hf] at h
    cases h
  · have of_map : ∀ (suffix : Str), p ∈ implicitExt.map (fullpath ++ suffix ++ ·) → p ≠ [] := by
      intro suffix h
      obtain ⟨ext, -, rfl⟩ := List.mem_map.mp h
      simp [hf]
    rw [if_neg hf] at h
    rcases List.mem_append.mp h with h | h
    · rw [List.mem_singleton.mp h]
      exact hf
    · split_ifs at h
      · rw [List.mem_append, List.mem_append] at h
        rcases h with (h | h) | h
        · exact of_map [] (by simpa using h)
        · exact of_map _ h
        · exact of_map ("/index.".toList ++ afterLast isSep fullpath) (by simpa using h)
      · rw [List.append_nil, List.mem_append] at h
        rcases h with h | h
        · exact of_map [] (by simpa using h)
        · exact of_map _ h
      · cases h

def resolvePathSpec (specPath base : Str) : PathSpec :=
  let abs := match specPath with
    | c :: _ => isSep c
    | [] => false
  let full :=
    if abs then specPath
    else if specPath ≠ [] then
      if base ≠ [] then base ++ '/' :: specPath else specPath
    else []
  { kind := extKind full, path := specPath, full, base, abs }

/-- What finds the source of a path spec. -/
abbrev Resolver : Type := PathSpec → Options → Resolution

/-- `MakeMemResolver`. -/
def memResolver (files : Entries Str) (spec : PathSpec) (opts : Options) : Resolution :=
  let potentials := buildPotentials spec.full opts.implicitExt
  match potentials.find? fun p => (files.get p).isSome with
  | some p =>
    { spec with
      full := p, kind := extKind p, src := (files.get p).getD [], found := true
      search := potentials }
  | none => { spec with src := [], found := false, search := potentials }

/-- A source that is found is the text at its path, has a name, and is of the kind of its path. -/
structure Found (text : Str → Option Str) (res : Resolution) : Prop where
  text_eq : text res.full = some res.src
  named : res.full ≠ []
  kind_eq : res.kind = extKind res.full

theorem memResolver_found {files : Entries Str} {spec : PathSpec} {opts : Options}
    (h : (memResolver files spec opts).found = true) :
    Found files.get (memResolver files spec opts) := by
  unfold memResolver at h ⊢
  dsimp only at h ⊢
  cases hs : (buildPotentials spec.full opts.implicitExt).find? fun p => (files.get p).isSome with
  | none =>
    rw [hs] at h
    cases h
  | some p =>
    have hkey : (files.get p).isSome = true := by simpa using List.find?_some hs
    obtain ⟨src, hsrc⟩ := Option.isSome_iff_exists.mp hkey
    dsimp only
    rw [hsrc]
    exact ⟨hsrc, ne_nil_of_mem_buildPotentials (List.mem_of_find?_eq_some hs), rfl⟩

/-- The directory of a source. A trailing separator counts as one. -/
def sourceDir (p : Str) : Str :=
  match rsplit isSep p with
  | none => []
  | some ([], _) => p.take 1
  | some (dir, _) => dir

end MultiSource.Go
