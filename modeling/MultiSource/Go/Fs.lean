import MultiSource.Go.Spec
import MultiSource.Resolver

/-!
# The Go view of a filesystem

`path.Clean` and what is built on it: the names an `io/fs` filesystem is asked for, and the search
of a package folder. A path that holds no backslash and no step up has the same name here as in
Rust.
-/

namespace MultiSource.Go

open Segments

/-- `path.Clean`. -/
def clean (path : Str) : Str :=
  let segments := path.splitOn '/'
  if path.head? = some '/' then '/' :: joined '/' (collapse OsPath.blank isUp segments)
  else
    let kept := collapseUp OsPath.blank isUp segments
    if kept = [] then ".".toList else joined '/' kept

/-- `path.Join`. -/
def pathJoin (elem : List Str) : Str :=
  let elem := elem.filter fun e => e ≠ []
  if elem = [] then [] else clean (joined '/' elem)

/-- `strings.TrimPrefix` of a slash. -/
def trimSlash : Str → Str
  | [] => []
  | c :: rest => if c = '/' then rest else c :: rest

def fsClean (p : Str) : Str :=
  if trimSlash (clean p) = [] then ".".toList else trimSlash (clean p)

/-- `fs.ValidPath`. -/
def validPath (name : Str) : Bool :=
  name = ".".toList || (name.splitOn '/').all fun s => !OsPath.blank s && !isUp s

/-- The view of an in-memory tree, `ioVFS`. -/
structure Vfs where
  readFile : Str → Option Str
  join : List Str → Str

def ioVfs (fs : MapFs) : Vfs where
  readFile p := if validPath (fsClean p) then fs.files.get (fsClean p) else none
  join parts := fsClean (pathJoin parts)

/-- Resolve a package reference inside a `node_modules` directory: every candidate of the reference,
and only then the `main` of its package. `manifest` reads a JSON text into a struct with a `Main`
field: none where it does not decode, and empty where `main` is missing. -/
def resolveInPkgDir (v : Vfs) (manifest : Str → Option Str) (nodeModules ref : Str)
    (exts search : List Str) : Option (Str × Str) × List Str :=
  let target := v.join [nodeModules, ref]
  match tryEach v.readFile (buildPotentials target exts) search with
  | (some hit, search) => (some hit, search)
  | (none, search) =>
    let pkgJSON := v.join [target, "package.json".toList]
    let search := search ++ [pkgJSON]
    match (v.readFile pkgJSON).bind manifest with
    | some main =>
      if main = [] then (none, search)
      else tryEach v.readFile (buildPotentials (v.join [target, main]) exts) search
    | none => (none, search)

/-! ## Paths without steps up -/

/-- A path with forward slashes only, and no step up. -/
structure Forward (p : Str) : Prop where
  slashes : '\\' ∉ p
  noUp : ∀ s ∈ p.splitOn '/', isUp s = false

section Forward

variable {p : Str}

instance : Decidable (Forward p) :=
  decidable_of_iff ('\\' ∉ p ∧ ∀ s ∈ p.splitOn '/', isUp s = false)
    ⟨fun h => ⟨h.1, h.2⟩, fun h => ⟨h.slashes, h.noUp⟩⟩

theorem Forward.cleanSegments_eq (h : Forward p) :
    cleanSegments p = collapse OsPath.blank isUp (p.splitOn '/') := by
  unfold cleanSegments
  rw [unified_of_not_mem h.slashes]

/-- `path.Clean` keeps the segments, and a leading slash. -/
theorem Forward.clean_eq (h : Forward p) : clean p =
    if p.head? = some '/' then '/' :: joined '/' (cleanSegments p)
    else spell (cleanSegments p) := by
  unfold clean spell
  dsimp only
  rw [collapseUp_of_no_up h.noUp, ← h.cleanSegments_eq]

theorem trimSlash_spell {parts : List Str} (h : ∀ s ∈ parts, IsSegment s) :
    trimSlash (spell parts) = spell parts := by
  unfold spell
  split_ifs with hp
  · rfl
  · obtain ⟨s, parts, rfl⟩ := List.exists_cons_of_ne_nil hp
    obtain ⟨⟨hskip, -⟩, hslash, -⟩ := h s (List.mem_cons_self ..)
    cases s with
    | nil => simp [OsPath.blank] at hskip
    | cons c s =>
      have hc : c ≠ '/' := by
        rintro rfl
        exact hslash (List.mem_cons_self ..)
      cases parts with
      | nil => exact if_neg hc
      | cons t parts => exact if_neg hc

/-- Such a path has one name in both ports. -/
theorem Forward.fsClean_eq (h : Forward p) : fsClean p = MultiSource.clean p := by
  have hseg : ∀ s ∈ cleanSegments p, IsSegment s := fun s => isSegment_of_mem_clean
  unfold fsClean MultiSource.clean
  rw [h.clean_eq]
  by_cases hr : p.head? = some '/'
  · have ht : trimSlash ('/' :: joined '/' (cleanSegments p)) = joined '/' (cleanSegments p) := rfl
    rw [if_pos hr, ht]
    unfold spell
    by_cases hp : cleanSegments p = []
    · rw [if_pos hp, hp]
      rfl
    · rw [if_neg hp, if_neg (joined_ne_nil hseg hp)]
  · rw [if_neg hr, trimSlash_spell hseg, if_neg (spell_ne_nil hseg)]

theorem forward_spell {parts : List Str} (h : ∀ s ∈ parts, IsSegment s) :
    Forward (spell parts) where
  slashes := not_mem_spell h
  noUp := by
    unfold spell
    split_ifs with hp
    · decide
    · intro s hs
      rw [splitOn_joined (fun s hs => (h s hs).2.1) hp] at hs
      exact (h s hs).1.2

/-- A spelt path is one `io/fs` takes. -/
theorem validPath_spell {parts : List Str} (h : ∀ s ∈ parts, IsSegment s) :
    validPath (spell parts) = true := by
  unfold validPath spell
  split_ifs with hp
  · rfl
  · rw [splitOn_joined (fun s hs => (h s hs).2.1) hp, Bool.or_eq_true, List.all_eq_true]
    right
    intro s hs
    obtain ⟨hskip, hup⟩ := (h s hs).1
    rw [hskip, hup]
    rfl

/-- Such a path reads alike in both ports. -/
theorem Forward.readFile_eq (fs : MapFs) (h : Forward p) :
    (ioVfs fs).readFile p = fs.readFile p := by
  have hseg : ∀ s ∈ cleanSegments p, IsSegment s := fun s => isSegment_of_mem_clean
  show (if validPath (fsClean p) then fs.files.get (fsClean p) else none) = _
  have hvalid : validPath (MultiSource.clean p) = true := validPath_spell hseg
  rw [h.fsClean_eq, if_pos hvalid]
  rfl

/-- What `path.Clean` gives is such a path again, with the same segments. -/
theorem Forward.clean (h : Forward p) :
    Forward (clean p) ∧ cleanSegments (Go.clean p) = cleanSegments p := by
  have hseg : ∀ s ∈ cleanSegments p, IsSegment s := fun s => isSegment_of_mem_clean
  have hspell := forward_spell hseg
  rw [h.clean_eq]
  by_cases hr : p.head? = some '/'
  · rw [if_pos hr, cleanSegments_cons_slash]
    by_cases hp : cleanSegments p = []
    · rw [hp]
      exact ⟨⟨by decide, by decide⟩, rfl⟩
    · have he : spell (cleanSegments p) = joined '/' (cleanSegments p) := if_neg hp
      rw [← he]
      refine ⟨⟨?_, ?_⟩, cleanSegments_spell hseg⟩
      · simpa using hspell.slashes
      · intro s hs
        rw [show '/' :: spell (cleanSegments p) = [] ++ '/' :: spell (cleanSegments p) from rfl,
          List.splitOn_append_cons_self] at hs
        rcases List.mem_cons.mp hs with rfl | hs
        · rfl
        · exact hspell.noUp s hs
  · rw [if_neg hr]
    exact ⟨hspell, cleanSegments_spell hseg⟩

end Forward

theorem Forward.append {p q : Str} (hp : Forward p) (hq : Forward q) : Forward (p ++ '/' :: q) where
  slashes := by simp [hp.slashes, hq.slashes]
  noUp := by
    intro s hs
    rw [List.splitOn_append_cons_self] at hs
    exact (List.mem_append.mp hs).elim (hp.noUp s) (hq.noUp s)

/-- Joining such paths gives one name in both ports. -/
theorem join_eq (fs : MapFs) {p q : Str} (hp : Forward p) (hq : Forward q) :
    (ioVfs fs).join [p, q] = MapFs.join [p, q] := by
  have hjoin : MapFs.join [p, q] = MultiSource.clean (p ++ '/' :: q) := by
    show MultiSource.clean (joined '/' [p, q]) = _
    rw [joined_pair]
  have of_clean : ∀ {r : Str}, Forward r → cleanSegments r = cleanSegments (p ++ '/' :: q) →
      fsClean (clean r) = MultiSource.clean (p ++ '/' :: q) := by
    intro r hr he
    rw [hr.clean.1.fsClean_eq, clean_eq_iff, hr.clean.2, he]
  rw [hjoin]
  show fsClean (pathJoin [p, q]) = _
  unfold pathJoin
  by_cases hpn : p = []
  · subst hpn
    have he : cleanSegments q = cleanSegments ([] ++ '/' :: q) := (cleanSegments_cons_slash q).symm
    by_cases hqn : q = []
    · subst hqn
      rfl
    · have hf : [([] : Str), q].filter (fun e => e ≠ []) = [q] := by simp [hqn]
      rw [hf, if_neg (List.cons_ne_nil _ _), joined_singleton]
      exact of_clean hq he
  · by_cases hqn : q = []
    · subst hqn
      have hf : [p, ([] : Str)].filter (fun e => e ≠ []) = [p] := by simp [hpn]
      rw [hf, if_neg (List.cons_ne_nil _ _), joined_singleton]
      exact of_clean hp (by rw [cleanSegments_append]; rfl)
    · have hf : [p, q].filter (fun e => e ≠ []) = [p, q] := by simp [hpn, hqn]
      rw [hf, if_neg (List.cons_ne_nil _ _), joined_pair]
      exact of_clean (hp.append hq) rfl

end MultiSource.Go
