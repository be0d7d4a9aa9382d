import Mathlib.Data.List.DropRight
import MultiSource.Go.Meta
import MultiSource.Search

/-!
# The base in Go and in Rust

Both ports search the same candidates once they have a base. What they take for the base differs:
Rust asks the map whether the base path is a source, Go takes metadata for a source and the option
for a folder.
-/

namespace MultiSource.Ports

variable {files : Entries Str}

/-! ## The candidates -/

theorem ext_eq_nil {segment : Str} (h : ∀ c ∈ segment, isSep c = false) :
    Go.ext segment = [] ↔ '.' ∉ segment := by
  have hslash : afterLast (· = '/') segment = segment :=
    afterLast_of_forall fun c hc => by
      have := h c hc
      simp only [isSep, Bool.or_eq_false_iff] at this
      exact this.1
  unfold Go.ext
  rw [hslash]
  cases hr : rsplit (· = '.') segment with
  | none =>
    have := rsplit_eq_none.mp hr
    simp only [decide_eq_false_iff_not] at this
    exact iff_of_true rfl fun hd => this _ hd rfl
  | some ab =>
    obtain ⟨c, hc, he, -⟩ := rsplit_eq_some hr
    refine iff_of_false (List.cons_ne_nil _ _) (not_not.mpr ?_)
    rw [he, ← of_decide_eq_true hc]
    simp

/-- A path whose last segment has an extension has no other candidates. -/
theorem extKind_eq_none {full : Str} (h : '.' ∉ afterLast isSep full) :
    extKind (some full) = NONE := by
  have hr : rsplit (· = '.') (afterLast isSep full) = none :=
    rsplit_eq_none.mpr fun c hc => decide_eq_false fun he : c = '.' => h (he ▸ hc)
  unfold extKind
  dsimp only
  rw [hr]

theorem goBuildPotentials_eq (full : Str) (exts : List Str) :
    Go.buildPotentials full exts = buildPotentials full exts := by
  have hext := ext_eq_nil (afterLast_not_mem isSep full)
  unfold Go.buildPotentials buildPotentials
  dsimp only
  by_cases hd : '.' ∈ afterLast isSep full
  · rw [if_neg (fun h => hext.mp h hd), if_pos hd, List.append_nil]
  · rw [if_pos (hext.mpr hd), if_neg hd]
    by_cases hs : afterLast isSep full = [] ∨ afterLast isSep full = ['.']
    · have hs' : ¬ (afterLast isSep full ≠ [] ∧ afterLast isSep full ≠ ['.']) := by tauto
      rw [if_neg hs', if_pos hs]
      simp
    · have hs' : afterLast isSep full ≠ [] ∧ afterLast isSep full ≠ ['.'] := by tauto
      rw [if_pos hs', if_neg hs]
      simp

/-- The kind of a path is no more than a shortcut to its candidates. -/
theorem potentialsOf_extKind (full : Str) (exts : List Str) :
    potentialsOf full (extKind (some full)) exts = buildPotentials full exts := by
  unfold potentialsOf
  split_ifs with hk
  · rfl
  · unfold buildPotentials
    by_cases hd : '.' ∈ afterLast isSep full
    · rw [if_neg (fun h => by simp [h, afterLast, rsplit] at hd)]
      exact (if_pos hd).symm
    · exact absurd (extKind_eq_none hd) hk

theorem full_eq (reference : Option Str) (base : Str) :
    (resolvePathSpec reference base).full.getD [] =
      (Go.resolvePathSpec (reference.getD []) base).full := by
  unfold resolvePathSpec Go.resolvePathSpec
  cases reference with
  | none => simp
  | some path =>
    cases path with
    | nil => simp
    | cons c path =>
      by_cases hc : isSep c = true
      · simp [hc]
      · by_cases hb : base = [] <;> simp [hc, hb]

/-! ## The searches -/

theorem find?_eq_firstLoaded (load : Str → Option Str) (candidates : List Str) :
    (candidates.find? fun p => (load p).isSome) = (firstLoaded load candidates).map Prod.fst := by
  induction candidates with
  | nil => rfl
  | cons p candidates ih =>
    rw [List.find?_cons, firstLoaded]
    cases h : load p with
    | none => simpa using ih
    | some src => simp

/-- What a resolution found. -/
def hit (r : Resolution) : Option (Str × Str) :=
  if r.found then some (r.spec.full.getD [], r.src.getD []) else none

def goHit (r : Go.Resolution) : Option (Str × Str) :=
  if r.found then some (r.full, r.src) else none

theorem hit_resolveFirst (load : Str → Option Str) (spec : PathSpec)
    (candidates search : List Str) :
    hit (resolveFirst load spec candidates search) = firstLoaded load candidates := by
  unfold resolveFirst
  cases firstLoaded load candidates <;> rfl

theorem goHit_memResolver (spec : Go.PathSpec) (opts : Go.Options) :
    goHit (Go.memResolver files spec opts) =
      firstLoaded files.get (Go.buildPotentials spec.full opts.implicitExt) := by
  unfold Go.memResolver
  dsimp only
  rw [find?_eq_firstLoaded]
  cases h : firstLoaded files.get (Go.buildPotentials spec.full opts.implicitExt) with
  | none => rfl
  | some found =>
    obtain ⟨p, src⟩ := found
    obtain ⟨pre, post, -, -, hl⟩ := firstLoaded_eq_some h
    simp [goHit, hl]

theorem hit_resolve (reference : Option Str) (input : ResolverInput) :
    hit ((MapResolver.mk files).resolve reference input) =
      firstLoaded files.get (buildPotentials
        ((resolvePathSpec reference
          (baseFor input (fun path => (files.get path).isSome) sourceDir)).full.getD [])
        input.options.implicitExt) := by
  unfold MapResolver.resolve
  dsimp only
  cases hf : (resolvePathSpec reference
      (baseFor input (fun path => (files.get path).isSome) sourceDir)).full with
  | none => rfl
  | some full =>
    have hk : (resolvePathSpec reference
        (baseFor input (fun path => (files.get path).isSome) sourceDir)).kind =
        extKind (some full) := by
      rw [← hf]
      rfl
    dsimp only
    rw [hk, hit_resolveFirst, potentialsOf_extKind, Option.getD_some]

/-! ## The bases -/

/-- The base by the canonical rule: the folder of a base path that is a source, else the path. -/
def canonicalBase (files : Entries Str) (raw : Str) : Str :=
  if (files.get raw).isSome then sourceDir raw else raw

/-- The base path of a reference: from the metadata, else from the options. -/
def basePath (input : ResolverInput) : Str :=
  (sourcePath input.parseMeta).getD input.options.path

theorem rust_base (input : ResolverInput) :
    baseFor input (fun path => (files.get path).isSome) sourceDir =
      canonicalBase files (basePath input) := by
  unfold baseFor canonicalBase basePath
  dsimp only
  by_cases h : (sourcePath input.parseMeta).getD input.options.path = []
  · rw [if_pos h, h]
    split_ifs <;> rfl
  · rw [if_neg h]

/-! ## The folder of a source -/

/-- The last character is a separator. -/
def EndsInSep (p : Str) : Prop := p.getLast?.any isSep = true

instance : DecidablePred EndsInSep := fun _ => inferInstanceAs (Decidable (_ = true))

theorem endsInSep_iff {p : Str} : EndsInSep p ↔ ∃ q c, p = q ++ [c] ∧ isSep c = true := by
  unfold EndsInSep
  rw [Option.any_eq_true]
  constructor
  · rintro ⟨c, hl, hc⟩
    obtain ⟨q, rfl⟩ := List.getLast?_eq_some_iff.mp hl
    exact ⟨q, c, rfl, hc⟩
  · rintro ⟨q, c, rfl, hc⟩
    exact ⟨c, List.getLast?_concat, hc⟩

theorem trimEnd_concat {q : Str} {c : Char} (hc : isSep c = true) :
    trimEnd isSep (q ++ [c]) = trimEnd isSep q := List.rdropWhile_concat_pos isSep q c hc

theorem trimEnd_eq_self {p : Str} (h : ¬ EndsInSep p) : trimEnd isSep p = p := by
  apply List.rdropWhile_eq_self_iff.mpr
  intro hp hl
  apply h
  exact endsInSep_iff.mpr ⟨p.dropLast, p.getLast hp, (List.dropLast_append_getLast hp).symm, hl⟩

theorem not_endsInSep_trimEnd (p : Str) : ¬ EndsInSep (trimEnd isSep p) := by
  intro hs
  obtain ⟨q, c, he, hc⟩ := endsInSep_iff.mp hs
  have hne : List.rdropWhile isSep p ≠ [] := by
    show trimEnd isSep p ≠ []
    rw [he]
    simp
  have hlast := List.rdropWhile_last_not isSep p hne
  have : (List.rdropWhile isSep p).getLast hne = c := by
    have he' : List.rdropWhile isSep p = q ++ [c] := he
    simp [he']
  rw [this] at hlast
  exact hlast hc

theorem length_trimEnd_le (p : Str) : (trimEnd isSep p).length ≤ p.length :=
  (List.rdropWhile_prefix isSep p).length_le

/-- The folder of a path that does not end in a separator is shorter. -/
theorem length_goSourceDir_lt {p : Str} (hp : p ≠ []) (h : ¬ EndsInSep p) :
    (Go.sourceDir p).length < p.length := by
  unfold Go.sourceDir
  cases hr : rsplit isSep p with
  | none =>
    show 0 < p.length
    exact List.length_pos_of_ne_nil hp
  | some ab =>
    obtain ⟨dir, seg⟩ := ab
    obtain ⟨c, hc, he, -⟩ := rsplit_eq_some hr
    have hseg : seg ≠ [] := by
      rintro rfl
      exact h (endsInSep_iff.mpr ⟨dir, c, he, hc⟩)
    have hlen := List.length_pos_of_ne_nil hseg
    cases dir with
    | nil =>
      show (p.take 1).length < p.length
      rw [he]
      simp only [List.nil_append, List.length_take, List.length_cons]
      omega
    | cons d dir =>
      show (d :: dir).length < p.length
      rw [he]
      simp

theorem goSourceDir_concat {q : Str} {c : Char} (hc : isSep c = true) :
    Go.sourceDir (q ++ [c]) = if q = [] then [c] else q := by
  unfold Go.sourceDir
  rw [rsplit_append_cons hc (by simp)]
  cases q <;> rfl

theorem sourceDir_eq (p : Str) : sourceDir p = Go.sourceDir (trimEnd isSep p) := rfl

theorem sourceDir_eq_goSourceDir {p : Str} (h : ¬ EndsInSep p) : sourceDir p = Go.sourceDir p := by
  rw [sourceDir_eq, trimEnd_eq_self h]

theorem sourceDir_ne_goSourceDir {p : Str} (h : EndsInSep p) : sourceDir p ≠ Go.sourceDir p := by
  obtain ⟨q, c, rfl, hc⟩ := endsInSep_iff.mp h
  intro he
  rw [sourceDir_eq, trimEnd_concat hc, goSourceDir_concat hc] at he
  have hlen := congrArg List.length he
  by_cases ht : trimEnd isSep q = []
  · rw [ht] at hlen
    split_ifs at hlen with hq
    · simp [Go.sourceDir, rsplit] at hlen
    · exact hq (List.length_eq_zero_iff.mp hlen.symm)
  · have hlt := length_goSourceDir_lt ht (not_endsInSep_trimEnd q)
    have hle := length_trimEnd_le q
    split_ifs at hlen with hq
    · exact ht (by rw [hq]; rfl)
    · omega

theorem length_sourceDir_lt {p : Str} (hp : p ≠ []) : (sourceDir p).length < p.length := by
  have hle := length_trimEnd_le p
  rw [sourceDir_eq]
  by_cases ht : trimEnd isSep p = []
  · rw [ht]
    exact List.length_pos_of_ne_nil hp
  · exact lt_of_lt_of_le (length_goSourceDir_lt ht (not_endsInSep_trimEnd p)) hle

theorem sourceDir_eq_self {p : Str} : sourceDir p = p ↔ p = [] := by
  constructor
  · intro h
    by_contra hp
    have := length_sourceDir_lt hp
    rw [h] at this
    omega
  · rintro rfl
    rfl

theorem goSourceDir_eq_self {p : Str} (hp : p ≠ []) :
    Go.sourceDir p = p ↔ ∃ c, isSep c = true ∧ p = [c] := by
  constructor
  · intro h
    by_cases he : EndsInSep p
    · obtain ⟨q, c, rfl, hc⟩ := endsInSep_iff.mp he
      rw [goSourceDir_concat hc] at h
      have hlen := congrArg List.length h
      split_ifs at hlen with hq
      · exact ⟨c, hc, by rw [hq]; rfl⟩
      · simp at hlen
    · have := length_goSourceDir_lt hp he
      rw [h] at this
      omega
  · rintro ⟨c, hc, rfl⟩
    exact goSourceDir_concat (q := []) hc

/-! ## Both ports -/

/-- What Go is given of the same options. -/
def goOptions (options : MultiSourceOptions) : Go.Options := ⟨options.path, options.implicitExt⟩

/-- Both ports resolve a reference against the canonical base, and agree on what they find. -/
structure SameBase (files : Entries Str) (input : ResolverInput) (goMeta : Go.Meta)
    (reference : Option Str) : Prop where
  go_base : Go.baseFor (goOptions input.options) goMeta = canonicalBase files (basePath input)
  rust_base : baseFor input (fun path => (files.get path).isSome) sourceDir =
    canonicalBase files (basePath input)
  found : (Go.resolve files (goOptions input.options) (reference.getD []) goMeta).found =
    ((MapResolver.mk files).resolve reference input).found
  source : ((MapResolver.mk files).resolve reference input).found = true →
    ((MapResolver.mk files).resolve reference input).spec.full =
        some (Go.resolve files (goOptions input.options) (reference.getD []) goMeta).full ∧
      ((MapResolver.mk files).resolve reference input).src =
        some (Go.resolve files (goOptions input.options) (reference.getD []) goMeta).src

/-- What Go takes the base path for is what it is: an option is a folder, and metadata a source. -/
def ReadAsIs (files : Entries Str) (input : ResolverInput) : Prop :=
  match sourcePath input.parseMeta with
  | none => input.options.path = [] ∨ files.get input.options.path = none
  | some [] => input.options.path = []
  | some (c :: path) =>
    (files.get (c :: path)).isSome = true ∧ ¬ EndsInSep (c :: path) ∨
      files.get (c :: path) = none ∧ isSep c = true ∧ path = []

theorem canonicalBase_eq_self {raw : Str} :
    raw = canonicalBase files raw ↔ raw = [] ∨ files.get raw = none := by
  unfold canonicalBase
  split_ifs with h
  · rw [eq_comm, sourceDir_eq_self]
    refine (or_iff_left fun hn => ?_).symm
    rw [hn] at h
    cases h
  · exact iff_of_true rfl (.inr (Option.not_isSome_iff_eq_none.mp h))

theorem go_base_iff {input : ResolverInput} {goMeta : Go.Meta}
    (h : Go.metaSourcePath goMeta = (sourcePath input.parseMeta).getD []) :
    Go.baseFor (goOptions input.options) goMeta = canonicalBase files (basePath input) ↔
      ReadAsIs files input := by
  unfold Go.baseFor basePath ReadAsIs
  rw [h]
  cases hp : sourcePath input.parseMeta with
  | none => exact canonicalBase_eq_self
  | some path =>
    cases path with
    | nil =>
      have hroot : canonicalBase files [] = [] := by
        unfold canonicalBase
        split_ifs <;> rfl
      show input.options.path = canonicalBase files [] ↔ input.options.path = []
      rw [hroot]
    | cons c path =>
      show Go.sourceDir (c :: path) = canonicalBase files (c :: path) ↔ _
      unfold canonicalBase
      dsimp only
      cases hg : files.get (c :: path) with
      | some src =>
        rw [if_pos Option.isSome_some, eq_comm]
        simp only [Option.isSome_some, true_and, reduceCtorEq, false_and, or_false]
        exact ⟨fun he hs => sourceDir_ne_goSourceDir hs he, sourceDir_eq_goSourceDir⟩
      | none =>
        rw [if_neg (by simp), goSourceDir_eq_self (List.cons_ne_nil _ _)]
        simp

/-- Go and Rust resolve against the same base, and so find the same source, exactly if Go reads the
base path as what it is. -/
theorem same_base_iff (files : Entries Str) (input : ResolverInput) (goMeta : Go.Meta)
    (reference : Option Str)
    (h : Go.metaSourcePath goMeta = (sourcePath input.parseMeta).getD []) :
    SameBase files input goMeta reference ↔ ReadAsIs files input := by
  rw [← go_base_iff h]
  refine ⟨SameBase.go_base, fun hb => ?_⟩
  have hhit : goHit (Go.resolve files (goOptions input.options) (reference.getD []) goMeta) =
      hit ((MapResolver.mk files).resolve reference input) := by
    unfold Go.resolve Go.Resolver.resolve
    rw [goHit_memResolver, hit_resolve, hb, rust_base, ← full_eq, goBuildPotentials_eq]
    rfl
  unfold goHit hit at hhit
  refine ⟨hb, rust_base input, ?_, fun hf => ?_⟩
  · split_ifs at hhit with hg hr hr
    · rw [hg, hr]
    · rw [Bool.not_eq_true] at hg hr
      rw [hg, hr]
  · obtain ⟨spec, full, src, search, -, he⟩ := MapResolver.resolve_found hf
    rw [hf, if_pos rfl] at hhit
    split_ifs at hhit with hg
    rw [he] at hhit ⊢
    simp only [Resolution.ofFound, Resolution.withSearch, Option.getD_some, Option.some.injEq,
      Prod.mk.injEq] at hhit ⊢
    exact ⟨hhit.1.symm, hhit.2.symm⟩

/-- Metadata naming a path, for each port. -/
def metaAt (path : Str) : Value :=
  .object [(RULE_NAME, .object [("path".toList, .string path)])]

def goMetaAt (path : Str) : Go.Meta :=
  [("multisource".toList, .map [("path".toList, .string path)])]

theorem same_base_nested :
    SameBase [("b/a.json".toList, []), ("b/c.json".toList, "1".toList)]
      ⟨.new, metaAt "b/a.json".toList⟩ (goMetaAt "b/a.json".toList) (some "c".toList) :=
  (same_base_iff _ _ _ _ rfl).mpr (.inl ⟨rfl, by decide⟩)

/-- A folder given for one parse is not Go's base. -/
theorem folder_in_metadata_is_dropped : ¬ SameBase [("data/a.json".toList, "1".toList)]
    ⟨.new, metaAt "data".toList⟩ (goMetaAt "data".toList) (some "a.json".toList) := by
  intro h
  have hfound := h.found
  revert hfound
  decide

end MultiSource.Ports
