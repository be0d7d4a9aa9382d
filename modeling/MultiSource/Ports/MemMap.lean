import MultiSource.Ports.Inherited

/-!
# The in-memory resolvers of the canonical port and of Rust

Both try the same candidates in the same order, up to two things: what an ordinary object answers to
besides its keys, and the folder of a reference that ends in a separator.
-/

namespace MultiSource.Ports

open Ts (inheritedNames Property)
open Ts.MemResolver (lookup firstProperty firstProperty_cons firstProperty_eq_none
  firstProperty_mem)

variable {files : Entries Str}

/-! ## The same full path -/

/-- The index files after the folder of a reference that ends in a separator. Rust names none. -/
def folderIndexes (reference full : Str) (exts : List Str) : List Str :=
  if EndsInSep reference then namedIndexes reference full exts else []

theorem afterLast_endsInSep {p : Str} (h : EndsInSep p) : afterLast isSep p = [] := by
  obtain ⟨q, c, rfl, hc⟩ := endsInSep_iff.mp h
  exact afterLast_append_cons hc (by simp)

theorem afterLast_ne_nil {p : Str} (hp : p ≠ []) (h : ¬ EndsInSep p) : afterLast isSep p ≠ [] := by
  unfold afterLast
  cases hr : rsplit isSep p with
  | none => exact hp
  | some ab =>
    obtain ⟨dir, seg⟩ := ab
    obtain ⟨c, hc, he, -⟩ := rsplit_eq_some hr
    show seg ≠ []
    rintro rfl
    exact h (endsInSep_iff.mpr ⟨dir, c, he, hc⟩)

/-- The last segment of a reference is that of its full path. -/
theorem afterLast_below (base reference : Str) :
    afterLast isSep (base ++ '/' :: reference) = afterLast isSep reference := by
  cases hr : rsplit isSep reference with
  | none =>
    have hno := rsplit_eq_none.mp hr
    rw [afterLast_append_cons rfl hno, afterLast_of_forall hno]
  | some ab =>
    obtain ⟨dir, seg⟩ := ab
    obtain ⟨c, hc, he, hseg⟩ := rsplit_eq_some hr
    have he' : base ++ '/' :: reference = (base ++ '/' :: dir) ++ c :: seg := by simp [he]
    rw [he', afterLast_append_cons hc hseg, he, afterLast_append_cons hc hseg]

/-- With the same full path, the canonical resolver tries what Rust tries, and then some. -/
theorem canonicalCandidates_append {reference full : Str} (exts : List Str) (hf : full ≠ [])
    (hr : reference ≠ []) (hseg : afterLast isSep full = afterLast isSep reference) :
    canonicalCandidates reference full exts =
      buildPotentials full exts ++ folderIndexes reference full exts := by
  rw [canonicalCandidates_eq reference exts hf]
  unfold buildPotentials folderIndexes
  dsimp only
  rw [if_neg hf, hseg]
  by_cases hs : EndsInSep reference
  · rw [afterLast_endsInSep hs, if_neg List.not_mem_nil, if_neg List.not_mem_nil, if_pos hs,
      if_pos (.inl rfl)]
    simp
  · by_cases hd : '.' ∈ afterLast isSep reference
    · rw [if_pos hd, if_pos hd, if_neg hs]
      rfl
    · have hne := afterLast_ne_nil hr hs
      have hfolder : Ts.folderName reference = some (afterLast isSep reference) := by
        unfold Ts.folderName
        rw [trimEnd_eq_self hs]
        exact if_neg hne
      have hdot : afterLast isSep reference ≠ ['.'] := fun h => hd (by rw [h]; simp)
      unfold namedIndexes
      rw [if_neg hd, if_neg hd, if_neg hs, hfolder, if_neg (by tauto)]
      simp

/-! ## Both resolvers -/

/-- What the canonical resolver is given of the same options. -/
def tsOptions (options : MultiSourceOptions) : Ts.Options :=
  Ts.Options.normalize ⟨some options.path, options.implicitExt⟩

/-- The base path as property lookup reads it. -/
def lookupBase (files : Entries Str) (raw : Str) : Str :=
  if lookup files raw = none then raw else sourceDir raw

/-- A resolution reports what a search found. -/
def Reports (r : Ts.Resolution Property) : Option (Str × Property) → Prop
  | none => r.found = false
  | some (p, src) => r.found = true ∧ r.full = some p ∧ r.kind = extKind (some p) ∧ r.src = some src

theorem Reports.found_eq {r : Ts.Resolution Property} {found : Option (Str × Property)}
    (h : Reports r found) : r.found = found.isSome := by
  cases found with
  | none => exact h
  | some q => exact h.1

theorem Reports.eq_some_iff {r : Ts.Resolution Property} {found : Option (Str × Property)}
    (h : Reports r found) {p : Str} {v : Property} :
    found = some (p, v) ↔ r.found = true ∧ r.full = some p ∧ r.src = some v := by
  cases found with
  | none =>
    have hf : r.found = false := h
    simp [hf]
  | some q =>
    obtain ⟨hf, hp, -, hv⟩ := h
    rw [hf, hp, hv, Option.some.injEq, Prod.ext_iff]
    simp

theorem Reports.kind_eq {r : Ts.Resolution Property} {p : Str} {v : Property}
    (h : Reports r (some (p, v))) : r.kind = extKind (some p) := h.2.2.1

theorem resolvefolder_eq (files : Entries Str) (raw : Str) :
    Ts.MemResolver.resolvefolder files (some raw) = .ok (some (lookupBase files raw)) := by
  unfold Ts.MemResolver.resolvefolder lookupBase
  dsimp only
  split_ifs <;> rfl

theorem ts_resolvePathSpec {objectText : Ts.ObjectText} {popts : Ts.Options} {ctx : Ts.Ctx}
    {reference base : Str} {resolvefolder : Option Str → Except Ts.Thrown (Option Str)}
    (h : resolvefolder (ctx.path <|> popts.path) = .ok (some base)) :
    Ts.resolvePathSpec objectText popts ctx (.string reference) resolvefolder =
      .ok
        { kind := extKind (resolvePathSpec (some reference) base).full
          path := some reference
          full := (resolvePathSpec (some reference) base).full
          base := some base
          abs := (resolvePathSpec (some reference) base).abs } := by
  unfold Ts.resolvePathSpec
  rw [h]
  simp only [bind, Except.bind, pure, Except.pure, Ts.specPath, ← Ts.extKind_eq]
  cases reference with
  | nil => rfl
  | cons c reference =>
    by_cases hc : isSep c = true
    · simp [resolvePathSpec, hc]
    · cases base <;> simp [resolvePathSpec, hc]

/-- What the canonical resolver finds. -/
theorem ts_resolve (objectText : Ts.ObjectText) (files : Entries Str) (path reference : Str)
    (exts : List Str) (metaPath : Option Str) :
    ∃ r, Ts.MemResolver.resolve files objectText ⟨some path, exts⟩ ⟨none, metaPath⟩
        (.string reference) = .ok r ∧
      Reports r ((resolvePathSpec (some reference)
        (lookupBase files (metaPath.getD path))).full.bind fun full =>
          firstProperty files (canonicalCandidates reference full exts)) := by
  have hraw : (metaPath <|> some path) = some (metaPath.getD path) := by cases metaPath <;> rfl
  have hspec : Ts.resolvePathSpec objectText ⟨some path, exts⟩ ⟨none, metaPath⟩
      (.string reference) (Ts.MemResolver.resolvefolder files) = _ :=
    ts_resolvePathSpec (by rw [hraw, resolvefolder_eq])
  unfold Ts.MemResolver.resolve
  rw [hspec]
  generalize (resolvePathSpec (some reference) (lookupBase files (metaPath.getD path))).abs = abs
  cases hf : (resolvePathSpec (some reference) (lookupBase files (metaPath.getD path))).full with
  | none => exact ⟨_, rfl, rfl⟩
  | some full =>
    rw [Option.bind_some]
    unfold canonicalCandidates
    rw [firstProperty_cons]
    simp only [bind, Except.bind]
    cases hl : lookup files full with
    | some src => exact ⟨_, rfl, rfl, rfl, rfl, rfl⟩
    | none =>
      dsimp only
      by_cases hk : extKind (some full) = NONE
      · rw [if_pos hk]
        show ∃ r, _ = _ ∧ Reports r (firstProperty files (Ts.buildPotentials
          { kind := extKind (some full), path := some reference, full := some full,
            base := some (lookupBase files (metaPath.getD path)), abs }
          ⟨some path, exts⟩ Ts.MemResolver.pathjoin))
        cases firstProperty files (Ts.buildPotentials
          { kind := extKind (some full), path := some reference, full := some full,
            base := some (lookupBase files (metaPath.getD path)), abs }
          ⟨some path, exts⟩ Ts.MemResolver.pathjoin) with
        | none => exact ⟨_, rfl, rfl⟩
        | some found => exact ⟨_, rfl, rfl, rfl, rfl, rfl⟩
      · have hd : '.' ∈ afterLast isSep full := by
          by_contra hd
          exact hk (extKind_eq_none hd)
        rw [if_neg hk]
        refine ⟨_, rfl, ?_⟩
        unfold Ts.buildPotentials
        dsimp only
        rw [if_pos (.inr hd)]
        rfl

theorem rust_search (files : Entries Str) (reference : Str) (input : ResolverInput) :
    hit ((MapResolver.mk files).resolve (some reference) input) =
      (resolvePathSpec (some reference) (canonicalBase files (basePath input))).full.bind
        fun full => firstLoaded files.get (buildPotentials full input.options.implicitExt) := by
  rw [hit_resolve, rust_base]
  cases (resolvePathSpec (some reference) (canonicalBase files (basePath input))).full <;> rfl

/-- The two in-memory resolvers agree on a reference, and find only keys. -/
def SameFind (objectText : Ts.ObjectText) (files : Entries Str) (options : MultiSourceOptions)
    (parseMeta : Value) (reference : Str) : Prop :=
  let rust := (MapResolver.mk files).resolve (some reference) ⟨options.normalize, parseMeta⟩
  ∃ r, Ts.MemResolver.resolve files objectText (tsOptions options) ⟨none, sourcePath parseMeta⟩
      (.string reference) = .ok r ∧
    r.found = rust.found ∧
    (rust.found = true →
      r.full = rust.spec.full ∧ r.kind = rust.spec.kind ∧ r.src = rust.src.map .text) ∧
    ∀ full, r.found = true ∧ r.full = some full ∨ rust.found = true ∧ rust.spec.full = some full →
      (files.get full).isSome = true

/-- What the canonical resolver finds in one map. -/
def canonicalSearch (files : Entries Str) (options : MultiSourceOptions) (parseMeta : Value)
    (reference : Str) : Option (Str × Property) :=
  (resolvePathSpec (some reference)
    (lookupBase files (basePath ⟨options, parseMeta⟩))).full.bind fun full =>
      firstProperty files (canonicalCandidates reference full options.normalize.implicitExt)

/-- What Rust finds. -/
def rustSearch (files : Entries Str) (options : MultiSourceOptions) (parseMeta : Value)
    (reference : Str) : Option (Str × Str) :=
  (resolvePathSpec (some reference)
    (canonicalBase files (basePath ⟨options, parseMeta⟩))).full.bind fun full =>
      firstLoaded files.get (buildPotentials full options.normalize.implicitExt)

section Agreement

variable {objectText : Ts.ObjectText} {options : MultiSourceOptions} {parseMeta : Value}
  {reference : Str}

theorem same_find_iff_search : SameFind objectText files options parseMeta reference ↔
    canonicalSearch files options parseMeta reference =
      (rustSearch files options parseMeta reference).map fun q => (q.1, .text q.2) := by
  have hrust : hit ((MapResolver.mk files).resolve (some reference)
      ⟨options.normalize, parseMeta⟩) = rustSearch files options parseMeta reference :=
    rust_search files reference _
  obtain ⟨r, hr, hreports⟩ := ts_resolve objectText files options.path reference
    options.normalize.implicitExt (sourcePath parseMeta)
  change Reports r (canonicalSearch files options parseMeta reference) at hreports
  have hr' : ∀ r', Ts.MemResolver.resolve files objectText (tsOptions options)
      ⟨none, sourcePath parseMeta⟩ (.string reference) = .ok r' → r = r' := by
    intro r' h
    exact Except.ok.inj (hr.symm.trans h)
  unfold SameFind
  dsimp only
  generalize hm : (MapResolver.mk files).resolve (some reference)
    ⟨options.normalize, parseMeta⟩ = rust at hrust ⊢
  cases hfound : rust.found with
  | false =>
    have hnone : rustSearch files options parseMeta reference = none := by
      rw [← hrust, hit, hfound]
      rfl
    rw [hnone, Option.map_none, ← Option.not_isSome_iff_eq_none, ← hreports.found_eq,
      Bool.not_eq_true]
    constructor
    · rintro ⟨r', h, hf, -⟩
      obtain rfl := hr' r' h
      exact hf
    · intro hf
      exact ⟨r, hr, hf, by simp, by simp [hf]⟩
  | true =>
    rw [← hm] at hfound
    obtain ⟨spec, full, src, search, hget, he⟩ := MapResolver.resolve_found hfound
    have hkey : (files.get full).isSome = true := by
      rw [show files.get full = some src from hget]
      rfl
    rw [hm] at hfound he
    have hsome : rustSearch files options parseMeta reference = some (full, src) := by
      rw [← hrust, hit, hfound, if_pos rfl, he]
      rfl
    rw [hsome, Option.map_some, he]
    constructor
    · rintro ⟨r', h, hf, hsame, -⟩
      obtain rfl := hr' r' h
      obtain ⟨hp, -, hv⟩ := hsame rfl
      exact hreports.eq_some_iff.mpr ⟨hf, hp, hv⟩
    · intro hs
      obtain ⟨hf, hp, hv⟩ := hreports.eq_some_iff.mp hs
      rw [hs] at hreports
      refine ⟨r, hr, hf, fun _ => ⟨hp, hreports.kind_eq, hv⟩, ?_⟩
      rintro full' (⟨-, h⟩ | ⟨-, h⟩)
      · rwa [← Option.some.inj (hp.symm.trans h)]
      · rwa [← Option.some.inj (show some full = some full' from h)]

end Agreement

/-! ## When they agree -/

/-- A reference that is put after its base. -/
def IsRelative (reference : Str) : Prop := reference ≠ [] ∧ reference.head?.any isSep = false

instance : DecidablePred IsRelative := fun _ => inferInstanceAs (Decidable (_ ∧ _))

theorem dotted_ext (options : MultiSourceOptions) :
    ∀ ext ∈ options.normalize.implicitExt, ∃ t, ext = '.' :: t := by
  intro ext he
  obtain ⟨e, -, rfl⟩ := List.mem_map.mp he
  split_ifs with h
  · cases e with
    | nil => cases h
    | cons c e => exact ⟨e, by rw [Option.some.inj h]⟩
  · exact ⟨e, rfl⟩

theorem full_of_relative {reference : Str} (h : IsRelative reference) (base : Str) :
    (resolvePathSpec (some reference) base).full =
      some (if base = [] then reference else base ++ '/' :: reference) := by
  obtain ⟨hne, hsep⟩ := h
  cases reference with
  | nil => exact absurd rfl hne
  | cons c reference =>
    have hc : isSep c = false := hsep
    unfold resolvePathSpec
    dsimp only
    rw [hc, if_neg Bool.false_ne_true, if_neg hne]

/-- A reference that is not relative ignores its base. -/
theorem full_of_not_relative {reference : Str} (h : ¬ IsRelative reference) (base base' : Str) :
    (resolvePathSpec (some reference) base).full =
      (resolvePathSpec (some reference) base').full := by
  cases reference with
  | nil => rfl
  | cons c reference =>
    have hc : isSep c = true := by
      by_contra hc
      exact h ⟨List.cons_ne_nil _ _, by simpa using hc⟩
    unfold resolvePathSpec
    dsimp only
    rw [if_pos hc, if_pos hc]

theorem full_facts {reference base full : Str}
    (h : (resolvePathSpec (some reference) base).full = some full) :
    full ≠ [] ∧ reference ≠ [] ∧ afterLast isSep full = afterLast isSep reference := by
  by_cases hr : IsRelative reference
  · rw [full_of_relative hr] at h
    obtain rfl := Option.some.inj h
    split_ifs with hb
    · exact ⟨hr.1, hr.1, rfl⟩
    · exact ⟨by simp, hr.1, afterLast_below base reference⟩
  · rw [full_of_not_relative hr base []] at h
    cases reference with
    | nil => cases h
    | cons c reference =>
      have hc : isSep c = true := by
        by_contra hc
        exact hr ⟨List.cons_ne_nil _ _, by simpa using hc⟩
      unfold resolvePathSpec at h
      dsimp only at h
      rw [if_pos hc] at h
      obtain rfl := Option.some.inj h
      exact ⟨List.cons_ne_nil _ _, List.cons_ne_nil _ _, rfl⟩

theorem lookupBase_of_not_inherited {raw : Str} (h : ¬ Inherited files raw) :
    lookupBase files raw = canonicalBase files raw := by
  unfold lookupBase canonicalBase
  rw [lookup_of_not_inherited h]
  cases files.get raw <;> rfl

theorem lookupBase_of_inherited {raw : Str} (h : Inherited files raw) :
    lookupBase files raw = [] ∧ canonicalBase files raw = raw ∧ raw ≠ [] := by
  have hne : raw ≠ [] := by
    rintro rfl
    exact absurd h.1 (by decide)
  have hdir : sourceDir raw = [] := by
    have hno : rsplit isSep raw = none :=
      rsplit_eq_none.mpr fun c hc => (inherited_chars raw h.1 c hc).2
    have hend : ¬ EndsInSep raw := by
      intro he
      obtain ⟨q, c, rfl, hc⟩ := endsInSep_iff.mp he
      rw [(inherited_chars _ h.1 c (by simp)).2] at hc
      cases hc
    rw [sourceDir_eq_goSourceDir hend]
    unfold Go.sourceDir
    rw [hno]
  unfold lookupBase canonicalBase
  rw [lookup_of_inherited h, h.2, if_neg (by simp), if_neg (by simp), hdir]
  exact ⟨rfl, rfl, hne⟩

/-- The reference and its base keep clear of the names every object inherits, and the reference does
not reach a folder index by its trailing separator. -/
def PlainLookup (files : Entries Str) (options : MultiSourceOptions) (parseMeta : Value)
    (reference : Str) : Prop :=
  let exts := options.normalize.implicitExt
  let raw := basePath ⟨options, parseMeta⟩
  if Inherited files raw ∧ IsRelative reference then
    (∀ p ∈ canonicalCandidates reference reference exts, lookup files p = none) ∧
      ∀ p ∈ buildPotentials (raw ++ '/' :: reference) exts, files.get p = none
  else
    ∀ full, (resolvePathSpec (some reference) (canonicalBase files raw)).full = some full →
      ¬ Inherited files full ∧
        ((∀ p ∈ folderIndexes reference full exts, files.get p = none) ∨
          ∃ p ∈ buildPotentials full exts, (files.get p).isSome = true)

/-- With one full path, the searches agree if it is no inherited name and the extra index files make
no difference. -/
theorem searches_agree_iff {reference full : Str} {exts : List Str}
    (hexts : ∀ ext ∈ exts, ∃ t, ext = '.' :: t) (hf : full ≠ []) (hr : reference ≠ [])
    (hseg : afterLast isSep full = afterLast isSep reference) :
    firstProperty files (canonicalCandidates reference full exts) =
        (firstLoaded files.get (buildPotentials full exts)).map (fun q => (q.1, .text q.2)) ↔
      ¬ Inherited files full ∧
        ((∀ p ∈ folderIndexes reference full exts, files.get p = none) ∨
          ∃ p ∈ buildPotentials full exts, (files.get p).isSome = true) := by
  by_cases hi : Inherited files full
  · refine iff_of_false (fun he => ?_) fun h => h.1 hi
    unfold canonicalCandidates at he
    rw [firstProperty_cons, lookup_of_inherited hi] at he
    obtain ⟨q, -, hq⟩ := Option.map_eq_some_iff.mp he.symm
    cases (Prod.mk.inj hq).2
  · have hplain : ∀ p ∈ canonicalCandidates reference full exts, ¬ Inherited files p := by
      intro p hp
      rcases List.mem_cons.mp hp with rfl | hp
      · exact hi
      · refine not_inherited_of_dot (dot_mem_of_mem_candidates hf (fun ext he => ?_) p hp)
        obtain ⟨t, rfl⟩ := hexts ext he
        exact List.mem_cons_self ..
    have hinj : Function.Injective (fun q : Str × Str => (q.1, Property.text q.2)) := by
      rintro ⟨p, src⟩ ⟨p', src'⟩ h
      obtain ⟨hp, hsrc⟩ := Prod.mk.inj h
      exact Prod.ext hp (Property.text.inj hsrc)
    rw [firstProperty_eq hplain, (Option.map_injective hinj).eq_iff, and_iff_right hi,
      canonicalCandidates_append exts hf hr hseg, firstLoaded_append]
    cases hs : firstLoaded files.get (buildPotentials full exts) with
    | some q =>
      obtain ⟨pre, post, he, -, hl⟩ := firstLoaded_eq_some (show _ = some (q.1, q.2) from hs)
      refine iff_of_true rfl (.inr ⟨q.1, ?_, ?_⟩)
      · rw [he]
        simp
      · rw [hl]
        rfl
    | none =>
      have hnone := firstLoaded_eq_none hs
      rw [Option.none_or, firstLoaded_eq_none_iff, or_iff_left]
      rintro ⟨p, hp, h⟩
      rw [hnone p hp] at h
      cases h

/-- A base that is an inherited name puts the two searches in different places. -/
theorem apart_iff {raw reference : Str} {exts : List Str}
    (hexts : ∀ ext ∈ exts, ∃ t, ext = '.' :: t) (hi : Inherited files raw)
    (hr : reference ≠ []) :
    firstProperty files (canonicalCandidates reference reference exts) =
        (firstLoaded files.get (buildPotentials (raw ++ '/' :: reference) exts)).map
          (fun q => (q.1, .text q.2)) ↔
      (∀ p ∈ canonicalCandidates reference reference exts, lookup files p = none) ∧
        ∀ p ∈ buildPotentials (raw ++ '/' :: reference) exts, files.get p = none := by
  rw [← firstProperty_eq_none, ← firstLoaded_eq_none_iff]
  constructor
  · intro he
    cases hs : firstLoaded files.get (buildPotentials (raw ++ '/' :: reference) exts) with
    | none =>
      rw [hs] at he
      exact ⟨he, rfl⟩
    | some q =>
      exfalso
      rw [hs, Option.map_some] at he
      obtain ⟨hmem, -⟩ := firstProperty_mem he
      obtain ⟨pre, post, hp, -, -⟩ := firstLoaded_eq_some (show _ = some (q.1, q.2) from hs)
      have hq : q.1 ∈ buildPotentials (raw ++ '/' :: reference) exts := by
        rw [hp]
        simp
      obtain ⟨t, ht⟩ := extends_of_mem_buildPotentials hq
      obtain ⟨s, hs, hs'⟩ := suffix_of_mem_candidates hexts hr hmem
      rw [hs', List.append_assoc, List.cons_append] at ht
      exact below_inherited_ne hi.1 hs reference ht
  · rintro ⟨h₁, h₂⟩
    rw [h₁, h₂]
    rfl

/-- The in-memory resolvers of the canonical port and of Rust agree exactly on the references that
are looked up plainly. -/
theorem same_find_iff (objectText : Ts.ObjectText) (files : Entries Str)
    (options : MultiSourceOptions) (parseMeta : Value) (reference : Str) :
    SameFind objectText files options parseMeta reference ↔
      PlainLookup files options parseMeta reference := by
  rw [same_find_iff_search]
  unfold canonicalSearch rustSearch PlainLookup
  dsimp only
  split_ifs with h
  · obtain ⟨hi, hr⟩ := h
    obtain ⟨hlookup, hcanon, hne⟩ := lookupBase_of_inherited hi
    rw [hlookup, hcanon, full_of_relative hr, full_of_relative hr, if_pos rfl, if_neg hne]
    exact apart_iff (dotted_ext options) hi hr.1
  · have hfull : (resolvePathSpec (some reference)
        (lookupBase files (basePath ⟨options, parseMeta⟩))).full =
        (resolvePathSpec (some reference)
          (canonicalBase files (basePath ⟨options, parseMeta⟩))).full := by
      by_cases hr : IsRelative reference
      · rw [lookupBase_of_not_inherited fun hi => h ⟨hi, hr⟩]
      · exact full_of_not_relative hr _ _
    rw [hfull]
    cases hf : (resolvePathSpec (some reference)
        (canonicalBase files (basePath ⟨options, parseMeta⟩))).full with
    | none => simp
    | some full =>
      obtain ⟨hne, hr, hseg⟩ := full_facts hf
      rw [Option.bind_some, Option.bind_some, searches_agree_iff (dotted_ext options) hne hr hseg]
      simp

/-- An empty map answers to the name of a method. -/
theorem constructor_is_found :
    ¬ SameFind (fun _ => .ok []) [] .new .undefined "constructor".toList := by
  rintro ⟨r, hr, hf, -, -⟩
  cases hr
  cases hf

end MultiSource.Ports
