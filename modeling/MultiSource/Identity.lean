import MultiSource.Sandbox

/-!
# One identity for one stored file

A found path is canonical whichever route led to it: the routes start from clean paths, and what
they append to one, an extension or an index file, is again a last segment or one more segment.
-/

namespace MultiSource

open Segments

/-- No implicit extension holds a path separator. -/
def NoSeps (exts : List Str) : Prop := ∀ ext ∈ exts, ∀ c ∈ ext, isSep c = false

instance (exts : List Str) : Decidable (NoSeps exts) :=
  decidable_of_iff ((exts.all fun ext => ext.all fun c => !isSep c) = true) (by simp [NoSeps])

/-- After a name, an implicit extension is the rest of that name and then further names. -/
def KeepsClean (exts : List Str) : Prop :=
  ∀ ext ∈ exts, '\\' ∉ ext ∧ ∀ s ∈ (ext.splitOn '/').tail, Plain OsPath.blank isUp s

theorem not_isSep {c : Char} : isSep c = false ↔ c ≠ '/' ∧ c ≠ '\\' := by
  simp [isSep]

theorem IsSegment.not_sep {s : Str} (h : IsSegment s) : ∀ c ∈ s, isSep c = false := by
  intro c hc
  rw [not_isSep]
  constructor
  · rintro rfl
    exact h.2.1 hc
  · rintro rfl
    exact h.2.2 hc

theorem NoSeps.keepsClean {exts : List Str} (h : NoSeps exts) : KeepsClean exts := by
  intro ext he
  have hsep := fun c hc => not_isSep.mp (h ext he c hc)
  refine ⟨fun hb => (hsep _ hb).2 rfl, fun s hs => ?_⟩
  rw [List.splitOn_eq_singleton fun hb => (hsep _ hb).1 rfl] at hs
  exact absurd hs List.not_mem_nil

/-! ## Canonical potentials -/

/-- A text without separators whose first character is no dot is a segment. -/
theorem isSegment_cons {c : Char} {s : Str} (hc : c ≠ '.') (hs : ∀ x ∈ c :: s, isSep x = false) :
    IsSegment (c :: s) := by
  refine ⟨⟨?_, ?_⟩, fun h => ?_, fun h => ?_⟩
  · simp [OsPath.blank, hc]
  · simp [isUp, hc]
  · exact absurd (hs _ h) (by decide)
  · exact absurd (hs _ h) (by decide)

theorem clean_joined {parts : List Str} (hne : parts ≠ []) (h : ∀ s ∈ parts, IsSegment s) :
    clean (joined '/' parts) = joined '/' parts := by
  have hs := clean_spell h
  rwa [spell, if_neg hne] at hs

/-- A clean path with a last segment that holds no dot, by its segments. -/
theorem clean_cases {full : Str} (hf : clean full = full) (hd : '.' ∉ afterLast isSep full) :
    ∃ init s, (∀ t ∈ init ++ [s], IsSegment t) ∧ full = joined '/' (init ++ [s]) ∧
      afterLast isSep full = s ∧ '.' ∉ s := by
  by_cases h : cleanSegments full = []
  · rw [← hf, clean_eq_dot.mpr h] at hd
    exact absurd hd (by decide)
  · obtain ⟨init, s, hs⟩ : ∃ init s, cleanSegments full = init ++ [s] :=
      ⟨_, _, (List.dropLast_append_getLast h).symm⟩
    have hseg : ∀ t ∈ init ++ [s], IsSegment t := fun t ht => isSegment_of_mem_clean (hs ▸ ht)
    have hfull : full = joined '/' (init ++ [s]) := by rw [← hs, ← clean_of_ne_nil h, hf]
    have hlast : afterLast isSep full = s := by
      have hns := (hseg s (by simp)).not_sep
      rw [hfull]
      by_cases hi : init = []
      · rw [hi, List.nil_append, joined_singleton]
        exact afterLast_of_forall hns
      · rw [joined_append hi (List.cons_ne_nil _ _), joined_singleton]
        exact afterLast_append_cons (by decide) hns
    exact ⟨init, s, hseg, hfull, hlast, hlast ▸ hd⟩

/-- An implicit extension after a last segment that starts with no dot leaves a clean path. -/
theorem clean_append_ext {init : List Str} {c : Char} {name ext : Str}
    (hseg : ∀ t ∈ init ++ [c :: name], IsSegment t) (hc : c ≠ '.') (hb : '\\' ∉ ext)
    (hplain : ∀ s ∈ (ext.splitOn '/').tail, Plain OsPath.blank isUp s) :
    clean (joined '/' (init ++ [c :: name]) ++ ext) = joined '/' (init ++ [c :: name]) ++ ext := by
  obtain ⟨first, rest, he⟩ := List.exists_cons_of_ne_nil (List.splitOn_ne_nil '/' ext)
  have hext : joined '/' (first :: rest) = ext := by rw [← he, joined_splitOn]
  have hslash : ∀ s ∈ first :: rest, '/' ∉ s := fun s hs => not_mem_of_mem_splitOn (he ▸ hs)
  have hback : ∀ s ∈ first :: rest, '\\' ∉ s := fun s hs hm =>
    hb (hext ▸ mem_joined_of_mem hs hm)
  rw [he] at hplain
  rw [← hext, joined_append_joined]
  apply clean_joined (by simp)
  intro t ht
  rcases List.mem_append.mp ht with ht | ht
  · exact hseg t (List.mem_append_left _ ht)
  rcases List.mem_cons.mp ht with rfl | ht
  · apply isSegment_cons hc
    intro x hx
    rcases List.mem_append.mp (show x ∈ (c :: name) ++ first from hx) with hx | hx
    · exact (hseg (c :: name) (by simp)).not_sep x hx
    · refine not_isSep.mpr ⟨?_, ?_⟩
      · rintro rfl
        exact hslash first (List.mem_cons_self ..) hx
      · rintro rfl
        exact hback first (List.mem_cons_self ..) hx
  · exact ⟨hplain t ht, hslash t (List.mem_cons_of_mem _ ht), hback t (List.mem_cons_of_mem _ ht)⟩

/-- An index file one segment below a clean path is clean. -/
theorem clean_append_index {init : List Str} {s name ext : Str}
    (hseg : ∀ t ∈ init ++ [s], IsSegment t) (hname : ∀ x ∈ name, isSep x = false)
    (hb : '\\' ∉ ext) (hplain : ∀ s ∈ (ext.splitOn '/').tail, Plain OsPath.blank isUp s) :
    let index := joined '/' (init ++ [s]) ++ "/index".toList ++ name ++ ext
    clean index = index := by
  intro index
  have hbelow : joined '/' ((init ++ [s]) ++ ['i' :: ("ndex".toList ++ name)]) =
      joined '/' (init ++ [s]) ++ '/' :: joined '/' ['i' :: ("ndex".toList ++ name)] :=
    joined_append (by simp) (List.cons_ne_nil _ _)
  have hindex : index = joined '/' ((init ++ [s]) ++ ['i' :: ("ndex".toList ++ name)]) ++ ext := by
    rw [hbelow, joined_singleton]
    simp [index]
  rw [hindex]
  refine clean_append_ext (fun t ht => ?_) (by decide) hb hplain
  rcases List.mem_append.mp ht with ht | ht
  · exact hseg t ht
  · rw [List.mem_singleton.mp ht]
    apply isSegment_cons (by decide)
    intro x hx
    rcases List.mem_append.mp (show x ∈ "index".toList ++ name from hx) with hx | hx
    · have hall : "index".toList.all (fun c => !isSep c) = true := by decide
      simpa using List.all_eq_true.mp hall x hx
    · exact hname x hx

/-- The potentials of a clean path are clean. -/
theorem clean_of_mem_buildPotentials {full : Str} {exts : List Str} (hf : clean full = full)
    (he : KeepsClean exts) {c : Str} (hc : c ∈ buildPotentials full exts) : clean c = c := by
  unfold buildPotentials at hc
  dsimp only at hc
  by_cases hn : full = []
  · rw [if_pos hn] at hc
    exact absurd hc List.not_mem_nil
  rw [if_neg hn] at hc
  by_cases hd : '.' ∈ afterLast isSep full
  · rw [if_pos hd] at hc
    rw [List.mem_singleton.mp hc, hf]
  obtain ⟨init, s, hseg, hfull, hlast, hdot⟩ := clean_cases hf hd
  rw [if_neg hd, hlast] at hc
  simp only [List.mem_append, List.mem_singleton, List.mem_map] at hc
  rcases hc with ((rfl | ⟨ext, hx, rfl⟩) | ⟨ext, hx, rfl⟩) | hc
  · exact hf
  · obtain ⟨hb, hplain⟩ := he ext hx
    cases s with
    | nil => exact absurd (hseg [] (by simp)).1.1 (by decide)
    | cons d s =>
      rw [hfull]
      exact clean_append_ext hseg (fun hd => hdot (hd ▸ List.mem_cons_self ..)) hb hplain
  · obtain ⟨hb, hplain⟩ := he ext hx
    have h := clean_append_index hseg (List.forall_mem_nil _) hb hplain
    rwa [List.append_nil, ← hfull] at h
  · split_ifs at hc with hs
    · exact absurd hc List.not_mem_nil
    · obtain ⟨ext, hx, rfl⟩ := List.mem_map.mp hc
      obtain ⟨hb, hplain⟩ := he ext hx
      have hname : ∀ x ∈ '.' :: s, isSep x = false :=
        List.forall_mem_cons.mpr ⟨by decide, (hseg s (by simp)).not_sep⟩
      have h := clean_append_index hseg hname hb hplain
      rw [← hfull] at h
      simpa using h

theorem clean_of_mem_potentialsOf {full kind : Str} {exts : List Str} (hf : clean full = full)
    (he : KeepsClean exts) {c : Str} (hc : c ∈ potentialsOf full kind exts) : clean c = c := by
  unfold potentialsOf at hc
  split_ifs at hc
  · exact clean_of_mem_buildPotentials hf he hc
  · rw [List.mem_singleton.mp hc, hf]

theorem clean_of_mem_linked {path : Str} {n : ℕ} {level : Str} {last : Option Str} {c : Str}
    (hc : c ∈ FileResolver.linked MapFs.pathOps path n level last) : clean c = c := by
  induction n generalizing level last with
  | zero => exact absurd hc List.not_mem_nil
  | succ n ih =>
    rw [FileResolver.linked] at hc
    rcases List.mem_cons.mp hc with rfl | hc
    · exact clean_clean _
    · split_ifs at hc
      · exact absurd hc List.not_mem_nil
      · exact ih hc

theorem clean_of_mem_potentials {spec : PathSpec} {full : Str} {exts : List Str}
    (hf : clean full = full) (he : KeepsClean exts) {c : Str}
    (hc : c ∈ FileResolver.potentials MapFs.pathOps spec full exts) : clean c = c := by
  unfold FileResolver.potentials at hc
  rcases List.mem_append.mp hc with hc | hc
  · split at hc
    · exact clean_of_mem_linked hc
    · exact absurd hc List.not_mem_nil
  · split_ifs at hc
    · exact clean_of_mem_buildPotentials hf he (List.mem_of_mem_drop hc)
    · exact absurd hc List.not_mem_nil

/-! ## What a resolution reports -/

/-- `path` is inside the root, if there is one, and names a preloaded or stored file. -/
def FileResolver.Serves (self : FileResolver) (fs : MapFs) (path : Str) : Prop :=
  (∀ root, self.root = some root → Below root path) ∧
    ((self.preload.get path).isSome = true ∨ (fs.files.get path).isSome = true)

theorem allows_iff_forall (fs : MapFs) (root : Option Str) (path : Str) :
    (Confinement.new fs.toFs root).allows fs.toFs path = true ↔
      ∀ r, root = some r → Below r path := by
  cases root with
  | none =>
    constructor
    · intro _ r hr
      exact absurd hr (by simp)
    · exact fun _ => rfl
  | some root =>
    rw [allows_iff]
    constructor
    · rintro h r ⟨⟩
      exact h
    · exact fun h => h root rfl

namespace FileResolver

variable {self : FileResolver} {fs : MapFs} {path src : Str}

theorem load_eq_some (hp : clean path = path)
    (h : self.load fs.toFs path (Confinement.new fs.toFs self.root) = some src) :
    self.Serves fs path ∧ (self.preload.get path = some src ∨
      self.preload.get path = none ∧ fs.files.get path = some src) := by
  unfold load at h
  split_ifs at h with ha
  have hr := (allows_iff_forall fs self.root path).mp ha
  cases hg : self.preload.get path with
  | some s =>
    rw [hg] at h
    exact ⟨⟨hr, .inl (by rw [hg]; rfl)⟩, .inl h⟩
  | none =>
    rw [hg] at h
    have hs : fs.files.get path = some src := by rw [← hp]; exact h
    exact ⟨⟨hr, .inr (by rw [hs]; rfl)⟩, .inr ⟨rfl, hs⟩⟩

theorem load_eq_none (hp : clean path = path)
    (h : self.load fs.toFs path (Confinement.new fs.toFs self.root) = none) :
    ¬ self.Serves fs path := by
  rintro ⟨hr, hs⟩
  unfold load at h
  rw [if_pos ((allows_iff_forall fs self.root path).mpr hr)] at h
  cases hg : self.preload.get path with
  | some s => simp [hg] at h
  | none =>
    rw [hg] at h hs
    have hn : fs.files.get path = none := by rw [← hp]; exact h
    simp [hn] at hs

end FileResolver

/-- A full path that a resolution over `fs` reported for a source it found. -/
inductive Reported (os : Os) (manifest : Str → Option Str) (fs : MapFs) : Str → Prop
  | file {self : FileResolver} {reference : Option Str} {input : ResolverInput} {full : Str} :
      filesystem self.fs input.options os = fs.toFs → NoSeps input.options.implicitExt →
      (self.resolve os reference input).found = true →
      (self.resolve os reference input).spec.full = some full → Reported os manifest fs full
  | pkg {self : PkgResolver} {reference : Option Str} {input : ResolverInput} {full : Str} :
      filesystem self.fs input.options os = fs.toFs → NoSeps input.options.implicitExt →
      (self.resolve manifest os reference input).found = true →
      (self.resolve manifest os reference input).spec.full = some full →
      Reported os manifest fs full

section Reports

variable {os : Os} {reference : Option Str} {input : ResolverInput} {fs : MapFs}

/-- What the file resolver reports: the first served member of the search list, under its own
name, or that there is none. -/
theorem FileResolver.resolve_reports (self : FileResolver)
    (hfs : filesystem self.fs input.options os = fs.toFs)
    (he : KeepsClean input.options.implicitExt) :
    let r := self.resolve os reference input
    (r.found = true → ∃ full src, r.spec.full = some full ∧ r.src = some src ∧
      clean full = full ∧
      (self.preload.get full = some src ∨
        self.preload.get full = none ∧ fs.files.get full = some src) ∧
      r.spec.kind = extKind (some full) ∧
      ∃ pre post, r.search = pre ++ full :: post ∧ self.Serves fs full ∧
        ∀ q ∈ pre, ¬ self.Serves fs q) ∧
      (r.found = false → ∀ q ∈ r.search, ¬ self.Serves fs q) := by
  intro r
  rcases self.resolve_cases os reference input with ⟨spec, hr⟩ | ⟨spec, path, hr⟩
  · rw [show r = Resolution.notFound spec from hr]
    exact ⟨fun h => absurd h Bool.false_ne_true, fun _ q hq => absurd hq List.not_mem_nil⟩
  rw [hfs] at hr
  have hclean : ∀ q ∈ fs.toFs.canon path :: potentials fs.toFs.toPathOps spec
      (fs.toFs.canon path) input.options.implicitExt, clean q = q :=
    List.forall_mem_cons.mpr
      ⟨clean_clean path, fun q hq => clean_of_mem_potentials (clean_clean path) he hq⟩
  rcases self.find_cases fs.toFs (Confinement.new fs.toFs self.root) spec (fs.toFs.canon path)
    input.options.implicitExt with ⟨pre, c, post, src, hl, hpre, hc, hf⟩ | ⟨hn, hf⟩
  · rw [hl] at hclean
    have hcc : clean c = c := hclean c (by simp)
    obtain ⟨hserves, hstored⟩ := load_eq_some hcc hc
    have hbefore : ∀ q ∈ pre, ¬ self.Serves fs q := fun q hq =>
      load_eq_none (hclean q (List.mem_append_left _ hq)) (hpre q hq)
    rw [show r = _ from hr.trans hf]
    refine ⟨fun _ => ⟨c, src, rfl, rfl, hcc, hstored, rfl, ?_⟩, fun h => absurd h.symm
      Bool.false_ne_true⟩
    by_cases hp : pre = []
    · exact ⟨[], [], by rw [if_pos hp]; rfl, hserves, fun q hq => absurd hq List.not_mem_nil⟩
    · exact ⟨pre, post, by rw [if_neg hp]; exact hl, hserves, hbefore⟩
  · rw [show r = _ from hr.trans hf]
    exact ⟨fun h => absurd h Bool.false_ne_true,
      fun _ q hq => load_eq_none (hclean q hq) (hn q hq)⟩

theorem PkgResolver.resolve_reports (self : PkgResolver) (manifest : Str → Option Str)
    (hfs : filesystem self.fs input.options os = fs.toFs)
    (he : KeepsClean input.options.implicitExt) :
    let r := self.resolve manifest os reference input
    r.found = true → ∃ full src, r.spec.full = some full ∧ r.src = some src ∧
      clean full = full ∧ fs.files.get full = some src ∧ r.spec.kind = extKind (some full) := by
  intro r h
  obtain ⟨spec, c, src, search, hl, hc, hr⟩ := self.resolve_found os reference input h
  rw [hfs] at hl hc
  have hcc : clean c = c := by
    rcases hc with ⟨path, hc⟩ | ⟨parts, hc⟩
    · exact clean_of_mem_potentialsOf (clean_clean path) he hc
    · exact clean_of_mem_buildPotentials (clean_clean _) he hc
  have hs : fs.files.get c = some src := by
    unfold pkgLoad at hl
    split_ifs at hl
    rw [← hcc]
    exact hl
  rw [show r = _ from hr]
  exact ⟨c, src, rfl, rfl, hcc, hs, rfl⟩

theorem Reported.clean_eq {manifest : Str → Option Str} {full : Str}
    (h : Reported os manifest fs full) : clean full = full := by
  cases h with
  | file hfs he hr hf =>
    obtain ⟨full', -, hf', -, hc, -⟩ := (FileResolver.resolve_reports _ hfs he.keepsClean).1 hr
    rw [hf, Option.some.injEq] at hf'
    rwa [hf']
  | pkg hfs he hr hf =>
    obtain ⟨full', -, hf', -, hc, -⟩ := PkgResolver.resolve_reports _ manifest hfs he.keepsClean hr
    rw [hf, Option.some.injEq] at hf'
    rwa [hf']

end Reports

/-- **One stored file has one identity.** Over a map filesystem and with separator-free implicit
extensions, a found path is canonical, is the key its text is kept under, and gives the kind; so two
reports that read one key are one path. The file resolver reports the first path of its search list
that it serves. -/
theorem one_stored_file_one_identity (os : Os) (manifest : Str → Option Str) (fs : MapFs)
    (reference : Option Str) (input : ResolverInput) (hexts : NoSeps input.options.implicitExt) :
    (∀ self : FileResolver, filesystem self.fs input.options os = fs.toFs →
      let r := self.resolve os reference input
      (r.found = true → ∃ full src, r.spec.full = some full ∧ r.src = some src ∧
        clean full = full ∧
        (self.preload.get full = some src ∨
          self.preload.get full = none ∧ fs.files.get full = some src) ∧
        r.spec.kind = extKind (some full) ∧
        ∃ pre post, r.search = pre ++ full :: post ∧ self.Serves fs full ∧
          ∀ q ∈ pre, ¬ self.Serves fs q) ∧
        (r.found = false → ∀ q ∈ r.search, ¬ self.Serves fs q)) ∧
    (∀ self : PkgResolver, filesystem self.fs input.options os = fs.toFs →
      let r := self.resolve manifest os reference input
      r.found = true → ∃ full src, r.spec.full = some full ∧ r.src = some src ∧
        clean full = full ∧ fs.files.get full = some src ∧ r.spec.kind = extKind (some full)) ∧
    ∀ full full' : Str, Reported os manifest fs full → Reported os manifest fs full' →
      clean full = clean full' → full = full' := by
  refine ⟨fun self hfs => self.resolve_reports hfs hexts.keepsClean,
    fun self hfs => self.resolve_reports manifest hfs hexts.keepsClean,
    fun full full' h h' he => ?_⟩
  rw [← h.clean_eq, he, h'.clean_eq]

/-- A source spelled two ways is found under one name. -/
theorem one_stored_file_one_identity_srv :
    (srvResolver.resolve noOs (some "srv/../srv//a".toList) defaultInput).spec.full =
      (srvResolver.resolve noOs (some "\\srv\\a.jsonic".toList) defaultInput).spec.full := by
  have he : NoSeps defaultInput.options.implicitExt := by decide
  have hf : (srvResolver.resolve noOs (some "srv/../srv//a".toList) defaultInput).spec.full =
      some "srv/a.jsonic".toList := by decide
  obtain ⟨full, src, hf', -⟩ := ((one_stored_file_one_identity noOs (fun _ => none) srvFs
    (some "\\srv\\a.jsonic".toList) defaultInput he).1 srvResolver rfl).1 (by decide)
  have hfull : full = "srv/a.jsonic".toList := by
    refine (one_stored_file_one_identity noOs (fun _ => none) srvFs none defaultInput he).2.2 full _
      (.file ?_ he ?_ hf') (.file ?_ he ?_ hf) ?_
    · rfl
    · decide
    · rfl
    · decide
    · have h : some full = some "srv/a.jsonic".toList := hf'.symm.trans (by decide)
      rw [Option.some.inj h]
  rw [hf, hf', hfull]

end MultiSource
