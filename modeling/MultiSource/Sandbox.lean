import MultiSource.Search

/-!
# The sandbox root over an in-memory filesystem

A root is compared with a candidate by segments, and every text a resolver returns passed that
comparison first. So what a map filesystem holds outside the root is neither returned nor seen.
-/

namespace MultiSource

open Segments

/-- At or below the root, by the segments of the clean paths. -/
def Below (root path : Str) : Prop := cleanSegments root <+: cleanSegments path

instance (root path : Str) : Decidable (Below root path) :=
  inferInstanceAs (Decidable (cleanSegments root <+: cleanSegments path))

theorem clean_eq_dot {path : Str} : clean path = ".".toList ↔ cleanSegments path = [] := by
  constructor
  · intro h
    rw [← cleanSegments_clean, h]
    rfl
  · intro h
    rw [clean, h]
    rfl

theorem clean_of_ne_nil {path : Str} (h : cleanSegments path ≠ []) :
    clean path = joined '/' (cleanSegments path) := if_neg h

theorem clean_ne_nil (path : Str) : clean path ≠ [] := by
  intro h
  have hs : cleanSegments path = [] := by
    rw [← cleanSegments_clean, h]
    rfl
  rw [clean_eq_dot.mpr hs] at h
  exact absurd h (by decide)

/-- No clean path but `.` ends in a separator or a dot segment, so a separator can be added. -/
theorem clean_getLast (path : Str) : (clean path).getLast? ≠ some '/' := by
  unfold clean spell
  split_ifs with h
  · decide
  · obtain ⟨init, s, hs⟩ : ∃ init s, cleanSegments path = init ++ [s] :=
      ⟨_, _, (List.dropLast_append_getLast h).symm⟩
    have hmem : s ∈ cleanSegments path := by simp [hs]
    have hseg : IsSegment s := isSegment_of_mem_clean hmem
    have hne : s ≠ [] := fun he => by simp [IsSegment, Plain, OsPath.blank, he] at hseg
    rw [hs, getLast?_joined hne]
    intro hc
    exact hseg.2.1 (List.mem_of_getLast? hc)

/-- The comparison of strings is the comparison of segments. -/
theorem withinRoot_iff (candidate root : Str) :
    withinRoot candidate root false = true ↔ Below root candidate := by
  have hr : ∀ s ∈ cleanSegments root, '/' ∉ s := fun s hs => (isSegment_of_mem_clean hs).2.1
  have hc : ∀ s ∈ cleanSegments candidate, '/' ∉ s := fun s hs => (isSegment_of_mem_clean hs).2.1
  unfold withinRoot Below
  simp only [Bool.false_eq_true, if_false, clean_ne_nil, false_or, clean_getLast]
  by_cases hroot : cleanSegments root = []
  · rw [if_pos (clean_eq_dot.mpr hroot), hroot]
    simp
  · rw [if_neg (mt clean_eq_dot.mp hroot)]
    by_cases he : clean candidate = clean root
    · rw [if_pos he, clean_eq_iff.mp he]
      simp
    · rw [if_neg he, List.isPrefixOf_iff_prefix]
      by_cases hcand : cleanSegments candidate = []
      · rw [hcand, clean_eq_dot.mpr hcand]
        constructor
        · intro h
          have hl := h.length_le
          have hp := List.length_pos_iff.mpr (clean_ne_nil root)
          have hd : ".".toList.length = 1 := rfl
          rw [List.length_append, List.length_singleton, hd] at hl
          omega
        · intro h
          exact absurd (List.prefix_nil.mp h) hroot
      · rw [clean_of_ne_nil hroot, clean_of_ne_nil hcand, joined_prefix_iff hr hc hroot hcand]
        exact and_iff_left fun h => he (clean_eq_iff.mpr h.symm)

@[simp] theorem below_clean_right (root path : Str) :
    Below root (clean path) ↔ Below root path := by
  rw [Below, Below, cleanSegments_clean]

theorem allows_iff (fs : MapFs) (root path : Str) :
    (Confinement.new fs.toFs (some root)).allows fs.toFs path = true ↔ Below root path := by
  show withinRoot (clean path) (clean root) false = true ↔ _
  rw [withinRoot_iff, Below, Below, cleanSegments_clean, cleanSegments_clean]

/-- Two filesystems hold the same files at or below the root. -/
def AgreeBelow (root : Str) (fs₁ fs₂ : MapFs) : Prop :=
  ∀ key, Below root key → fs₁.files.get key = fs₂.files.get key

/-- The base is empty, or at or below the root. -/
def BaseBelow (root : Str) (input : ResolverInput) : Prop :=
  let raw := (sourcePath input.parseMeta).getD input.options.path
  raw = [] ∨ Below root raw

/-- The input with the filesystem its options name replaced. -/
def ResolverInput.withFs (input : ResolverInput) (fs : Option SourceFs) : ResolverInput :=
  { input with options := { input.options with fs } }

variable {root : Str} {fs₁ fs₂ : MapFs} {input : ResolverInput}

theorem baseFor_withFs (fs : Option SourceFs) (isFile : Str → Bool) (dir : Str → Str) :
    baseFor (input.withFs fs) isFile dir = baseFor input isFile dir := rfl

theorem AgreeBelow.readFile (h : AgreeBelow root fs₁ fs₂) {path : Str} (hp : Below root path) :
    fs₁.readFile path = fs₂.readFile path :=
  h _ ((below_clean_right root path).mpr hp)

theorem BaseBelow.baseFor_congr (h : BaseBelow root input) {isFile₁ isFile₂ : Str → Bool}
    (hf : ∀ path, Below root path → isFile₁ path = isFile₂ path) (dir : Str → Str) :
    baseFor input isFile₁ dir = baseFor input isFile₂ dir := by
  unfold baseFor
  rcases h with h | h
  · simp [h]
  · simp [hf _ h]

namespace FileResolver

variable (self : FileResolver)

def withFs (own : Option SourceFs) : FileResolver := { self with fs := own }

theorem load_below {fs : MapFs} {path src : Str}
    (h : self.load fs.toFs path (Confinement.new fs.toFs (some root)) = some src) :
    Below root path := by
  unfold load at h
  split_ifs at h with ha
  exact (allows_iff fs root path).mp ha

theorem load_congr (h : AgreeBelow root fs₁ fs₂) (path : Str) :
    self.load fs₁.toFs path (Confinement.new fs₁.toFs (some root)) =
      self.load fs₂.toFs path (Confinement.new fs₂.toFs (some root)) := by
  unfold load
  by_cases hp : Below root path
  · rw [if_pos ((allows_iff fs₁ root path).mpr hp), if_pos ((allows_iff fs₂ root path).mpr hp)]
    exact congrArg _ (funext fun _ => h.readFile hp)
  · rw [if_neg (mt (allows_iff fs₁ root path).mp hp), if_neg (mt (allows_iff fs₂ root path).mp hp)]

theorem specOf_congr (h : AgreeBelow root fs₁ fs₂) (hb : BaseBelow root input)
    (reference : Option Str) :
    self.specOf fs₁.toFs reference input = self.specOf fs₂.toFs reference input := by
  unfold specOf
  refine congrArg (resolvePathSpec _) (hb.baseFor_congr (fun path hp => ?_) MapFs.dir)
  show (_ || (fs₁.readFile path).isSome) = (_ || (fs₂.readFile path).isSome)
  rw [h.readFile hp]

theorem find_congr (h : AgreeBelow root fs₁ fs₂) (spec : PathSpec) (full : Str)
    (exts : List Str) :
    self.find fs₁.toFs (Confinement.new fs₁.toFs (some root)) spec full exts =
      self.find fs₂.toFs (Confinement.new fs₂.toFs (some root)) spec full exts := by
  unfold find
  rw [self.load_congr h full, funext (self.load_congr h)]
  rfl

/-- Over two filesystems that agree below the root, wherever they were handed over, the resolutions
are equal. -/
theorem resolve_congr {os : Os} {own₁ own₂ opt₁ opt₂ : Option SourceFs}
    (h : AgreeBelow root fs₁ fs₂) (hb : BaseBelow root input) (hroot : self.root = some root)
    (h₁ : filesystem own₁ (input.withFs opt₁).options os = fs₁.toFs)
    (h₂ : filesystem own₂ (input.withFs opt₂).options os = fs₂.toFs) (reference : Option Str) :
    (self.withFs own₁).resolve os reference (input.withFs opt₁) =
      (self.withFs own₂).resolve os reference (input.withFs opt₂) := by
  have hspec : (self.withFs own₁).specOf fs₁.toFs reference (input.withFs opt₁) =
      (self.withFs own₂).specOf fs₂.toFs reference (input.withFs opt₂) :=
    self.specOf_congr h hb reference
  have hfind : ∀ spec full exts,
      (self.withFs own₁).find fs₁.toFs (Confinement.new fs₁.toFs (some root)) spec full exts =
        (self.withFs own₂).find fs₂.toFs (Confinement.new fs₂.toFs (some root)) spec full exts :=
    self.find_congr h
  have hr : ∀ own, (self.withFs own).root = some root := fun _ => hroot
  unfold resolve
  rw [show (self.withFs own₁).fs = own₁ from rfl, show (self.withFs own₂).fs = own₂ from rfl, h₁,
    h₂, hr, hr]
  dsimp only
  rw [hspec]
  split
  · rfl
  · exact hfind _ _ _

theorem resolve_below {os : Os} {fs : MapFs} (hroot : self.root = some root)
    (hfs : filesystem self.fs input.options os = fs.toFs) {reference : Option Str}
    (h : (self.resolve os reference input).found = true) :
    ∃ full, (self.resolve os reference input).spec.full = some full ∧ Below root full := by
  rcases self.resolve_cases os reference input with ⟨spec, he⟩ | ⟨spec, path, he⟩
  · rw [he] at h
    exact absurd h Bool.false_ne_true
  · rw [hfs, hroot] at he
    rcases self.find_cases fs.toFs (Confinement.new fs.toFs (some root)) spec _ _ with
      ⟨pre, c, post, src, -, -, hl, hr⟩ | ⟨-, hr⟩
    · exact ⟨c, by rw [he, hr]; rfl, self.load_below hl⟩
    · rw [he, hr] at h
      exact absurd h Bool.false_ne_true

end FileResolver

namespace PkgResolver

variable (self : PkgResolver) (manifest : Str → Option Str)

def withFs (own : Option SourceFs) : PkgResolver := { self with fs := own }

theorem pkgLoad_below {fs : MapFs} {path src : Str}
    (h : pkgLoad fs.toFs (Confinement.new fs.toFs (some root)) path = some src) :
    Below root path := by
  unfold pkgLoad at h
  split_ifs at h with ha
  exact (allows_iff fs root path).mp ha

theorem pkgLoad_congr (h : AgreeBelow root fs₁ fs₂) :
    pkgLoad fs₁.toFs (Confinement.new fs₁.toFs (some root)) =
      pkgLoad fs₂.toFs (Confinement.new fs₂.toFs (some root)) := by
  funext path
  unfold pkgLoad
  by_cases hp : Below root path
  · rw [if_pos ((allows_iff fs₁ root path).mpr hp), if_pos ((allows_iff fs₂ root path).mpr hp)]
    exact h.readFile hp
  · rw [if_neg (mt (allows_iff fs₁ root path).mp hp), if_neg (mt (allows_iff fs₂ root path).mp hp)]

theorem resolve_congr {os : Os} {own₁ own₂ opt₁ opt₂ : Option SourceFs}
    (h : AgreeBelow root fs₁ fs₂) (hb : BaseBelow root input) (hroot : self.root = some root)
    (h₁ : filesystem own₁ (input.withFs opt₁).options os = fs₁.toFs)
    (h₂ : filesystem own₂ (input.withFs opt₂).options os = fs₂.toFs) (reference : Option Str) :
    (self.withFs own₁).resolve manifest os reference (input.withFs opt₁) =
      (self.withFs own₂).resolve manifest os reference (input.withFs opt₂) := by
  have hbase : baseFor (input.withFs opt₁) (fun path => (fs₁.toFs.readFile path).isSome)
      fs₁.toFs.dir = baseFor (input.withFs opt₂) (fun path => (fs₂.toFs.readFile path).isSome)
        fs₂.toFs.dir := by
    rw [baseFor_withFs, baseFor_withFs]
    refine hb.baseFor_congr (fun path hp => ?_) MapFs.dir
    show (fs₁.readFile path).isSome = (fs₂.readFile path).isSome
    rw [h.readFile hp]
  have hr : ∀ own, (self.withFs own).root = some root := fun _ => hroot
  unfold resolve
  rw [show (self.withFs own₁).fs = own₁ from rfl, show (self.withFs own₂).fs = own₂ from rfl, h₁,
    h₂, hr, hr]
  dsimp only
  rw [hbase, pkgLoad_congr h]
  rfl

theorem resolve_below {os : Os} {fs : MapFs} (hroot : self.root = some root)
    (hfs : filesystem self.fs input.options os = fs.toFs) {reference : Option Str}
    (h : (self.resolve manifest os reference input).found = true) :
    ∃ full, (self.resolve manifest os reference input).spec.full = some full ∧
      Below root full := by
  obtain ⟨spec, c, src, search, hl, -, he⟩ := self.resolve_found os reference input h
  rw [hfs, hroot] at hl
  exact ⟨c, by rw [he]; rfl, pkgLoad_below hl⟩

end PkgResolver

/-- **The sandbox root holds.** From a base inside the root, both resolvers find sources inside the
root only, and over two map filesystems that agree there, whether the resolver or the options hold
them, their resolutions are equal. -/
theorem sandbox_root_holds (root : Str) (os : Os) (manifest : Str → Option Str)
    (reference : Option Str) (input : ResolverInput) (hbase : BaseBelow root input) :
    (∀ self : FileResolver, self.root = some root →
      (∀ fs : MapFs, filesystem self.fs input.options os = fs.toFs →
        (self.resolve os reference input).found = true →
        ∃ full, (self.resolve os reference input).spec.full = some full ∧ Below root full) ∧
      ∀ (fs₁ fs₂ : MapFs) (own₁ own₂ opt₁ opt₂ : Option SourceFs), AgreeBelow root fs₁ fs₂ →
        filesystem own₁ (input.withFs opt₁).options os = fs₁.toFs →
        filesystem own₂ (input.withFs opt₂).options os = fs₂.toFs →
        (self.withFs own₁).resolve os reference (input.withFs opt₁) =
          (self.withFs own₂).resolve os reference (input.withFs opt₂)) ∧
    ∀ self : PkgResolver, self.root = some root →
      (∀ fs : MapFs, filesystem self.fs input.options os = fs.toFs →
        (self.resolve manifest os reference input).found = true →
        ∃ full, (self.resolve manifest os reference input).spec.full = some full ∧
          Below root full) ∧
      ∀ (fs₁ fs₂ : MapFs) (own₁ own₂ opt₁ opt₂ : Option SourceFs), AgreeBelow root fs₁ fs₂ →
        filesystem own₁ (input.withFs opt₁).options os = fs₁.toFs →
        filesystem own₂ (input.withFs opt₂).options os = fs₂.toFs →
        (self.withFs own₁).resolve manifest os reference (input.withFs opt₁) =
          (self.withFs own₂).resolve manifest os reference (input.withFs opt₂) := by
  refine ⟨fun self hroot => ⟨?_, ?_⟩, fun self hroot => ⟨?_, ?_⟩⟩
  · intro fs hfs h
    exact self.resolve_below hroot hfs h
  · intro fs₁ fs₂ own₁ own₂ opt₁ opt₂ h h₁ h₂
    exact self.resolve_congr h hbase hroot h₁ h₂ reference
  · intro fs hfs h
    exact self.resolve_below manifest hroot hfs h
  · intro fs₁ fs₂ own₁ own₂ opt₁ opt₂ h h₁ h₂
    exact self.resolve_congr manifest h hbase hroot h₁ h₂ reference

section Witness

/-- A root with one source in it. -/
def srvFs : MapFs := MapFs.ofList [("/srv/a.jsonic".toList, "a:1".toList)]

def srvResolver : FileResolver := ⟨none, [], some srvFs.toFs, some "./srv/".toList⟩

def defaultInput : ResolverInput := ⟨MultiSourceOptions.new, .undefined⟩

def noOs : Os := ⟨[], [], none, 0⟩

theorem srv_agreeBelow :
    AgreeBelow "./srv/".toList srvFs (srvFs.insert "etc/b.jsonic".toList "b:1".toList) := by
  intro key hk
  have hne : clean "etc/b.jsonic".toList ≠ key := by
    rintro rfl
    exact absurd hk (by decide)
  exact (Entries.get_insert_of_ne hne _ _).symm

/-- Inside the root `a` is found, and a file beside the root does not show. -/
theorem sandbox_root_holds_srv :
    (∃ full, (srvResolver.resolve noOs (some "srv/../srv//a".toList) defaultInput).spec.full =
        some full ∧ Below "./srv/".toList full) ∧
      srvResolver.resolve noOs (some "srv/../etc/b.jsonic".toList) defaultInput =
        (srvResolver.withFs (some (srvFs.insert "etc/b.jsonic".toList "b:1".toList).toFs)).resolve
          noOs (some "srv/../etc/b.jsonic".toList) defaultInput := by
  have hb : BaseBelow "./srv/".toList defaultInput := .inl rfl
  refine ⟨?_, ?_⟩
  · exact ((sandbox_root_holds _ noOs (fun _ => none) (some "srv/../srv//a".toList) _ hb).1
      srvResolver rfl).1 srvFs rfl (by decide)
  · exact ((sandbox_root_holds _ noOs (fun _ => none) (some "srv/../etc/b.jsonic".toList) _ hb).1
      srvResolver rfl).2 srvFs (srvFs.insert "etc/b.jsonic".toList "b:1".toList)
      (some srvFs.toFs) _ none none srv_agreeBelow rfl rfl

end Witness

end MultiSource
