import MultiSource.Go.Names

/-!
# Which file a path names

`clean` drops every step above the root. `path.Clean` drops it in a rooted path and keeps it in a
relative one, which is then no name for `io/fs`.
-/

namespace MultiSource.Ports

open Segments

/-- The root of an in-memory tree is a folder. -/
def RootIsFolder (fs : MapFs) : Prop := fs.files.get ".".toList = none

/-- Some beginning of the path has more steps up than names. -/
def Climbs (path : Str) : Prop :=
  ∃ pre, pre <+: path.splitOn '/' ∧ names OsPath.blank isUp pre < ups OsPath.blank isUp pre

/-- Some end of the path has more names than steps up. -/
def Descends (path : Str) : Prop :=
  ∃ t, t <:+ path.splitOn '/' ∧ ups OsPath.blank isUp t < names OsPath.blank isUp t

/-- A path names one file in both ports, or none in either, and both read the same. -/
def SameFile (path : Str) : Prop :=
  (clean path = Go.fsClean path ∨ Go.validPath (Go.fsClean path) = false ∧
    ∀ fs : MapFs, RootIsFolder fs → fs.files.get (clean path) = none) ∧
  ∀ fs : MapFs, RootIsFolder fs → (Go.ioVfs fs).readFile path = fs.readFile path

section Names

variable {path : Str}

theorem cleanSegments_of_slashes (h : '\\' ∉ path) :
    cleanSegments path = collapse OsPath.blank isUp (path.splitOn '/') := by
  unfold cleanSegments
  rw [unified_of_not_mem h]

theorem cleanSegments_eq_nil_iff (h : '\\' ∉ path) : cleanSegments path = [] ↔ ¬ Descends path := by
  rw [cleanSegments_of_slashes h, ← List.length_eq_zero_iff, ← Nat.le_zero, length_collapse_le_iff]
  unfold Descends
  push Not
  rfl

/-- A path without steps up does not climb. -/
theorem not_climbs_of_forward (h : Go.Forward path) : ¬ Climbs path := by
  rintro ⟨pre, hpre, hlt⟩
  have hups : ups OsPath.blank isUp pre = 0 := by
    apply List.countP_eq_zero.mpr
    intro s hs
    simp [h.noUp s (hpre.subset hs)]
  omega

/-- What `path.Clean` keeps of a relative path: some steps up exactly if it climbs. -/
theorem collapseUp_path (path : Str) :
    ∃ lead : List Str, (∀ u ∈ lead, u = "..".toList) ∧
      collapseUp OsPath.blank isUp (path.splitOn '/') =
        lead ++ collapse OsPath.blank isUp (path.splitOn '/') ∧
      (lead = [] ↔ ¬ Climbs path) := by
  obtain ⟨lead, hlead, heq, -, hnil⟩ :=
    collapseUp_spec OsPath.blank isUp (path.splitOn '/')
  refine ⟨lead, fun u hu => of_decide_eq_true (hlead u hu), heq, ?_⟩
  rw [hnil]
  unfold Climbs
  push Not
  rfl

/-- A relative path that climbs keeps some steps up, and then names. -/
theorem clean_of_climbs (hr : path.head? ≠ some '/') (hc : Climbs path) :
    ∃ lead, lead ≠ [] ∧
      Go.Normal lead (collapse OsPath.blank isUp (path.splitOn '/')) (Go.clean path) := by
  obtain ⟨lead, hlead, heq, hnil⟩ := collapseUp_path path
  have hne : lead ≠ [] := fun h => hnil.mp h hc
  refine ⟨lead, hne, hlead, fun s hs => ?_, List.append_ne_nil_of_left_ne_nil hne _, ?_⟩
  · obtain ⟨hmem, hplain⟩ := mem_collapse hs
    exact ⟨hplain.1, hplain.2, not_mem_of_mem_splitOn hmem⟩
  · unfold Go.clean
    dsimp only
    rw [if_neg hr, heq, if_neg (by simp [hne])]

/-- Its name is none for `io/fs`. -/
theorem validPath_of_climbs (hr : path.head? ≠ some '/') (hc : Climbs path) :
    Go.validPath (Go.fsClean path) = false := by
  obtain ⟨lead, hne, h⟩ := clean_of_climbs hr hc
  have hname : Go.fsClean path = Go.clean path := by
    unfold Go.fsClean
    rw [h.path_eq, (Go.trimSlash_joined h.slash h.blank h.ne_nil).1,
      if_neg (Go.trimSlash_joined h.slash h.blank h.ne_nil).2]
  obtain ⟨u, lead, rfl⟩ := List.exists_cons_of_ne_nil hne
  obtain rfl := h.lead_up u List.mem_cons_self
  rw [hname]
  unfold Go.validPath
  rw [h.splitOn_eq, Bool.or_eq_false_iff]
  constructor
  · apply decide_eq_false
    intro he
    have hsplit := h.splitOn_eq
    rw [he] at hsplit
    exact absurd (List.cons.inj hsplit).1 (by decide)
  · exact List.all_eq_false.mpr ⟨_, List.mem_cons_self, by decide⟩

/-- Of a relative path that does not climb `path.Clean` makes what `clean` makes. -/
theorem clean_of_not_climbs (h : '\\' ∉ path) (hr : path.head? ≠ some '/') (hc : ¬ Climbs path) :
    Go.clean path = clean path := by
  obtain ⟨lead, -, heq, hnil⟩ := collapseUp_path path
  unfold Go.clean clean spell
  dsimp only
  rw [if_neg hr, heq, hnil.mpr hc, List.nil_append, cleanSegments_of_slashes h]

/-- A path that is rooted or does not climb has one name in both ports. -/
theorem fsClean_eq (h : '\\' ∉ path) (hc : path.head? = some '/' ∨ ¬ Climbs path) :
    Go.fsClean path = clean path := by
  have hseg : ∀ s ∈ cleanSegments path, IsSegment s := fun s => isSegment_of_mem_clean
  by_cases hr : path.head? = some '/'
  · have hgo : Go.clean path = '/' :: joined '/' (cleanSegments path) := by
      unfold Go.clean
      rw [cleanSegments_of_slashes h]
      exact if_pos hr
    have ht : Go.trimSlash ('/' :: joined '/' (cleanSegments path)) =
        joined '/' (cleanSegments path) := rfl
    unfold Go.fsClean clean spell
    rw [hgo, ht]
    by_cases hp : cleanSegments path = []
    · rw [if_pos hp, hp]
      rfl
    · rw [if_neg hp, if_neg (joined_ne_nil hseg hp)]
  · unfold Go.fsClean
    rw [clean_of_not_climbs h hr (hc.resolve_left hr), clean, Go.trimSlash_spell hseg,
      if_neg (spell_ne_nil hseg)]

end Names

/-- A path without backslashes names one file in both ports, or none in either, exactly if it is
rooted, never climbs above its start, or holds nothing below where it ends up. -/
theorem same_file_iff (path : Str) (h : '\\' ∉ path) :
    SameFile path ↔ path.head? = some '/' ∨ ¬ Climbs path ∨ ¬ Descends path := by
  have hseg : ∀ s ∈ cleanSegments path, IsSegment s := fun s => isSegment_of_mem_clean
  have hvalid : Go.validPath (clean path) = true := Go.validPath_spell hseg
  have hread : ∀ fs : MapFs, (Go.ioVfs fs).readFile path =
      if Go.validPath (Go.fsClean path) then fs.files.get (Go.fsClean path) else none :=
    fun _ => rfl
  rw [← or_assoc]
  by_cases hcond : path.head? = some '/' ∨ ¬ Climbs path
  · have heq := fsClean_eq h hcond
    apply iff_of_true _ (.inl hcond)
    refine ⟨.inl heq.symm, ?_⟩
    intro fs _
    rw [hread, heq, if_pos hvalid]
    rfl
  · obtain ⟨hr, hc⟩ := not_or.mp hcond
    have hinvalid := validPath_of_climbs hr (not_not.mp hc)
    rw [or_iff_right hcond, ← cleanSegments_eq_nil_iff h]
    unfold SameFile
    simp only [hread, hinvalid, Bool.false_eq_true, if_false, true_and]
    constructor
    · rintro ⟨-, hnone⟩
      -- a tree with one file at that name tells the ports apart
      by_contra hne
      have hroot : RootIsFolder (MapFs.new.insert path []) := by
        have hdot : clean path ≠ clean ".".toList := by
          rw [Ne, clean_eq_iff]
          exact hne
        have hget := MapFs.readFile_insert .new path [] ".".toList
        rw [if_neg hdot] at hget
        exact hget
      have hget := hnone _ hroot
      rw [MapFs.readFile_insert, if_pos rfl] at hget
      cases hget
    · intro hnil
      have hdot : clean path = ".".toList := by
        unfold clean
        rw [hnil]
        rfl
      rw [hdot]
      refine ⟨.inr fun fs hfs => hfs, ?_⟩
      intro fs hfs
      unfold MapFs.readFile
      rw [hdot]
      exact hfs.symm

/-- A rooted path that climbs. -/
theorem same_file_rooted : SameFile "/../a//./b/..".toList :=
  (same_file_iff _ (by decide)).mpr (.inl rfl)

/-- A relative path above the root is a file in Rust only. -/
theorem climb_names_a_file : ¬ SameFile "../a".toList := by
  rintro ⟨-, h⟩
  exact absurd (h (MapFs.new.insert "a".toList []) rfl) (by decide)

end MultiSource.Ports
