import MultiSource.Sandbox

/-!
# The algebra of clean paths

A clean path is the spelling of its segments, which a step up shortens and a name extends. The laws
of joining, of folders and of containment are laws of these lists.
-/

namespace MultiSource

open Segments

/-- The segments of a map key, none for the root. -/
def keySegments (key : Str) : List Str := if key = ".".toList then [] else key.splitOn '/'

theorem keySegments_clean (path : Str) : keySegments (clean path) = cleanSegments path := by
  by_cases h : cleanSegments path = []
  · rw [h]
    exact if_pos (clean_eq_dot.mpr h)
  · rw [keySegments, if_neg (mt clean_eq_dot.mp h), clean_of_ne_nil h]
    exact splitOn_joined (fun s hs => (isSegment_of_mem_clean hs).2.1) h

theorem IsSegment.is_name {s : Str} (h : IsSegment s) :
    s ≠ [] ∧ s ≠ ".".toList ∧ s ≠ "..".toList := by
  have hblank := h.1.1
  have hup := h.1.2
  unfold OsPath.blank at hblank
  unfold isUp at hup
  rw [decide_eq_false_iff_not, not_or] at hblank
  exact ⟨hblank.1, hblank.2, of_decide_eq_false hup⟩

/-- A key is the root's, or it has names for segments. -/
theorem clean_eq_dot_or_names (path : Str) : clean path = ".".toList ∨
    '\\' ∉ clean path ∧
      ∀ s ∈ (clean path).splitOn '/', s ≠ [] ∧ s ≠ ".".toList ∧ s ≠ "..".toList := by
  by_cases h : clean path = ".".toList
  · exact .inl h
  · have hsplit : (clean path).splitOn '/' = cleanSegments path := by
      rw [← keySegments_clean, keySegments, if_neg h]
    refine .inr ⟨not_mem_spell fun s => isSegment_of_mem_clean, fun s hs => ?_⟩
    rw [hsplit] at hs
    exact (isSegment_of_mem_clean hs).is_name

/-- What is joined to a path is joined to its key. -/
theorem clean_append_clean (p q : Str) : clean (clean p ++ '/' :: q) = clean (p ++ '/' :: q) := by
  rw [clean_eq_iff, cleanSegments_append, cleanSegments_append, cleanSegments_clean]

/-- The folder is a step up. -/
theorem MapFs.dir_eq_clean (path : Str) : MapFs.dir path = clean (path ++ "/..".toList) := by
  rw [MapFs.dir_eq, clean, cleanSegments_parent]

theorem withinRoot_iff_prefix (candidate root : Str) : withinRoot candidate root false = true ↔
    keySegments (clean root) <+: keySegments (clean candidate) := by
  rw [withinRoot_iff, keySegments_clean, keySegments_clean]
  rfl

/-- **Path algebra.** Keys are spelled with names alone and are their own keys; joining, folders and
containment are those of the keys' segments. -/
theorem clean_path_algebra (p q c r : Str) :
    (clean p = ".".toList ∨ '\\' ∉ clean p ∧
      ∀ s ∈ (clean p).splitOn '/', s ≠ [] ∧ s ≠ ".".toList ∧ s ≠ "..".toList) ∧
    clean (clean p) = clean p ∧
    clean (clean p ++ '/' :: q) = clean (p ++ '/' :: q) ∧
    MapFs.dir p = clean (p ++ "/..".toList) ∧
    (withinRoot c r false = true ↔ keySegments (clean r) <+: keySegments (clean c)) :=
  ⟨clean_eq_dot_or_names p, clean_clean p, clean_append_clean p q, MapFs.dir_eq_clean p,
    withinRoot_iff_prefix c r⟩

end MultiSource
