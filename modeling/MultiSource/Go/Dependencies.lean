import MultiSource.Go.Loading
import MultiSource.Installation

/-!
# What a run in the Go port leaves behind, and what it looks at

The caller's dependency map is written at each edge that is followed, so a run leaves the edges it
followed there and nothing else. And a run looks at no more of the map of sources than the
candidates of the references it meets, each up to the one that is there.
-/

namespace MultiSource.Go

open Interaction Inclusion Inclusion.Library

/-! ## The dependency map -/

/-- The record of one edge: its bucket is made if there is none. -/
def depend (deps : DependencyMap) (tar src : Str) (wen : ℕ) : DependencyMap :=
  let bucket : Entries Dependency := (deps.get tar).getD []
  deps.insert tar (bucket.insert src ⟨tar, src, wen⟩)

/-- How an operation of the plugin steps the caller's map, at whatever time. -/
inductive Records : Handler sig DependencyMap
  | depend (deps : DependencyMap) (tar src : Str) (wen : ℕ) :
      Records deps (.depend tar src) () (depend deps tar src wen)

/-- The keys an edge is recorded under. -/
def edgeKeys (e : Option Str × Str) : Str × Str := (e.1.getD TOP, e.2)

/-- Recording edges puts a record under the keys of each, and leaves the rest as it was. -/
theorem runs_records {es : List (Option Str × Str)} {deps deps' : DependencyMap}
    (h : Runs Records deps (es.map edgeEvent) deps') (tar src : Str) :
    ((tar, src) ∈ es.map edgeKeys → ∃ wen, deps'.find tar src = some ⟨tar, src, wen⟩) ∧
      ((tar, src) ∉ es.map edgeKeys → deps'.find tar src = deps.find tar src) := by
  induction es generalizing deps with
  | nil =>
    cases h
    exact ⟨fun h => absurd h List.not_mem_nil, fun _ => rfl⟩
  | cons e es ih =>
    obtain ⟨path, full⟩ := e
    cases h with
    | cons hstep hrest =>
      cases hstep with
      | depend _ _ _ wen =>
        obtain ⟨hmem, hnot⟩ := ih hrest
        rw [List.map_cons, List.mem_cons]
        by_cases hes : (tar, src) ∈ es.map edgeKeys
        · exact ⟨fun _ => hmem hes, fun h => absurd (.inr hes) h⟩
        · have hfind := hnot hes
          rw [depend, DependencyMap.find_insert] at hfind
          constructor
          · rintro (he | h)
            · obtain ⟨rfl, rfl⟩ := Prod.mk.inj he
              rw [if_pos ⟨rfl, rfl⟩] at hfind
              exact ⟨wen, hfind⟩
            · exact absurd h hes
          · intro h
            rw [if_neg] at hfind
            · exact hfind
            · rintro ⟨rfl, rfl⟩
              exact h (.inl rfl)

/-- A source that the document leads to, or the document itself, refers to another, by the keys of
that edge in the map. -/
def GraphEdge (S : SourceSet) (engine : Engine) (tree : Str → Parse) (c : Call) (tar src : Str) :
    Prop :=
  ∃ path, (S.library engine tree).Edge (document engine tree c) (path, src) ∧ tar = path.getD TOP

theorem mem_edgeKeys {es : List (Option Str × Str)} {tar src : Str} :
    (tar, src) ∈ es.map edgeKeys ↔ ∃ path, (path, src) ∈ es ∧ tar = path.getD TOP := by
  rw [List.mem_map]
  constructor
  · rintro ⟨⟨path, full⟩, hmem, he⟩
    obtain ⟨rfl, rfl⟩ := Prod.mk.inj he
    exact ⟨path, hmem, rfl⟩
  · rintro ⟨path, hmem, rfl⟩
    exact ⟨_, hmem, rfl⟩

/-- What a run makes of the caller's map: nothing if the caller gave none. Else every change is a
record of an edge of the graph of references under its own keys, and if the document has a value
there is one for each. -/
theorem dependency_map_exact (S : SourceSet) (hfin : S.Finite) (engine : Engine)
    (tree : Str → Parse) (htree : Textual engine tree) (c : Call) (tr : List (Event sig))
    (a : Except Failure Value) (deps deps' : DependencyMap)
    (hrun : Evals (S := sig) (S.body engine) (S.body engine c) tr a)
    (hdeps : Runs Records deps tr deps') :
    (metaDeps c.parseMeta = false → deps' = deps) ∧
    (∀ tar src, deps'.find tar src = deps.find tar src ∨
      GraphEdge S engine tree c tar src ∧
        ∃ wen, deps'.find tar src = some ⟨tar, src, wen⟩) ∧
    (metaDeps c.parseMeta = true → ∀ v, a = .ok v → ∀ tar src,
      GraphEdge S engine tree c tar src →
        ∃ wen, deps'.find tar src = some ⟨tar, src, wen⟩) := by
  obtain ⟨es, o, a', h, hans, hall⟩ := evals_document hfin htree c
  obtain ⟨rfl, rfl⟩ := (hall S (.refl _) _ _).mp hrun
  have hedge (tar src : Str) (hm : (tar, src) ∈ es.map edgeKeys) :
      GraphEdge S engine tree c tar src := by
    obtain ⟨path, hmem, rfl⟩ := mem_edgeKeys.mp hm
    exact ⟨path, h.edges_subset .nil (.refl _) _ hmem, rfl⟩
  unfold recorded at hdeps
  split_ifs at hdeps with hd
  · have hrecords := runs_records hdeps
    refine ⟨fun hno => absurd (hd.symm.trans hno) (by simp), fun tar src => ?_,
      fun _ v hv tar src hgraph => ?_⟩
    · by_cases hm : (tar, src) ∈ es.map edgeKeys
      · exact .inr ⟨hedge tar src hm, (hrecords tar src).1 hm⟩
      · exact .inl ((hrecords tar src).2 hm)
    · obtain ⟨path, hpath, htar⟩ := hgraph
      subst hv
      cases hans with
      | value v => exact (hrecords tar src).1 (mem_edgeKeys.mpr ⟨path, (h.edges _).mpr hpath, htar⟩)
  · cases hdeps
    exact ⟨fun _ => rfl, fun _ _ => .inl rfl, fun hyes => absurd hyes hd⟩

/-- The caller asks for dependencies, and for nothing else. -/
def depsMeta : Meta := [("multisource".toList, .map [("deps".toList, .deps)])]

/-- A source that is text. -/
def leaf : Entries Str := [("a.jsonic".toList, "x".toList)]

/-- The map of it. -/
abbrev leafSet : SourceSet := .ofMap leaf ⟨[], []⟩

theorem leaf_loads : (leafSet.library aloneEngine parseAlone).Loads []
    (document aloneEngine parseAlone ⟨"@a.jsonic".toList, depsMeta⟩)
    [(none, "a.jsonic".toList)] (.ok (.string "x".toList)) := by
  have hdoc : document aloneEngine parseAlone ⟨"@a.jsonic".toList, depsMeta⟩ =
      (none, .refer "a.jsonic".toList fun v => .done (.ok v)) := rfl
  have hplace : (leafSet.library aloneEngine parseAlone).place "a.jsonic".toList =
      (some "a.jsonic".toList, .done (.ok (.string "x".toList))) := rfl
  have hname : leafSet.names none "a.jsonic".toList = some "a.jsonic".toList := by decide
  rw [hdoc]
  have hload : (leafSet.library aloneEngine parseAlone).Loads ([] ++ ["a.jsonic".toList])
      ((leafSet.library aloneEngine parseAlone).place "a.jsonic".toList) []
      (.ok (.string "x".toList)) := by
    rw [hplace]
    exact .value
  exact .next hname List.not_mem_nil hload .value

/-- The map of a document with one reference gets its record. -/
theorem dependency_map_exact_leaf : ∃ wen, (depend [] TOP "a.jsonic".toList 7).find TOP
    "a.jsonic".toList = some ⟨TOP, "a.jsonic".toList, wen⟩ := by
  have htree : Textual aloneEngine parseAlone := fun _ _ => rfl
  have hfin := SourceSet.finite_ofMap leaf ⟨[], []⟩
  obtain ⟨es, o, a, hload, ha, hall⟩ :=
    evals_document hfin htree ⟨"@a.jsonic".toList, depsMeta⟩
  obtain ⟨rfl, rfl⟩ := hload.unique leaf_loads
  cases ha with
  | value v =>
    refine (dependency_map_exact leafSet hfin aloneEngine parseAlone htree
      ⟨"@a.jsonic".toList, depsMeta⟩ _ _ [] _ ((hall leafSet (.refl _) _ _).mpr ⟨rfl, rfl⟩)
      (.cons (.depend [] TOP "a.jsonic".toList 7) (.nil _))).2.2 rfl _ rfl _ _ ?_
    exact ⟨none, (leaf_loads.edges _).mp (List.mem_singleton_self _), rfl⟩

/-! ## What a run looks at -/

section Tried

variable {files files' : Entries Str} {opts : Options} {engine : Engine} {tree : Str → Parse}

/-- The candidates that are looked up: those up to the first that is there. -/
def tried (files : Entries Str) : List Str → List Str
  | [] => []
  | p :: candidates => if (files.get p).isSome then [p] else p :: tried files candidates

/-- What a reference is looked up as. -/
def candidatesAt (opts : Options) (path : Option Str) (reference : Str) : List Str :=
  buildPotentials (resolvePathSpec reference (baseAt opts path)).full opts.implicitExt

theorem find?_tried {candidates : List Str}
    (h : ∀ p ∈ tried files candidates, files'.get p = files.get p) :
    (candidates.find? fun p => (files'.get p).isSome) =
      candidates.find? fun p => (files.get p).isSome := by
  induction candidates with
  | nil => rfl
  | cons p candidates ih =>
    rw [tried] at h
    rw [List.find?_cons, List.find?_cons]
    by_cases hp : (files.get p).isSome = true
    · rw [if_pos hp] at h
      rw [h p (List.mem_singleton_self p), hp]
    · rw [if_neg hp] at h
      rw [h p (List.mem_cons_self ..), Bool.eq_false_iff.mpr hp]
      exact ih fun q hq => h q (List.mem_cons_of_mem _ hq)

theorem mem_tried_of_find? {candidates : List Str} {p : Str}
    (h : (candidates.find? fun p => (files.get p).isSome) = some p) :
    p ∈ tried files candidates := by
  induction candidates with
  | nil => cases h
  | cons q candidates ih =>
    rw [List.find?_cons] at h
    rw [tried]
    by_cases hq : (files.get q).isSome = true
    · rw [hq, Option.some.injEq] at h
      rw [if_pos hq, h]
      exact List.mem_singleton_self p
    · rw [Bool.eq_false_iff.mpr hq] at h
      rw [if_neg hq]
      exact List.mem_cons_of_mem _ (ih h)

theorem resolve_congr {path : Option Str} {reference : Str}
    (h : ∀ p ∈ tried files (candidatesAt opts path reference), files'.get p = files.get p) :
    (SourceSet.ofMap files' opts).resolve path reference =
      (SourceSet.ofMap files opts).resolve path reference := by
  have hfind := find?_tried h
  unfold candidatesAt at h hfind
  unfold SourceSet.resolve SourceSet.ofMap memResolver
  dsimp only
  rw [hfind]
  cases hs : (buildPotentials (resolvePathSpec reference (baseAt opts path)).full
      opts.implicitExt).find? fun p => (files.get p).isSome with
  | none => rfl
  | some p =>
    dsimp only
    rw [h p (mem_tried_of_find? hs)]

/-- A map that is the same at every candidate tried for the references that the document leads to
has the same runs: whatever else is added, changed or taken away is not noticed. -/
theorem runs_of_untouched (files files' : Entries Str) (opts : Options) (engine : Engine)
    (tree : Str → Parse) (htree : Textual engine tree) (c : Call)
    (h : let L := (SourceSet.ofMap files opts).library engine tree
      ∀ trail reference, L.Trail (document engine tree c) trail →
        L.Inside (L.last (document engine tree c) trail) reference →
        ∀ p ∈ tried files (candidatesAt opts (L.last (document engine tree c) trail).1 reference),
          files'.get p = files.get p)
    (tr : List (Event sig)) (a : Except Failure Value) :
    Evals (S := sig) (body files' opts engine) (body files' opts engine c) tr a ↔
      Evals (S := sig) (body files opts engine) (body files opts engine c) tr a := by
  obtain ⟨es, o, a', -, -, hall⟩ :=
    evals_document (SourceSet.finite_ofMap files opts) htree c
  refine Iff.trans (hall (SourceSet.ofMap files' opts) ?_ tr a)
    (hall (SourceSet.ofMap files opts) (.refl _) tr a).symm
  intro trail reference ht hi
  exact resolve_congr (h trail reference ht hi)

theorem leaf_inside {reference : Str}
    (h : (leafSet.library aloneEngine parseAlone).Inside
      (document aloneEngine parseAlone ⟨"@a.jsonic".toList, depsMeta⟩) reference) :
    reference = "a.jsonic".toList := by
  have hdoc : document aloneEngine parseAlone ⟨"@a.jsonic".toList, depsMeta⟩ =
      (none, .refer "a.jsonic".toList fun v => .done (.ok v)) := rfl
  rw [hdoc] at h
  cases h with
  | here => rfl
  | later _ _ h => cases h

theorem leaf_trail {trail : List Str}
    (h : (leafSet.library aloneEngine parseAlone).Trail
      (document aloneEngine parseAlone ⟨"@a.jsonic".toList, depsMeta⟩) trail) :
    trail = [] ∨ trail = ["a.jsonic".toList] := by
  induction h with
  | nil => exact .inl rfl
  | snoc _ hr ih =>
    obtain ⟨reference, hi, hn⟩ := hr
    rcases ih with rfl | rfl
    · obtain rfl := leaf_inside hi
      have hname : leafSet.names none "a.jsonic".toList = some "a.jsonic".toList := by decide
      exact .inr (by rw [Option.some.inj (hname.symm.trans hn)]; rfl)
    · cases hi

/-- A source that nothing refers to can come and go. -/
theorem runs_of_untouched_leaf : ∃ tr,
    Evals (S := sig) (body (("b.jsonic".toList, "y".toList) :: leaf) ⟨[], []⟩ aloneEngine)
      (body (("b.jsonic".toList, "y".toList) :: leaf) ⟨[], []⟩ aloneEngine
        ⟨"@a.jsonic".toList, depsMeta⟩) tr (.ok (.string "x".toList)) := by
  have htree : Textual aloneEngine parseAlone := fun _ _ => rfl
  obtain ⟨es, o, a, hload, ha, hall⟩ :=
    evals_document (SourceSet.finite_ofMap leaf ⟨[], []⟩) htree ⟨"@a.jsonic".toList, depsMeta⟩
  obtain ⟨rfl, rfl⟩ := hload.unique leaf_loads
  cases ha
  have hrun := (hall leafSet (.refl _) _ _).mpr ⟨rfl, rfl⟩
  refine ⟨_, (runs_of_untouched leaf _ ⟨[], []⟩ aloneEngine parseAlone htree
    ⟨"@a.jsonic".toList, depsMeta⟩ (fun trail reference ht hi p hp => ?_) _ _).mpr hrun⟩
  rcases leaf_trail ht with rfl | rfl
  · obtain rfl := leaf_inside hi
    have htried : tried leaf (candidatesAt ⟨[], []⟩ none "a.jsonic".toList) =
        ["a.jsonic".toList] := by
      decide
    have hp : p ∈ tried leaf (candidatesAt ⟨[], []⟩ none "a.jsonic".toList) := hp
    rw [htried, List.mem_singleton] at hp
    subst hp
    decide
  · cases hi

end Tried

end MultiSource.Go
