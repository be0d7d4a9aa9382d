import MultiSource.Lib.Lookups
import MultiSource.Resolver

/-!
# What the searches return

Each search of the resolvers tries candidates in order and stops at the first that loads. The
results here say so once for each, so that no later proof unfolds a resolver.
-/

namespace MultiSource

/-! ## Candidate lists -/

theorem firstLoaded_eq_some {load : Str → Option Str} {candidates : List Str} {c src : Str}
    (h : firstLoaded load candidates = some (c, src)) :
    ∃ pre post, candidates = pre ++ c :: post ∧ (∀ q ∈ pre, load q = none) ∧ load c = some src := by
  induction candidates with
  | nil => simp [firstLoaded] at h
  | cons d candidates ih =>
    rw [firstLoaded] at h
    cases hd : load d with
    | some s =>
      simp only [hd, Option.some.injEq, Prod.mk.injEq] at h
      obtain ⟨rfl, rfl⟩ := h
      exact ⟨[], candidates, rfl, by simp, hd⟩
    | none =>
      rw [hd] at h
      obtain ⟨pre, post, rfl, hp, hc⟩ := ih h
      refine ⟨d :: pre, post, rfl, fun q hq => ?_, hc⟩
      rcases List.mem_cons.mp hq with rfl | hq
      · exact hd
      · exact hp q hq

theorem firstLoaded_eq_none {load : Str → Option Str} {candidates : List Str}
    (h : firstLoaded load candidates = none) : ∀ q ∈ candidates, load q = none := by
  induction candidates with
  | nil => exact fun _ hq => absurd hq List.not_mem_nil
  | cons d candidates ih =>
    rw [firstLoaded] at h
    cases hd : load d with
    | some s => simp [hd] at h
    | none =>
      rw [hd] at h
      intro q hq
      rcases List.mem_cons.mp hq with rfl | hq
      · exact hd
      · exact ih h q hq

theorem firstLoaded_eq_none_iff {load : Str → Option Str} {candidates : List Str} :
    firstLoaded load candidates = none ↔ ∀ q ∈ candidates, load q = none := by
  refine ⟨firstLoaded_eq_none, fun h => ?_⟩
  cases hs : firstLoaded load candidates with
  | none => rfl
  | some hit =>
    obtain ⟨pre, post, rfl, -, hl⟩ := firstLoaded_eq_some (show _ = some (hit.1, hit.2) from hs)
    rw [h hit.1 (by simp)] at hl
    cases hl

theorem firstLoaded_congr {load load' : Str → Option Str} {candidates : List Str}
    (h : ∀ q ∈ candidates, load q = load' q) :
    firstLoaded load candidates = firstLoaded load' candidates := by
  induction candidates with
  | nil => rfl
  | cons d candidates ih =>
    rw [firstLoaded, firstLoaded, h d (List.mem_cons_self ..),
      ih fun q hq => h q (List.mem_cons_of_mem _ hq)]

theorem firstLoaded_append (load : Str → Option Str) (as bs : List Str) :
    firstLoaded load (as ++ bs) = (firstLoaded load as).or (firstLoaded load bs) := by
  induction as with
  | nil => rfl
  | cons d as ih =>
    rw [List.cons_append, firstLoaded, firstLoaded]
    cases load d with
    | some src => rfl
    | none => exact ih

/-- Trying candidates finds the first that loads, whatever was searched before. -/
theorem tryEach_fst (load : Str → Option Str) (candidates search : List Str) :
    (tryEach load candidates search).1 = firstLoaded load candidates := by
  induction candidates generalizing search with
  | nil => rfl
  | cons d candidates ih =>
    rw [tryEach, firstLoaded]
    cases load d with
    | some src => rfl
    | none => exact ih (search ++ [d])

/-- What `resolveFirst` reports: the first candidate that loads, or none. -/
theorem resolveFirst_cases (load : Str → Option Str) (spec : PathSpec)
    (candidates search : List Str) :
    (∃ pre c post src, candidates = pre ++ c :: post ∧ (∀ q ∈ pre, load q = none) ∧
        load c = some src ∧ resolveFirst load spec candidates search =
          (Resolution.ofFound spec c src).withSearch search) ∨
      (∀ q ∈ candidates, load q = none) ∧ resolveFirst load spec candidates search =
        (Resolution.notFound spec).withSearch search := by
  unfold resolveFirst
  cases h : firstLoaded load candidates with
  | none => exact .inr ⟨firstLoaded_eq_none h, rfl⟩
  | some hit =>
    obtain ⟨c, src⟩ := hit
    obtain ⟨pre, post, he, hpre, hl⟩ := firstLoaded_eq_some h
    exact .inl ⟨pre, c, post, src, he, hpre, hl, rfl⟩

theorem search_resolveFirst (load : Str → Option Str) (spec : PathSpec)
    (candidates search : List Str) :
    (resolveFirst load spec candidates search).search = search := by
  unfold resolveFirst
  split <;> rfl

theorem resolveFirst_congr {load load' : Str → Option Str} {candidates : List Str}
    (h : ∀ q ∈ candidates, load q = load' q) (spec : PathSpec) (search : List Str) :
    resolveFirst load spec candidates search = resolveFirst load' spec candidates search := by
  unfold resolveFirst
  rw [firstLoaded_congr h]

theorem resolveFirst_found {load : Str → Option Str} {spec : PathSpec}
    {candidates search : List Str} (h : (resolveFirst load spec candidates search).found = true) :
    ∃ c ∈ candidates, ∃ src, load c = some src ∧ resolveFirst load spec candidates search =
      (Resolution.ofFound spec c src).withSearch search := by
  rcases resolveFirst_cases load spec candidates search with
    ⟨pre, c, post, src, rfl, -, hl, he⟩ | ⟨-, he⟩
  · exact ⟨c, by simp, src, hl, he⟩
  · rw [he] at h
    exact absurd h Bool.false_ne_true

theorem tryEach_hit {load : Str → Option Str} {candidates search : List Str} {c src : Str}
    (h : (tryEach load candidates search).1 = some (c, src)) :
    c ∈ candidates ∧ load c = some src := by
  induction candidates generalizing search with
  | nil => simp [tryEach] at h
  | cons d candidates ih =>
    rw [tryEach] at h
    cases hd : load d with
    | some s =>
      simp only [hd, Option.some.injEq, Prod.mk.injEq] at h
      obtain ⟨rfl, rfl⟩ := h
      exact ⟨List.mem_cons_self .., hd⟩
    | none =>
      rw [hd] at h
      obtain ⟨hm, hc⟩ := ih h
      exact ⟨List.mem_cons_of_mem _ hm, hc⟩

open Lookups in
/-- Trying candidates lists the ones that were looked up. -/
theorem lists_tryEach (candidates : List Str) :
    Lists fun load search => tryEach load candidates search := by
  induction candidates with
  | nil => exact .done none
  | cons d candidates ih =>
    have hstep : (fun load search => tryEach load (d :: candidates) search) =
        andThen (look d) fun src => src.elim (fun load search => tryEach load candidates search)
          fun src => done (some (d, src)) := by
      funext load search
      rw [tryEach]
      unfold andThen look
      dsimp only
      cases load d <;> rfl
    rw [hstep]
    refine (Lists.look d).andThen fun src => ?_
    cases src with
    | none => exact ih
    | some src => exact .done _

/-! ## The map resolver -/

theorem MapResolver.resolve_found {self : MapResolver} {reference : Option Str}
    {input : ResolverInput} (h : (self.resolve reference input).found = true) :
    ∃ spec full src search, self.files.get full = some src ∧
      self.resolve reference input = (Resolution.ofFound spec full src).withSearch search := by
  unfold MapResolver.resolve at h ⊢
  dsimp only at h ⊢
  split at h
  · exact absurd h Bool.false_ne_true
  · obtain ⟨c, -, src, hl, he⟩ := resolveFirst_found h
    exact ⟨_, c, src, _, hl, he⟩

/-! ## The file resolver -/

namespace FileResolver

variable (self : FileResolver)

/-- The search tries the path, then its potentials, and reports the first that loads. -/
theorem find_cases (fs : SourceFs) (root : Confinement) (spec : PathSpec) (full : Str)
    (exts : List Str) : let candidates := full :: potentials fs.toPathOps spec full exts
    (∃ pre c post src, candidates = pre ++ c :: post ∧ (∀ q ∈ pre, self.load fs q root = none) ∧
        self.load fs c root = some src ∧ self.find fs root spec full exts =
          (Resolution.ofFound spec c src).withSearch (if pre = [] then [c] else candidates)) ∨
      (∀ q ∈ candidates, self.load fs q root = none) ∧ self.find fs root spec full exts =
        (Resolution.notFound spec).withSearch candidates := by
  intro candidates
  unfold find
  cases hs : self.load fs full root with
  | some src => exact .inl ⟨[], full, _, src, rfl, by simp, hs, rfl⟩
  | none =>
    rcases resolveFirst_cases (self.load fs · root) spec (potentials fs.toPathOps spec full exts)
      candidates with ⟨pre, c, post, src, he, hpre, hl, hr⟩ | ⟨hn, hr⟩
    · exact .inl ⟨full :: pre, c, post, src, congrArg _ he, List.forall_mem_cons.mpr ⟨hs, hpre⟩,
        hl, hr⟩
    · exact .inr ⟨List.forall_mem_cons.mpr ⟨hs, hn⟩, hr⟩

/-- A resolution is not found for want of a path, or it is a search for a path in normal form. -/
theorem resolve_cases (os : Os) (reference : Option Str) (input : ResolverInput) :
    let fs := filesystem self.fs input.options os
    (∃ spec, self.resolve os reference input = .notFound spec) ∨
      ∃ spec path, self.resolve os reference input =
        self.find fs (Confinement.new fs self.root) spec (fs.canon path)
          input.options.implicitExt := by
  intro fs
  unfold resolve
  dsimp only
  split
  · exact .inl ⟨_, rfl⟩
  · exact .inr ⟨_, _, rfl⟩

theorem resolve_found (os : Os) (reference : Option Str) (input : ResolverInput)
    (h : (self.resolve os reference input).found = true) :
    let fs := filesystem self.fs input.options os
    ∃ spec full src search, self.load fs full (Confinement.new fs self.root) = some src ∧
      self.resolve os reference input = (Resolution.ofFound spec full src).withSearch search := by
  intro fs
  rcases self.resolve_cases os reference input with ⟨spec, he⟩ | ⟨spec, path, he⟩
  · rw [he] at h
    exact absurd h Bool.false_ne_true
  · rw [he] at h ⊢
    rcases self.find_cases fs (Confinement.new fs self.root) spec (fs.canon path)
      input.options.implicitExt with ⟨pre, full, post, src, -, -, hl, hr⟩ | ⟨-, hr⟩
    · exact ⟨spec, full, src, _, hl, hr⟩
    · rw [hr] at h
      exact absurd h Bool.false_ne_true

end FileResolver

/-! ## The package resolver -/

namespace PkgResolver

variable {manifest : Str → Option Str} {ops : PathOps} {load : Str → Option Str}

theorem resolveInPkgDir_hit {nodeModules reference : Str} {exts search : List Str} {c src : Str}
    (h : (resolveInPkgDir manifest ops load nodeModules reference exts search).1 = some (c, src)) :
    load c = some src ∧ ∃ parts, c ∈ buildPotentials (ops.join parts) exts := by
  unfold resolveInPkgDir at h
  dsimp only at h
  split at h
  · rename_i hit search' ht
    obtain ⟨hm, hl⟩ := tryEach_hit ((congrArg Prod.fst ht).trans h)
    exact ⟨hl, _, List.mem_of_mem_filter hm⟩
  · split at h
    · rename_i hit search' ht
      obtain ⟨hm, hl⟩ := tryEach_hit ((congrArg Prod.fst ht).trans h)
      split at hm
      · exact ⟨hl, _, hm⟩
      · exact absurd hm List.not_mem_nil
    · obtain ⟨hm, hl⟩ := tryEach_hit h
      exact ⟨hl, _, List.mem_of_mem_filter hm⟩

theorem searchFolders_hit {reference : Str} {exts folders seen search : List Str} {c src : Str}
    (h : (searchFolders manifest ops load reference exts folders seen search).1 = some (c, src)) :
    load c = some src ∧ ∃ parts, c ∈ buildPotentials (ops.join parts) exts := by
  induction folders generalizing seen search with
  | nil => simp [searchFolders] at h
  | cons folder folders ih =>
    rw [searchFolders] at h
    split_ifs at h with hs
    · exact ih h
    · split at h
      · rename_i hit search' ht
        exact resolveInPkgDir_hit ((congrArg Prod.fst ht).trans h)
      · exact ih h

/-- A resolution that finds a source reports a candidate that loads: the normal form of a path or
a potential of it, or a potential of a joined path. -/
theorem resolve_found (self : PkgResolver) (os : Os) (reference : Option Str)
    (input : ResolverInput) (h : (self.resolve manifest os reference input).found = true) :
    let fs := filesystem self.fs input.options os
    ∃ spec c src search, pkgLoad fs (Confinement.new fs self.root) c = some src ∧
      ((∃ path, c ∈ potentialsOf (fs.canon path) (extKind (some (fs.canon path)))
          input.options.implicitExt) ∨
        ∃ parts, c ∈ buildPotentials (fs.join parts) input.options.implicitExt) ∧
      self.resolve manifest os reference input =
        (Resolution.ofFound spec c src).withSearch search := by
  intro fs
  unfold resolve at h ⊢
  dsimp only at h ⊢
  split at h
  · exact absurd h Bool.false_ne_true
  · split_ifs at h ⊢ with hp hr
    · exact absurd h Bool.false_ne_true
    · split at h
      · exact absurd h Bool.false_ne_true
      · obtain ⟨c, hc, src, hl, he⟩ := resolveFirst_found h
        exact ⟨_, c, src, _, hl, .inl ⟨_, hc⟩, he⟩
    · unfold resolvePackage at h ⊢
      dsimp only at h ⊢
      split at h
      · rename_i c src search hs
        obtain ⟨hl, hp⟩ := searchFolders_hit (congrArg Prod.fst hs)
        exact ⟨_, c, src, search, hl, .inr hp, rfl⟩
      · exact absurd h Bool.false_ne_true

end PkgResolver

end MultiSource
