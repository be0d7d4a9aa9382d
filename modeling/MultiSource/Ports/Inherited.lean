import MultiSource.Identity
import MultiSource.Ports.Bases
import MultiSource.Ts.Mem

/-!
# Names a map inherits

The canonical in-memory map answers to the names of `Object.prototype` too. They have no dot, so no
candidate but a full path is one of them, and a base that is one leads the search astray.
-/

namespace MultiSource.Ports

open Ts (inheritedNames Property)
open Ts.MemResolver (lookup firstProperty)

variable {files : Entries Str}

/-! ## Names every object inherits -/

/-- A name that the map answers to without having it for a key. -/
def Inherited (files : Entries Str) (path : Str) : Prop :=
  path ∈ inheritedNames ∧ files.get path = none

instance (files : Entries Str) : DecidablePred (Inherited files) := fun _ =>
  inferInstanceAs (Decidable (_ ∧ _))

theorem inherited_chars : ∀ name ∈ inheritedNames, ∀ c ∈ name, c ≠ '.' ∧ isSep c = false := by
  have hall : inheritedNames.all (fun name => name.all fun c => c ≠ '.' && !isSep c) = true := rfl
  simpa using hall

theorem inherited_head : ∀ name ∈ inheritedNames, 2 ≤ name.length ∧ name.take 2 ≠ "in".toList := by
  decide

theorem lookup_of_not_inherited {path : Str} (h : ¬ Inherited files path) :
    lookup files path = (files.get path).map .text := by
  unfold lookup
  cases hg : files.get path with
  | some src => rfl
  | none =>
    have hn : path ∉ inheritedNames := fun hm => h ⟨hm, hg⟩
    dsimp only
    rw [if_neg hn]
    rfl

theorem lookup_of_inherited {path : Str} (h : Inherited files path) :
    lookup files path = some (.inherited path) := by
  unfold lookup
  rw [h.2]
  exact if_pos h.1

theorem not_inherited_of_dot {path : Str} (h : '.' ∈ path) : ¬ Inherited files path :=
  fun hi => (inherited_chars path hi.1 '.' h).1 rfl

/-- A search among paths that are not inherited finds keys. -/
theorem firstProperty_eq {paths : List Str} (h : ∀ p ∈ paths, ¬ Inherited files p) :
    firstProperty files paths = (firstLoaded files.get paths).map fun q => (q.1, .text q.2) := by
  induction paths with
  | nil => rfl
  | cons p paths ih =>
    have hp := lookup_of_not_inherited (h p (List.mem_cons_self ..))
    unfold firstProperty
    rw [List.findSome?_cons, hp, firstLoaded]
    cases files.get p with
    | some src => rfl
    | none => exact ih fun q hq => h q (List.mem_cons_of_mem _ hq)

/-! ## The canonical search -/

/-- What the canonical resolver tries for a reference with full path `full`. -/
def canonicalCandidates (reference full : Str) (exts : List Str) : List Str :=
  full :: Ts.buildPotentials ⟨[], some reference, some full, none, false⟩ ⟨none, exts⟩
    Ts.MemResolver.pathjoin

/-- The index files the canonical resolver names after the folder of the reference. -/
def namedIndexes (reference full : Str) (exts : List Str) : List Str :=
  match Ts.folderName reference with
  | some folder => exts.map (full ++ "/index.".toList ++ folder ++ ·)
  | none => []

theorem canonicalCandidates_eq (reference : Str) {full : Str} (exts : List Str) (hf : full ≠ []) :
    canonicalCandidates reference full exts = full ::
      if '.' ∈ afterLast isSep full then []
      else exts.map (full ++ ·) ++ exts.map (full ++ "/index".toList ++ ·) ++
        namedIndexes reference full exts := by
  unfold canonicalCandidates Ts.buildPotentials namedIndexes
  by_cases hd : '.' ∈ afterLast isSep full
  · simp [hd]
  · simp only [Option.getD_some, hf, hd, or_self, if_false, Option.bind_some]
    unfold Ts.MemResolver.pathjoin
    cases Ts.folderName reference <;> simp

theorem mem_namedIndexes {reference full p : Str} {exts : List Str}
    (h : p ∈ namedIndexes reference full exts) :
    ∃ folder, ∃ ext ∈ exts, p = full ++ "/index.".toList ++ folder ++ ext := by
  unfold namedIndexes at h
  cases hf : Ts.folderName reference with
  | none =>
    rw [hf] at h
    cases h
  | some folder =>
    rw [hf] at h
    obtain ⟨ext, he, rfl⟩ := List.mem_map.mp h
    exact ⟨folder, ext, he, rfl⟩

/-- A candidate after the first is no name an object inherits. -/
theorem dot_mem_of_mem_candidates {reference full : Str} {exts : List Str} (hf : full ≠ [])
    (hexts : ∀ ext ∈ exts, '.' ∈ ext) :
    ∀ p ∈ (canonicalCandidates reference full exts).tail, '.' ∈ p := by
  rw [canonicalCandidates_eq reference exts hf, List.tail_cons]
  split_ifs
  · simp
  · intro p hp
    rw [List.mem_append, List.mem_append] at hp
    rcases hp with (hp | hp) | hp
    · obtain ⟨ext, he, rfl⟩ := List.mem_map.mp hp
      exact List.mem_append_right _ (hexts ext he)
    · obtain ⟨ext, he, rfl⟩ := List.mem_map.mp hp
      exact List.mem_append_right _ (hexts ext he)
    · obtain ⟨folder, ext, he, rfl⟩ := mem_namedIndexes hp
      exact List.mem_append_right _ (hexts ext he)

theorem extends_of_mem_buildPotentials {full p : Str} {exts : List Str}
    (h : p ∈ buildPotentials full exts) : ∃ t, p = full ++ t := by
  have of_map : ∀ suffix : Str, p ∈ exts.map (full ++ suffix ++ ·) → ∃ t, p = full ++ t := by
    intro suffix h
    obtain ⟨ext, -, rfl⟩ := List.mem_map.mp h
    exact ⟨suffix ++ ext, List.append_assoc ..⟩
  unfold buildPotentials at h
  dsimp only at h
  split_ifs at h with h₁ h₂ h₃
  · cases h
  · exact ⟨[], by rw [List.append_nil, List.mem_singleton.mp h]⟩
  · simp only [List.append_nil, List.mem_append, List.mem_singleton] at h
    rcases h with (rfl | h) | h
    · exact ⟨[], (List.append_nil _).symm⟩
    · exact of_map [] (by simpa using h)
    · exact of_map _ h
  · simp only [List.mem_append, List.mem_singleton] at h
    rcases h with ((rfl | h) | h) | h
    · exact ⟨[], (List.append_nil _).symm⟩
    · exact of_map [] (by simpa using h)
    · exact of_map _ h
    · exact of_map ("/index.".toList ++ afterLast isSep full) (by simpa using h)

/-! ## A base that is an inherited name -/

/-- What a candidate adds to the full path: nothing, an extension, or an index file. -/
def IsSuffix (s : Str) : Prop := s = [] ∨ (∃ t, s = '.' :: t) ∨ ∃ t, s = "/in".toList ++ t

theorem IsSuffix.not_cons {s t : Str} {c : Char} (h : IsSuffix s) (hc : c ≠ '.') (hsep : c ≠ '/') :
    s ≠ c :: t := by
  rintro rfl
  rcases h with h | ⟨t, h⟩ | ⟨t, h⟩
  · cases h
  · exact hc (List.cons.inj h).1
  · exact hsep (List.cons.inj h).1

theorem suffix_of_mem_candidates {reference p : Str} {exts : List Str}
    (hexts : ∀ ext ∈ exts, ∃ t, ext = '.' :: t) (hr : reference ≠ [])
    (h : p ∈ canonicalCandidates reference reference exts) :
    ∃ s, IsSuffix s ∧ p = reference ++ s := by
  rw [canonicalCandidates_eq reference exts hr] at h
  rcases List.mem_cons.mp h with rfl | h
  · exact ⟨[], .inl rfl, (List.append_nil _).symm⟩
  · split_ifs at h
    · cases h
    · rw [List.mem_append, List.mem_append] at h
      rcases h with (h | h) | h
      · obtain ⟨ext, he, rfl⟩ := List.mem_map.mp h
        obtain ⟨t, rfl⟩ := hexts ext he
        exact ⟨_, .inr (.inl ⟨t, rfl⟩), rfl⟩
      · obtain ⟨ext, -, rfl⟩ := List.mem_map.mp h
        exact ⟨_, .inr (.inr ⟨"dex".toList ++ ext, rfl⟩), by simp⟩
      · obtain ⟨folder, ext, -, rfl⟩ := mem_namedIndexes h
        exact ⟨_, .inr (.inr ⟨"dex.".toList ++ folder ++ ext, rfl⟩), by simp⟩

/-- A path below an inherited name is no candidate for what is below it. -/
theorem below_inherited_ne {name s t : Str} (hname : name ∈ inheritedNames) (hs : IsSuffix s) :
    ∀ reference : Str, reference ++ s ≠ name ++ '/' :: (reference ++ t) := by
  obtain ⟨hlen, hin⟩ := inherited_head name hname
  -- the induction strips the name and its slash from the front of the reference
  intro reference
  induction hn : reference.length using Nat.strong_induction_on generalizing reference with
  | _ n ih =>
    intro he
    have he' : reference ++ s = (name ++ ['/']) ++ (reference ++ t) := by
      rw [he, List.append_assoc, List.singleton_append]
    rcases List.append_eq_append_iff.mp he' with ⟨rest, hrest, hs'⟩ | ⟨rest, hrest, hs'⟩
    · rcases List.eq_nil_or_concat' rest with rfl | ⟨rest', c, rfl⟩
      · -- the reference is the name with its slash
        rw [List.append_nil] at hrest
        rw [List.nil_append, ← hrest] at hs'
        cases name with
        | nil => simp at hlen
        | cons c name =>
          have hc := inherited_chars _ hname c (List.mem_cons_self ..)
          exact hs.not_cons hc.1 (not_isSep.mp hc.2).1 hs'
      · rw [← List.append_assoc] at hrest
        obtain ⟨hname', hc⟩ := List.append_inj' hrest rfl
        obtain rfl : '/' = c := List.singleton_inj.mp hc
        cases rest' with
        | nil =>
          -- the reference is the name
          rw [List.append_nil] at hname'
          subst hname'
          rcases hs with rfl | ⟨u, rfl⟩ | ⟨u, rfl⟩
          · cases hs'
          · exact absurd (List.cons.inj hs').1 (by decide)
          · have hu : "in".toList ++ u = name ++ t := (List.cons.inj hs').2
            have htake := congrArg (List.take 2) hu
            rw [List.take_append_of_le_length hlen] at htake
            exact hin htake.symm
        | cons c rest' =>
          have hc := inherited_chars _ hname c (by rw [hname']; simp)
          exact hs.not_cons hc.1 (not_isSep.mp hc.2).1 hs'
    · -- the reference goes on after the name and its slash
      subst hrest
      refine ih rest.length ?_ rest rfl ?_
      · rw [← hn]
        simp only [List.length_append, List.length_singleton]
        omega
      · rw [← hs']
        simp

end MultiSource.Ports
