import MultiSource.Go.Plugin

/-!
# The sources of a resolver in the Go port

What a resolver finds are texts, each under a path of its own. A reference names one of them from
where it stands.
-/

namespace MultiSource.Go

open Interaction

/-- The sources a resolver finds under its options, by the path each has its text at. -/
structure SourceSet where
  resolver : Resolver
  opts : Options
  text : Str → Option Str
  of_found : ∀ spec, (resolver spec opts).found = true → Found text (resolver spec opts)

/-- The base of a reference in a source, or at the top level. -/
def baseAt (opts : Options) : Option Str → Str
  | none => opts.path
  | some path => sourceDir path

namespace SourceSet

variable (S : SourceSet)

/-- A reference put to the resolver, from where it stands. -/
def resolve (path : Option Str) (reference : Str) : Resolution :=
  S.resolver (resolvePathSpec reference (baseAt S.opts path)) S.opts

/-- The source a reference loads. -/
def names (path : Option Str) (reference : Str) : Option Str :=
  if (S.resolve path reference).found then some (S.resolve path reference).full else none

/-- The plugin over the resolver. -/
abbrev body (engine : Engine) (c : Call) : Program (Except Failure Value) :=
  S.resolver.body S.opts engine c

variable {S} {path : Option Str} {reference full : Str}

theorem resolve_found (h : (S.resolve path reference).found = true) :
    Found S.text (S.resolve path reference) :=
  S.of_found _ h

theorem names_eq_some : S.names path reference = some full ↔
    (S.resolve path reference).found = true ∧ (S.resolve path reference).full = full := by
  unfold names
  split_ifs with h <;> simp [h]

theorem names_eq_none : S.names path reference = none ↔
    (S.resolve path reference).found = false := by
  unfold names
  split_ifs with h <;> simp [h]

variable (S) in
/-- The paths of all that is found are on one list. -/
def Finite : Prop := ∃ keys : List Str, ∀ path reference full,
  S.names path reference = some full → full ∈ keys

end SourceSet

/-! ## A map -/

/-- The sources of a map. -/
def SourceSet.ofMap (files : Entries Str) (opts : Options) : SourceSet where
  resolver := memResolver files
  opts := opts
  text := files.get
  of_found _ := memResolver_found

theorem SourceSet.finite_ofMap (files : Entries Str) (opts : Options) :
    (SourceSet.ofMap files opts).Finite := by
  refine ⟨files.map Prod.fst, fun path reference full h => ?_⟩
  obtain ⟨hf, rfl⟩ := SourceSet.names_eq_some.mp h
  exact List.mem_map.mpr ⟨_, Entries.get_mem (SourceSet.resolve_found hf).text_eq, rfl⟩

end MultiSource.Go
