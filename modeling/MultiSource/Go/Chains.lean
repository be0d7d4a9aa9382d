import Mathlib.Data.List.Dedup
import Mathlib.Data.List.Perm.Subperm
import MultiSource.Go.Plugin

/-!
# The load recursion of the Go port

Nothing but the cycle check stops a load from loading again. Each load puts a new key on the chain
its metadata spells out, so there are no more loads inside each other than keys.
-/

namespace MultiSource.Go

open Interaction

variable {files : Entries Str} {opts : Options} {engine : Engine}

/-! ## One load -/

/-- The parse of a source that a reference in `c` loads. -/
def Loads (files : Entries Str) (opts : Options) (c d : Call) : Prop :=
  ∃ pathStr, (resolve files opts pathStr c.parseMeta).found = true ∧
    (resolve files opts pathStr c.parseMeta).full ∉ metaChain c.parseMeta ∧
    d = ⟨(resolve files opts pathStr c.parseMeta).src,
      childMeta c.parseMeta (resolve files opts pathStr c.parseMeta)⟩

theorem not_makes_recordEdge {parseMeta : Meta} {full : Str} {c : Call} :
    ¬ Makes (S := sig) (recordEdge parseMeta full) c := by
  unfold recordEdge
  split_ifs
  · rintro (⟨_, h⟩ | _)
    exact not_makes_ret h
  · exact not_makes_ret

theorem makes_process {res : Resolution} {parseMeta : Meta} {c : Call}
    (h : Makes (S := sig) (process res parseMeta) c) : c = ⟨res.src, parseMeta⟩ := by
  unfold process at h
  split at h
  · exact absurd h not_makes_ret
  · unfold jsonicProcessor at h
    split_ifs at h with hs
    · exact absurd h not_makes_ret
    · cases h with
      | call => rfl
      | after a h => cases a <;> exact absurd h not_makes_ret

theorem makes_resolveSource {pathStr : Str} {c d : Call}
    (h : Makes (S := sig) (resolveSource files opts pathStr c.parseMeta) d) :
    Loads files opts c d := by
  unfold resolveSource Resolver.resolveSource at h
  dsimp only at h
  split_ifs at h with hf
  · split at h
    · exact absurd h not_makes_ret
    · rename_i hi
      rcases makes_bind h with h | ⟨_, h⟩
      · exact absurd h not_makes_recordEdge
      · refine ⟨pathStr, hf, fun hm => ?_, makes_process h⟩
        rw [fullPath_of_ne_nil (resolve_found hf).named] at hi
        simpa using List.findIdx?_eq_none_iff.mp hi _ hm
  · exact absurd h not_makes_ret

theorem makes_action {c d : Call} {site : Site}
    (h : Makes (S := sig) (action files opts engine c.parseMeta site) d) :
    Loads files opts c d := by
  rcases makes_bind h with h | ⟨_, h⟩
  · exact makes_resolveSource h
  · exact absurd h not_makes_ret

/-- Whatever a parse calls is a source that one of its references loads. -/
theorem makes_run {c d : Call} {tree : Parse}
    (h : Makes (S := sig) (run files opts engine c.parseMeta tree) d) : Loads files opts c d := by
  induction tree with
  | done result => exact absurd h not_makes_ret
  | act site next ih =>
    rw [run, Resolver.run] at h
    rcases makes_bind h with h | ⟨result, h⟩
    · exact makes_action h
    · cases result with
      | applied effect => exact ih effect h
      | bad token code details => exact absurd h not_makes_ret

theorem makes_body {c d : Call} (h : Makes (S := sig) (body files opts engine c) d) :
    Loads files opts c d := makes_run h

/-- A load puts a key on the chain that was not there. -/
theorem Loads.extends {c d : Call} (h : Loads files opts c d) :
    files.get (metaSourcePath d.parseMeta) = some d.src ∧
      metaSourcePath d.parseMeta ∉ metaChain c.parseMeta ∧
      metaChain d.parseMeta = metaChain c.parseMeta ++ [metaSourcePath d.parseMeta] := by
  obtain ⟨pathStr, hf, hm, rfl⟩ := h
  obtain ⟨hget, hne, -⟩ := resolve_found hf
  dsimp only
  rw [metaSourcePath_childMeta, metaChain_childMeta _ _ hne]
  exact ⟨hget, hm, rfl⟩

/-! ## Loads inside each other -/

/-- The sources being loaded, outermost first: what every parse but the first is the parse of. -/
def enclosing (calls : List Call) : List Str :=
  calls.dropLast.reverse.map fun c => metaSourcePath c.parseMeta

theorem enclosing_cons (d c : Call) (cs : List Call) :
    enclosing (d :: c :: cs) = enclosing (c :: cs) ++ [metaSourcePath d.parseMeta] := by
  unfold enclosing
  rw [List.dropLast_cons_cons, List.reverse_cons, List.map_append]
  rfl

theorem length_enclosing (c : Call) (cs : List Call) :
    (enclosing (c :: cs)).length = cs.length := by
  simp [enclosing]

/-- The keys of a map. -/
def keys (files : Entries Str) : List Str := (files.map Prod.fst).dedup

theorem mem_keys_of_get {key src : Str} (h : files.get key = some src) : key ∈ keys files :=
  List.mem_dedup.mpr (List.mem_map.mpr ⟨_, Entries.get_mem h, rfl⟩)

/-- What holds of the parses under way: the chain of the innermost is the caller's chain and then
the sources being loaded, which are keys, no two the same and none on the caller's chain. -/
structure Chained (files : Entries Str) (base : List Str) (c : Call) (cs : List Call) : Prop where
  chain : metaChain c.parseMeta = base ++ enclosing (c :: cs)
  sources : ∀ d ∈ (c :: cs).dropLast, files.get (metaSourcePath d.parseMeta) = some d.src
  nodup : (enclosing (c :: cs)).Nodup
  fresh : ∀ key ∈ enclosing (c :: cs), key ∉ base

theorem Chained.root (c : Call) : Chained files (metaChain c.parseMeta) c [] where
  chain := (List.append_nil _).symm
  sources d hd := by cases hd
  nodup := List.nodup_nil
  fresh key hk := by cases hk

theorem Chained.load {base : List Str} {c d : Call} {cs : List Call}
    (h : Chained files base c cs) (hl : Loads files opts c d) :
    Chained files base d (c :: cs) := by
  obtain ⟨hget, hnew, hchain⟩ := hl.extends
  rw [h.chain, List.mem_append, not_or] at hnew
  refine ⟨?_, ?_, ?_, ?_⟩
  · rw [hchain, h.chain, enclosing_cons, List.append_assoc]
  · intro e he
    rw [List.dropLast_cons_cons] at he
    rcases List.mem_cons.mp he with rfl | he
    · exact hget
    · exact h.sources e he
  · rw [enclosing_cons, List.nodup_append]
    refine ⟨h.nodup, List.nodup_singleton _, ?_⟩
    intro a ha b hb
    rw [List.mem_singleton.mp hb]
    rintro rfl
    exact hnew.2 ha
  · intro key hk
    rw [enclosing_cons] at hk
    rcases List.mem_append.mp hk with hk | hk
    · exact h.fresh key hk
    · rw [List.mem_singleton.mp hk]
      exact hnew.1

theorem chained_of_stack {root c : Call} {cs : List Call}
    (h : Stack (S := sig) (body files opts engine) root (c :: cs)) :
    Chained files (metaChain root.parseMeta) c cs :=
  Stack.holds (S := sig) (P := Chained files (metaChain root.parseMeta)) (.root root)
    (fun hc hm => hc.load (makes_body hm)) h

theorem Chained.length_le {base : List Str} {c : Call} {cs : List Call}
    (h : Chained files base c cs) : cs.length ≤ (keys files).length := by
  rw [← length_enclosing c cs]
  refine (h.nodup.subperm fun key hk => ?_).length_le
  obtain ⟨d, hd, rfl⟩ := List.mem_map.mp hk
  exact mem_keys_of_get (h.sources d (List.mem_reverse.mp hd))

/-! ## The recursion ends -/

/-- How many keys are not yet on the chain of a parse. -/
def remaining (files : Entries Str) (c : Call) : ℕ :=
  ((keys files).filter (· ∉ metaChain c.parseMeta)).length

theorem Loads.remaining_lt {c d : Call} (h : Loads files opts c d) :
    remaining files d < remaining files c := by
  obtain ⟨hget, hnew, hchain⟩ := h.extends
  unfold remaining
  rw [hchain]
  have hsub : ((keys files).filter (· ∉ metaChain c.parseMeta ++
      [metaSourcePath d.parseMeta])).Sublist ((keys files).filter (· ∉ metaChain c.parseMeta)) :=
    List.monotone_filter_right _ fun key hk => by
      simp only [decide_eq_true_eq, List.mem_append, not_or] at hk ⊢
      exact hk.1
  apply lt_of_le_of_ne hsub.length_le
  intro he
  have hmem : metaSourcePath d.parseMeta ∈ (keys files).filter (· ∉ metaChain c.parseMeta) :=
    List.mem_filter.mpr ⟨mem_keys_of_get hget, by simpa using hnew⟩
  rw [← hsub.eq_of_length he, List.mem_filter] at hmem
  simp at hmem

theorem remaining_le (c : Call) : remaining files c ≤ (keys files).length :=
  List.length_filter_le _ _

/-- A parse comes to an end within as many levels as there are keys not on its chain. -/
theorem interpret_isSome {σ : Type} {F : σ → (o : Op) → o.Resp × σ} {n : ℕ} {c : Call}
    (h : remaining files c < n) (s : σ) :
    (interpret (S := sig) F (body files opts engine) n s c).isSome = true := by
  induction n generalizing c s with
  | zero => omega
  | succ n ih =>
    refine interpretWith_isSome (fun d hd s => ih ?_ s) s
    have := (makes_body hd).remaining_lt
    omega

/-- A reference to a source on the chain is reported as a cycle. -/
theorem action_of_member {parseMeta : Meta} {site : Site}
    (hf : (resolve files opts (site.reference engine) parseMeta).found = true)
    (hm : (resolve files opts (site.reference engine) parseMeta).full ∈ metaChain parseMeta) :
    ∃ loop, action files opts engine parseMeta site = .ret (site.bad (cycleReport
      (resolve files opts (site.reference engine) parseMeta).full loop)) := by
  unfold action Resolver.action Resolver.resolveSource
  dsimp only
  rw [if_pos hf, fullPath_of_ne_nil (resolve_found hf).named]
  cases hi : (metaChain parseMeta).findIdx?
      (· = (resolve files opts (site.reference engine) parseMeta).full) with
  | none =>
    exact absurd (List.findIdx?_eq_none_iff.mp hi _ hm) (by simp)
  | some i => exact ⟨_, rfl⟩

/-- In every run of every document: the chain of a parse is the chain the caller gave and then the
sources being loaded, keys of the map and pairwise distinct; a reference to one of the chain is
reported as a cycle; and so no more loads are inside each other than there are keys, and the run
comes to its end. -/
theorem load_recursion_ends (files : Entries Str) (opts : Options) (engine : Engine)
    (document : Str) (parseMeta : Meta) :
    (∀ c cs, Stack (S := sig) (body files opts engine) ⟨document, parseMeta⟩ (c :: cs) →
      Chained files (metaChain parseMeta) c cs ∧ cs.length ≤ (keys files).length ∧
        ∀ site, (resolve files opts (site.reference engine) c.parseMeta).found = true →
          (resolve files opts (site.reference engine) c.parseMeta).full ∈ metaChain c.parseMeta →
          ∃ loop, action files opts engine c.parseMeta site = .ret (site.bad (cycleReport
            (resolve files opts (site.reference engine) c.parseMeta).full loop))) ∧
    ∀ (σ : Type) (F : σ → (o : Op) → o.Resp × σ) (s : σ),
      (interpret (S := sig) F (body files opts engine) ((keys files).length + 1) s
        ⟨document, parseMeta⟩).isSome = true := by
  refine ⟨fun c cs h => ?_, fun σ F s => ?_⟩
  · have hc := chained_of_stack h
    exact ⟨hc, hc.length_le, fun site => action_of_member⟩
  · exact interpret_isSome (Nat.lt_succ_of_le (remaining_le _)) s

end MultiSource.Go
