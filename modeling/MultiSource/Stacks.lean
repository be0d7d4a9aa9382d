import MultiSource.Ancestors

/-!
# Stacks

Every second level of nesting is parsed on a thread of its own. So however the sources of a document
refer to each other, no stack ever holds more than two parses, and the cap bounds the stacks.
-/

namespace MultiSource

open Interaction

variable {I : Type} {options : MultiSourceOptions} {engine : Engine I options.markchar}

/-- The call is given a thread. -/
def Call.spawns : Call I → Bool
  | .parse .. => false
  | .nested _ _ _ depth => depth % SEGMENT = 1

/-- The parses of each stack, of calls the running one of which is first: one that is given a thread
is the first on its stack. -/
def onStacks : List (Call I) → List (List (Call I))
  | [] => []
  | c :: cs =>
    if c.spawns then [c] :: onStacks cs
    else
      match onStacks cs with
      | [] => [[c]]
      | s :: ss => (c :: s) :: ss

/-- A processor may parse sources nested in a load of a source with a path, and no foreign code
starts a parse of its own. -/
inductive Nesting : Op I → Call I → Prop
  | source {id : ℕ} {resolution : Resolution} {parseMeta childMeta : Value} {parser : I}
      {depth : ℕ} {src : Str} : metaGet childMeta RULE_NAME = metaGet parseMeta RULE_NAME →
      (sourcePath parseMeta).isSome = true →
      Nesting (.process id resolution parseMeta parser depth) (.nested parser src childMeta depth)

theorem Nesting.foreign {o : Op I} {c : Call I} (h : Nesting o c) : Foreign o c := by
  cases h with
  | source hm _ => exact .source hm

/-- Calls that nest: a top-level parse, and above it one of each depth. -/
inductive Tower : List (Call I) → Prop
  | parse (parser : I) (src : Str) (parseMeta : Value) : Tower [.parse parser src parseMeta]
  | nested {cs : List (Call I)} (parser : I) (src : Str) (parseMeta : Value) (depth : ℕ) :
      Tower cs → cs.length = depth + 1 → Tower (.nested parser src parseMeta depth :: cs)

/-- Every stack of a tower is full but the one that is running. -/
theorem Tower.onStacks {cs : List (Call I)} (h : Tower cs) :
    ∃ s ss, MultiSource.onStacks cs = s :: ss ∧ s.length = (cs.length - 1) % SEGMENT + 1 ∧
      (∀ s' ∈ ss, s'.length = SEGMENT) ∧ ss.length = (cs.length - 1) / SEGMENT := by
  induction h with
  | parse parser src parseMeta =>
    exact ⟨_, [], rfl, rfl, fun _ h => absurd h List.not_mem_nil, (Nat.zero_div _).symm⟩
  | @nested cs parser src parseMeta depth _ hlen ih =>
    obtain ⟨s, ss, he, hs, hss, hcount⟩ := ih
    rw [hlen, Nat.add_sub_cancel] at hs hcount
    rw [MultiSource.onStacks, List.length_cons, Nat.add_sub_cancel, hlen, he]
    have hspawns : (Call.nested parser src parseMeta depth).spawns = decide (depth % SEGMENT = 1) :=
      rfl
    rw [hspawns]
    unfold SEGMENT at *
    by_cases hd : depth % 2 = 1
    · rw [if_pos (decide_eq_true hd)]
      refine ⟨_, _, rfl, ?_, fun s' hs' => ?_, ?_⟩
      · rw [List.length_singleton]
        omega
      · rcases List.mem_cons.mp hs' with rfl | hs'
        · omega
        · exact hss s' hs'
      · rw [List.length_cons]
        omega
    · rw [if_neg (by simpa using hd)]
      refine ⟨_, _, rfl, ?_, hss, ?_⟩
      · rw [List.length_cons]
        omega
      · omega

/-! ## The calls of a thread nest -/

section Runs

variable {W : World I} {s₀ : Shared I} {p : Parses options I}

theorem guarded_nesting : Guarded (installation engine W Nesting Fresh) (guard options) :=
  guarded (fun _ _ h => h.foreign) fun _ h => h.topLevel

theorem stackRule_nesting : StackRule (installation engine W Nesting Fresh) (guard options)
    (Inner (I := I)) where
  call n c hc := by
    cases c with
    | parse parser src parseMeta => exact absurd hc id
    | nested parser src parseMeta depth => exact ⟨hc.2, rfl⟩
  foreign n o c ha hc := by
    cases hc with
    | source hm hp => exact ⟨by rw [← Nests.path ha.1]; exact hp, rfl⟩
  op n m o r h := by rwa [Inner, tell_loading, mark_chain, tell_chain]
  below m m' o r h := by rwa [Inner, tell_chain]

/-- A frame's chain is one longer than its depth, and within the cap. -/
structure Level (options : MultiSourceOptions) (n : Note I) : Prop where
  base : n.base = []
  cap : n.chain.length ≤ options.maxDepth
  parse : ∀ parser src parseMeta, n.call = .parse parser src parseMeta → n.chain = []
  nested : ∀ parser src parseMeta depth, n.call = .nested parser src parseMeta depth →
    n.chain.length = depth + 1

theorem Nests.level {n : Note I} {parser : I} {src : Str} {parseMeta childMeta : Value} {depth : ℕ}
    (h : Nests options n parseMeta parser depth) (hl : n.loading.isSome = true)
    (hn : Level options n) : Level options (n.nest (.nested parser src childMeta depth)) where
  base := hn.base
  cap := (h.withinCap (by rw [hn.base]; exact ⟨List.nodup_nil, Nat.zero_le _⟩)).2
  parse _ _ _ hc := by cases hc
  nested _ _ _ _ hc := by
    obtain ⟨-, -, -, rfl⟩ := Call.nested.inj hc
    obtain ⟨full, hfull⟩ := Option.isSome_iff_exists.mp hl
    show (n.chain ++ n.loading.toList).length = _
    rw [hfull, List.length_append, h.depth_eq]
    rfl

theorem Fresh.level {c : Call I} (hc : Fresh c) : Level options (Note.fresh c) := by
  cases c with
  | parse parser src parseMeta =>
    have hchain : metaChain parseMeta = [] := Unmarked.chain hc
    refine ⟨hchain, ?_, fun _ _ _ _ => hchain, fun _ _ _ _ h => by cases h⟩
    show (metaChain parseMeta).length ≤ _
    rw [hchain]
    exact Nat.zero_le _
  | nested parser src parseMeta depth => exact absurd hc id

theorem noteRule_level : NoteRule (installation engine W Nesting Fresh) (guard options)
    (Level (I := I) options) where
  top c hc := by
    cases c with
    | parse parser src parseMeta => exact Fresh.level hc
    | nested parser src parseMeta depth => exact absurd hc id
  call n c hn hc := by
    cases c with
    | parse parser src parseMeta => exact absurd hc id
    | nested parser src parseMeta depth => exact hc.1.level hc.2 hn
  foreign n o c hn ha hc := by
    cases hc with
    | source hm hp => exact Nests.level ha.1 (by rw [← Nests.path ha.1]; exact hp) hn
  mark n o r hn _ := by
    obtain ⟨_, _, _, _, _, _, h⟩ := mark_standing options n o r
    rw [h]
    exact ⟨hn.base, hn.cap, hn.parse, hn.nested⟩
  tell n o r hn := by
    obtain ⟨_, h⟩ := tell_noted options n o r
    rw [h]
    exact ⟨hn.base, hn.cap, hn.parse, hn.nested⟩

/-- Frames that each run inside the load of the next make calls that nest. -/
theorem tower_of_stack {n : Note I} {ns : List (Note I)} (hc : (n :: ns).IsChain Inner)
    (hl : ∀ m ∈ n :: ns, Level options m) (hb : ∀ m ∈ (n :: ns).getLast?, m.chain = []) :
    Tower ((n :: ns).map Note.call) ∧ n.chain.length = ns.length := by
  induction ns generalizing n with
  | nil =>
    have hchain : n.chain = [] := hb n rfl
    refine ⟨?_, by rw [hchain]; rfl⟩
    cases hcall : n.call with
    | parse parser src parseMeta =>
      rw [List.map_singleton, hcall]
      exact .parse ..
    | nested parser src parseMeta depth =>
      have hlen := (hl n (List.mem_cons_self ..)).nested _ _ _ _ hcall
      rw [hchain] at hlen
      exact absurd hlen (Nat.succ_ne_zero _).symm
  | cons m ns ih =>
    obtain ⟨hm, hc⟩ := List.isChain_cons_cons.mp hc
    obtain ⟨htower, hlen⟩ := ih hc (fun k hk => hl k (List.mem_cons_of_mem _ hk)) hb
    obtain ⟨full, hfull⟩ := Option.isSome_iff_exists.mp hm.1
    have hn : n.chain.length = ns.length + 1 := by
      rw [hm.2, hfull, Option.toList_some, List.length_append, hlen]
      rfl
    refine ⟨?_, hn⟩
    have hlevel := hl n (List.mem_cons_self ..)
    cases hcall : n.call with
    | parse parser src parseMeta =>
      rw [hlevel.parse _ _ _ hcall] at hn
      exact absurd hn.symm (Nat.succ_ne_zero _)
    | nested parser src parseMeta depth =>
      have hdepth := hlevel.nested _ _ _ _ hcall
      rw [List.map_cons, hcall]
      refine .nested parser src parseMeta depth htower ?_
      rw [List.length_map, List.length_cons]
      omega

theorem tower_of_reachable (hp : Pool.Reachable (installation engine W Nesting Fresh) s₀ p)
    {t : Running options I} (ht : t ∈ p.threads) :
    Tower (t.notes.map Note.call) ∧ t.note.chain.length = t.callers.length := by
  have hreached := hp.reached t ht
  have hbottom : ∀ m ∈ t.notes.getLast?, m.chain = [] := by
    refine hreached.bottom (fun c hc => ?_) (fun n o r hn => ?_) fun n o r hn => ?_
    · cases c with
      | parse parser src parseMeta => exact Unmarked.chain hc
      | nested parser src parseMeta depth => exact absurd hc id
    · rwa [mark_chain]
    · rwa [tell_chain]
  obtain ⟨htower, hlen⟩ := tower_of_stack (stackRule_nesting.stacked guarded_nesting hreached)
    (noteRule_level.notes guarded_nesting hreached).1 hbottom
  rw [List.length_map] at hlen
  exact ⟨htower, hlen⟩

end Runs

/-- In every run of any number of parses, whatever the resolver answers and whatever a processor
does that parses what it loaded through its input: no stack holds more parses than a segment, all
but the running one hold exactly that many, and the cap bounds the stacks of a parse. -/
theorem stacks_bounded (engine : Engine I options.markchar) (W : World I) {s₀ : Shared I}
    {p : Parses options I} (hp : Pool.Reachable (installation engine W Nesting Fresh) s₀ p) :
    ∀ t ∈ p.threads, ∃ s ss, onStacks (t.notes.map Note.call) = s :: ss ∧
      s.length = t.callers.length % SEGMENT + 1 ∧ (∀ s' ∈ ss, s'.length = SEGMENT) ∧
      ss.length = t.callers.length / SEGMENT ∧ ss.length ≤ options.maxDepth / SEGMENT := by
  intro t ht
  obtain ⟨htower, hlen⟩ := tower_of_reachable hp ht
  obtain ⟨s, ss, he, hs, hss, hcount⟩ := htower.onStacks
  have hcalls : (t.notes.map Note.call).length - 1 = t.callers.length := by
    simp [Thread.notes]
  rw [hcalls] at hs hcount
  refine ⟨s, ss, he, hs, hss, hcount, ?_⟩
  have hlevel : Level options t.note :=
    (noteRule_level.notes guarded_nesting (hp.reached t ht)).1 _ (List.mem_cons_self ..)
  rw [hcount, ← hlen]
  exact Nat.div_le_div_right hlevel.cap

/-- A document whose reference is being loaded. -/
def loadingParse : Parses MultiSourceOptions.new Bool :=
  (List.replicate 6 0).foldl
    (Pool.turn (installation aloneEngine danglingWorld Nesting Fresh) (answer danglingResolve))
    ⟨Shared.init, [Thread.start (installation aloneEngine danglingWorld Nesting Fresh)
      (ledger MultiSourceOptions.new) (.parse true "@a".toList .undefined)]⟩

theorem stacks_bounded_loading : ∃ t ∈ loadingParse.threads,
    t.callers.length = 1 ∧ ∃ s, onStacks (t.notes.map Note.call) = [s] ∧ s.length = SEGMENT := by
  have hreach : Pool.Reachable (installation aloneEngine danglingWorld Nesting Fresh) Shared.init
      loadingParse :=
    Pool.ReachableBy.turns (handles_answer danglingResolve _) (.step .init (.start (by
      exact (rfl : metaGet _ _ = _))) trivial) (Pool.keeps_trivial _ _)
  have hcallers : loadingParse.threads.map (fun t => t.callers.length) = [1] := by decide +kernel
  obtain ⟨t, ht, hlen⟩ : ∃ t ∈ loadingParse.threads, t.callers.length = 1 := by
    have h : 1 ∈ loadingParse.threads.map (fun t => t.callers.length) := by
      rw [hcallers]
      exact List.mem_singleton_self 1
    exact List.mem_map.mp h
  obtain ⟨s, ss, he, hs, -, hss, -⟩ := stacks_bounded aloneEngine danglingWorld hreach t ht
  rw [hlen] at hs hss
  obtain rfl : ss = [] := List.length_eq_zero_iff.mp hss
  exact ⟨t, ht, hlen, s, he, hs⟩

end MultiSource
