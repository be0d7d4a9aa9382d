import MultiSource.Ledger

/-!
# The ancestor chain

The chain a directive action computes from its metadata is the list of the sources it stands in.
Each load makes it longer and the cap bounds it, so every parse comes to an end.
-/

namespace MultiSource

open Interaction

variable {I : Type} {options : MultiSourceOptions} {engine : Engine I options.markchar}

/-! ## The chain against the stack -/

/-- The full paths of the sources being loaded by the frames that wait, outermost first. -/
def enclosing (t : Running options I) : List Str :=
  t.callers.reverse.filterMap fun f => f.1.loading

/-- `n` runs inside the source `m` is loading. -/
def Inner (n m : Note I) : Prop :=
  m.loading.isSome = true ∧ n.chain = m.chain ++ m.loading.toList

/-- No foreign code makes calls. -/
abbrev sealed : Op I → Call I → Prop := fun _ _ => False

section Stack

variable {W : World I} {s₀ : Shared I} {p : Parses options I}

theorem guarded_sealed : Guarded (installation engine W sealed Fresh) (guard options) :=
  guarded (fun _ _ h => h.elim) fun _ h => h.topLevel

theorem stackRule_inner : StackRule (installation engine W sealed Fresh) (guard options)
    (Inner (I := I)) where
  call n c hc := by
    cases c with
    | parse parser src parseMeta => exact absurd hc id
    | nested parser src parseMeta depth => exact ⟨hc.2, rfl⟩
  foreign n o c _ hc := absurd hc id
  op n m o r h := by rwa [Inner, tell_loading, mark_chain, tell_chain]
  below m m' o r h := by rwa [Inner, tell_chain]

theorem noteRule_base : NoteRule (installation engine W sealed Fresh) (guard options)
    (fun n : Note I => n.base = []) where
  top c hc := by
    cases c with
    | parse parser src parseMeta => exact Unmarked.chain hc
    | nested parser src parseMeta depth => exact absurd hc id
  call n c hn hc := by
    cases c with
    | parse parser src parseMeta => exact absurd hc id
    | nested parser src parseMeta depth => exact hn
  foreign n o c _ _ hc := absurd hc id
  mark n o r hn _ := by rwa [mark_base]
  tell n o r hn := by rwa [tell_base]

/-- A stack of frames, each inside the source the next is loading, spells out its chain. -/
theorem chain_eq_of_stack {A : Type} {cs : List (Note I × A)} {n : Note I}
    (hc : (n :: cs.map Prod.fst).IsChain Inner)
    (hb : ∀ m ∈ (n :: cs.map Prod.fst).getLast?, m.chain = []) :
    n.chain = cs.reverse.filterMap (fun f => f.1.loading) ∧ n.chain.length = cs.length := by
  induction cs generalizing n with
  | nil =>
    have h := hb n rfl
    exact ⟨h, by rw [h]; rfl⟩
  | cons f cs ih =>
    obtain ⟨hf, hc⟩ := List.isChain_cons_cons.mp hc
    obtain ⟨h₁, h₂⟩ := ih hc hb
    obtain ⟨full, hl⟩ := Option.isSome_iff_exists.mp hf.1
    have hn : n.chain = f.1.chain ++ [full] := by rw [hf.2, hl, Option.toList_some]
    refine ⟨?_, ?_⟩
    · rw [hn, h₁, List.reverse_cons, List.filterMap_append]
      simp [hl]
    · rw [hn, List.length_append, h₂]
      rfl

theorem chain_eq_enclosing
    (hp : Pool.Reachable (installation engine W sealed Fresh) s₀ p)
    {t : Running options I} (ht : t ∈ p.threads) :
    t.note.chain = enclosing t ∧ t.note.chain.length = t.callers.length := by
  have hb := (hp.reached t ht).bottom (P := fun n : Note I => n.chain = []) ?_ ?_ ?_
  · exact chain_eq_of_stack (stackRule_inner.stacked guarded_sealed (hp.reached t ht)) hb
  · intro c hc
    cases c with
    | parse parser src parseMeta => exact Unmarked.chain hc
    | nested parser src parseMeta depth => exact absurd hc id
  · intro n o r hn
    rwa [mark_chain]
  · intro n o r hn
    rwa [tell_chain]

end Stack

/-! ## Every parse ends -/

section Halting

theorem halts_ask (o : Op I) : Halts (S := sig I) (body engine) (ask o) := .op fun _ => .ret _

theorem halts_fail (parseMeta : Value) (site : Site) (report : Report) :
    Halts (S := sig I) (body engine) (fail parseMeta site report) := by
  refine Halts.bind ?_ fun _ => .ret _
  unfold recordReport
  split
  · exact halts_ask _
  · exact .ret _

theorem halts_finish (parseMeta : Value) (site : Site) (fullpath ticket : Str)
    (resolution : Resolution) :
    Halts (S := sig I) (body engine) (finish parseMeta site fullpath ticket resolution) := by
  unfold finish
  split
  · exact (halts_ask _).bind fun _ => halts_fail ..
  · exact (halts_ask _).bind fun _ => .ret _

theorem halts_process {parseMeta : Value} {parser : I} {depth : ℕ} {resolution : Resolution}
    (h : resolution.spec.full.isSome = true →
      ∀ src, Halts (body engine) (parseNested engine parser src parseMeta depth)) :
    Halts (S := sig I) (body engine) (process options resolution parseMeta parser depth) := by
  unfold process
  split
  · exact .ret _
  · exact .ret _
  · unfold jsonicProcessor
    split
    · rename_i src full hsrc hfull
      refine .call (h (by rw [hfull]; rfl) src) fun answer => ?_
      cases answer with
      | ok value => exact .ret _
      | error error => exact .ret _
    · exact .ret _
  · exact halts_ask _

/-- An action halts if the parses of what it loads do. -/
theorem halts_directiveAction {float : ExpFormat} {parseMeta : Value} {site : Site}
    (h : ∀ resolution : Resolution, resolution.spec.full.isSome = true →
      chainReport options.maxDepth (metaChain parseMeta) resolution.fullPath = none →
      ∀ dive ticket parser src depth, Halts (body engine) (parseNested engine parser src
        (childMeta parseMeta resolution (metaChain parseMeta) dive ticket) depth)) :
    Halts (S := sig I) (body engine) (directiveAction options float parseMeta site) := by
  refine Halts.bind (halts_ask _) fun resolution => ?_
  split_ifs with hf
  · split
    · exact halts_fail ..
    · rename_i hc
      refine Halts.bind ?_ fun _ => ?_
      · unfold recordEdge
        split_ifs
        · exact halts_ask _
        · exact .ret _
      · refine Halts.bind (halts_ask _) fun ticket => Halts.bind (halts_ask _) fun parser => ?_
        cases parser with
        | none => exact .ret _
        | some parser =>
          refine Halts.bind (halts_process fun hfull src => ?_) fun _ => halts_finish ..
          exact h resolution hfull hc _ _ _ _ _
  · exact halts_fail ..

theorem halts_run {parseMeta : Value} (tree : Parse)
    (h : ∀ site, Halts (S := sig I) (body engine)
      (directiveAction options engine.float parseMeta site)) :
    Halts (body engine) (run engine parseMeta tree) := by
  induction tree with
  | done result =>
    cases result with
    | ok value => exact .ret _
    | error error => exact .ret _
  | act site next ih =>
    rw [run]
    refine Halts.bind (h site) fun result => ?_
    cases result with
    | applied effect => exact ih effect
    | bad token code details => exact .ret _
    | error code message => exact .ret _

theorem halts_parseWithMeta {parser : I} {src : Str} {parseMeta : Value}
    (h : ∀ site, Halts (S := sig I) (body engine)
      (directiveAction options engine.float parseMeta site)) :
    Halts (body engine) (parseWithMeta engine parser src parseMeta) := by
  refine Halts.bind ?_ fun _ => halts_run _ h
  unfold prepare
  split_ifs
  · exact halts_ask _
  · exact .ret _

theorem halts_parseNested {parser : I} {src : Str} {parseMeta : Value} {depth : ℕ}
    (h : Halts (body engine) (parseWithMeta engine parser src parseMeta)) :
    Halts (body engine) (parseNested engine parser src parseMeta depth) := by
  unfold parseNested
  split_ifs
  · refine Halts.bind (halts_ask _) fun refused => ?_
    cases refused with
    | some reason => exact .ret _
    | none => exact h
  · exact h

/-- A load lengthens the chain, and at the cap there are no loads. -/
theorem halts_action (parseMeta : Value) (site : Site) :
    Halts (S := sig I) (body engine) (directiveAction options engine.float parseMeta site) := by
  induction hd : options.maxDepth - (metaChain parseMeta).length using Nat.strong_induction_on
    generalizing parseMeta site with
  | _ d ih =>
    refine halts_directiveAction fun resolution hfull hc dive ticket parser src depth => ?_
    refine halts_parseNested (halts_parseWithMeta fun site' => ih _ ?_ _ site' rfl)
    obtain ⟨full, hfull⟩ := Option.isSome_iff_exists.mp hfull
    have hlt := (chainReport_eq_none hc).2
    rw [metaChain_childMeta, hfull, Option.toList_some, List.length_append, List.length_singleton]
    omega

theorem halts_body (c : Call I) : Halts (body engine) (body engine c) := by
  cases c with
  | parse parser src parseMeta => exact halts_parseWithMeta fun site => halts_action parseMeta site
  | nested parser src parseMeta depth =>
    exact halts_parseNested (halts_parseWithMeta fun site => halts_action parseMeta site)

end Halting

/-- In every run of any number of parses, whatever the resolver answers: an action is reached with
the metadata its parse was given, and the chain in it is the list of the enclosing sources, none
twice and no more than the cap. A load hands on their number. And no parse runs on for ever. -/
theorem ancestor_chain_exact (engine : Engine I options.markchar) (W : World I) (s₀ : Shared I) :
    (∀ p : Parses options I,
      Pool.Reachable (installation engine W sealed Fresh) s₀ p → ∀ t ∈ p.threads,
        (∀ reference parseMeta k, t.prog = .op (.resolve reference parseMeta) k →
          parseMeta = t.note.call.parseMeta ∧ metaChain parseMeta = enclosing t ∧
            (enclosing t).length = t.callers.length ∧ (enclosing t).Nodup ∧
            (enclosing t).length ≤ options.maxDepth) ∧
        ∀ parser src parseMeta depth k, t.prog = .call (.nested parser src parseMeta depth) k →
          depth = (enclosing t).length) ∧
    ∀ c, Fresh c → ¬ ∃ f : ℕ → Running options I,
      f 0 = Thread.start (installation engine W sealed Fresh) (ledger options) c ∧
        ∀ i, Thread.Next (installation engine W sealed Fresh) (f (i + 1)) (f i) := by
  refine ⟨fun p hp t ht => ?_, fun c _ => Halts.finite (fun _ _ => id) (halts_body c)⟩
  obtain ⟨hchain, hlen⟩ := chain_eq_enclosing hp ht
  have hrun := (hp.typed guarded_sealed t ht).running
  refine ⟨fun reference parseMeta k hk => ?_, fun parser src parseMeta depth k hk => ?_⟩
  · rw [hk] at hrun
    obtain ⟨⟨hm, hs, -⟩, -⟩ := (hrun _ (.refl _ _)).1
    have hbase : t.note.base = [] :=
      (noteRule_base.notes guarded_sealed (hp.reached t ht)).1 _ (List.mem_cons_self ..)
    obtain ⟨hnodup, hcap⟩ := hs.withinCap (by rw [hbase]; exact ⟨List.nodup_nil, Nat.zero_le _⟩)
    rw [← hchain]
    exact ⟨hm, hm ▸ hs.chain_eq, hlen, hnodup, hcap⟩
  · rw [hk] at hrun
    rw [← hchain]
    exact hrun.1.1.depth_eq

end MultiSource
