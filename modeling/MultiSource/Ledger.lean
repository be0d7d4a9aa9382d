import MultiSource.Installation

/-!
# What a parse may do, by its ledger

The note on a frame says which parse it runs, which sources enclose it, and what it holds of the
shared cells: its ticket, the report recorded under it, the edge it still owes the sink. The guard
says which step is in order under which note, and every body of the plugin keeps to it.
-/

namespace MultiSource

open Interaction

variable {I : Type}

namespace Call

def parser : Call I → I
  | .parse parser .. => parser
  | .nested parser .. => parser

def parseMeta : Call I → Value
  | .parse _ _ parseMeta => parseMeta
  | .nested _ _ parseMeta _ => parseMeta

/-- The ticket of the load the parse is nested in. -/
def ticket (c : Call I) : Option Str := metaMultisourceString c.parseMeta REPORT_TICKET

end Call

/-- The ledger of one parse: its call, the instance its top-level parse runs on, the chain that
parse was given, the full paths of the enclosing sources, and whether the top-level parse has
published. Then the load in progress: the full path of its source, the parser read for it, its
ticket, what its nested parse last recorded, and the edge not yet in the sink. -/
structure Note (I : Type) where
  call : Call I
  home : I
  base : List Str
  chain : List Str
  live : Bool
  loading : Option Str
  got : Option I
  held : Option Str
  noted : Option Report
  owed : Option (Str × Str)

namespace Note

def fresh (c : Call I) : Note I :=
  ⟨c, c.parser, metaChain c.parseMeta, metaChain c.parseMeta, false, none, none, none, none, none⟩

/-- A parse nested in the load of `n`. -/
def nest (n : Note I) (c : Call I) : Note I :=
  ⟨c, n.home, n.base, n.chain ++ n.loading.toList, n.live, none, none, none, none, none⟩

end Note

section Ledger

variable (options : MultiSourceOptions)

/-- The edge of a resolution that passes both checks. -/
def edgeOf (chain : List Str) (resolution : Resolution) : Option (Str × Str) :=
  if resolution.found = true ∧
      chainReport options.maxDepth chain resolution.fullPath = none then
    some (chain.getLast?.getD TOP, resolution.fullPath)
  else none

abbrev ledger : Instrument (sig I) where
  Note := Note I
  enter
    | some n, .nested parser src parseMeta depth => n.nest (.nested parser src parseMeta depth)
    | _, c => .fresh c
  mark n o r :=
    match o, r with
    | .resolve .., r =>
      { n with
        loading := if r.found then r.spec.full else none
        owed := if options.deps then edgeOf options n.chain r else none }
    | .publish _, _ => { n with live := true }
    | .getParser, r => { n with got := r }
    | .ticket, r => { n with held := some r, noted := none }
    | .take .., _ => { n with held := none, noted := none }
    | .discard _, _ => { n with held := none, noted := none }
    | .depend .., _ => { n with owed := none }
    | .process .., _ => n
    | .spawn, _ => n
    | .record .., _ => n
  tell n o _ :=
    match o with
    | .record _ report => if n.held.isSome then { n with noted := some report } else n
    | _ => n

/-- A thread of the installation. -/
abbrev Running (I : Type) : Type := Thread (ledger (I := I) options)

/-- A state of a run of the installation. -/
abbrev Parses (I : Type) : Type := Pool (ledger (I := I) options) (Shared I)

/-- Without a member twice, and within the depth cap. -/
def WithinCap (chain : List Str) : Prop := chain.Nodup ∧ chain.length ≤ options.maxDepth

/-- The chain a parse computes for its references is that of its enclosing sources. -/
structure Sound (n : Note I) : Prop where
  chain_eq : metaChain n.call.parseMeta = n.chain
  withinCap : WithinCap options n.base → WithinCap options n.chain

/-- `parseMeta`, `parser` and `depth` are those of a parse nested in the load of `n`. -/
structure Nests (n : Note I) (parseMeta : Value) (parser : I) (depth : ℕ) : Prop where
  ticket : metaMultisourceString parseMeta REPORT_TICKET = n.held
  path : sourcePath parseMeta = n.loading
  got : n.got = some parser
  live : n.live = true
  owed : n.owed = none
  depth_eq : depth = n.chain.length
  nested : isNestedMeta parseMeta = true
  chain_eq : metaChain parseMeta = n.chain ++ n.loading.toList
  withinCap : WithinCap options n.base → WithinCap options (n.chain ++ n.loading.toList)

/-- A parse that is not inside a load. -/
structure Idle (n : Note I) : Prop where
  held : n.held = none
  noted : n.noted = none
  owed : n.owed = none

/-- The operations in order under a note. -/
def Proper (n : Note I) : Op I → Prop
  | .resolve _ parseMeta =>
    parseMeta = n.call.parseMeta ∧ Sound options n ∧ Idle n ∧ n.live = true
  | .process _ _ parseMeta parser depth => Nests options n parseMeta parser depth
  | .spawn => True
  | .publish parser => parser = n.call.parser ∧ n.home = n.call.parser
  | .getParser => n.live = true
  | .ticket => n.noted = none
  | .record ticket _ => n.call.ticket = some ticket
  | .take ticket _ => n.held = some ticket
  | .discard ticket => n.held = some ticket
  | .depend tar src => n.owed = some (tar, src)

/-- An edge that is owed is the next thing to go to the sink. -/
def guard : Guard (ledger (I := I) options) where
  allow n o := Proper options n o ∧ (n.owed = none ∨ ∃ tar src, o = .depend tar src)
  allowCall n
    | .nested parser _ parseMeta depth =>
      Nests options n parseMeta parser depth ∧ n.loading.isSome = true
    | .parse .. => False
  final n := n.noted = none ∧ n.owed = none

variable {options}

variable (options) in
/-- An operation leaves the standing of its frame as it is. -/
theorem mark_standing (n : Note I) (o : Op I) (r : o.Resp) :
    ∃ live loading got held noted owed,
      (ledger options).mark n o r = ⟨n.call, n.home, n.base, n.chain, live, loading, got, held,
        noted, owed⟩ := by
  cases o <;> exact ⟨_, _, _, _, _, _, rfl⟩

variable (options) in
theorem tell_noted (n : Note I) (o : Op I) (r : o.Resp) :
    ∃ noted, (ledger options).tell n o r = { n with noted } := by
  cases o with
  | record t report =>
    by_cases hh : n.held.isSome = true
    · exact ⟨some report, if_pos hh⟩
    · exact ⟨n.noted, if_neg hh⟩
  | _ => exact ⟨n.noted, rfl⟩

section Fields

variable (options) (n : Note I) (o : Op I) (r : o.Resp)

theorem mark_call : ((ledger options).mark n o r).call = n.call := by
  obtain ⟨_, _, _, _, _, _, h⟩ := mark_standing options n o r
  rw [h]

theorem mark_base : ((ledger options).mark n o r).base = n.base := by
  obtain ⟨_, _, _, _, _, _, h⟩ := mark_standing options n o r
  rw [h]

theorem mark_chain : ((ledger options).mark n o r).chain = n.chain := by
  obtain ⟨_, _, _, _, _, _, h⟩ := mark_standing options n o r
  rw [h]

theorem tell_call : ((ledger options).tell n o r).call = n.call := by
  obtain ⟨_, h⟩ := tell_noted options n o r
  rw [h]

theorem tell_base : ((ledger options).tell n o r).base = n.base := by
  obtain ⟨_, h⟩ := tell_noted options n o r
  rw [h]

theorem tell_chain : ((ledger options).tell n o r).chain = n.chain := by
  obtain ⟨_, h⟩ := tell_noted options n o r
  rw [h]

theorem tell_loading : ((ledger options).tell n o r).loading = n.loading := by
  obtain ⟨_, h⟩ := tell_noted options n o r
  rw [h]

theorem tell_held : ((ledger options).tell n o r).held = n.held := by
  obtain ⟨_, h⟩ := tell_noted options n o r
  rw [h]

theorem tell_owed : ((ledger options).tell n o r).owed = n.owed := by
  obtain ⟨_, h⟩ := tell_noted options n o r
  rw [h]

end Fields

theorem tells_noted {n m : Note I} (h : (ledger options).Tells n m) :
    ∃ noted, m = { n with noted } ∧ (n.held = none → noted = n.noted) := by
  induction h with
  | refl => exact ⟨n.noted, rfl, fun _ => rfl⟩
  | tail _ hs ih =>
    obtain ⟨x, rfl, hx⟩ := ih
    obtain ⟨o, r, rfl⟩ := hs
    cases o with
    | record t report =>
      by_cases hh : n.held.isSome = true
      · refine ⟨some report, if_pos hh, fun hn => ?_⟩
        rw [hn] at hh
        exact absurd hh (by simp)
      · exact ⟨x, if_neg hh, hx⟩
    | _ => exact ⟨x, rfl, hx⟩

theorem tells_of_idle {n m : Note I} (h : (ledger options).Tells n m) (hn : n.held = none) :
    m = n := by
  obtain ⟨x, rfl, hx⟩ := tells_noted h
  rw [hx hn]

/-- The chain of a load that passed both checks is within the cap. -/
theorem withinCap_snoc {chain : List Str} {resolution : Resolution}
    (hc : chainReport options.maxDepth chain resolution.fullPath = none)
    (h : WithinCap options chain) : WithinCap options (chain ++ resolution.spec.full.toList) := by
  obtain ⟨hnot, hlt⟩ := chainReport_eq_none hc
  cases hfull : resolution.spec.full with
  | none => simpa using h
  | some full =>
    rw [Resolution.fullPath_of_full hfull] at hnot
    rw [Option.toList_some]
    refine ⟨?_, ?_⟩
    · rw [List.nodup_append]
      refine ⟨h.1, List.pairwise_singleton _ _, fun a ha b hb he => hnot ?_⟩
      rwa [← List.mem_singleton.mp hb, ← he]
    · rw [List.length_append, List.length_singleton]
      omega

end Ledger

/-! ## The programs keep to the guard -/

section Guarded

variable {options : MultiSourceOptions} {engine : Engine I options.markchar} {W : World I}
  {foreign : Op I → Call I → Prop} {top : Call I → Prop}

variable (hf : ∀ o c, foreign o c → Foreign o c)

include hf

/-- An operation foreign code does not run under. -/
theorem wp_ask {o : Op I} {n : Note I} {post : Note I → o.Resp → Prop}
    (ho : ∀ c, ¬ Foreign o c) (ha : (guard options).allow n o)
    (hk : ∀ r, post ((ledger options).mark n o r) r) :
    Wp (installation engine W foreign top) (guard options) post (ask o) n :=
  wp_op_of_closed (fun c hc => ho c (hf o c hc)) ha hk

theorem wp_fail {post : Note I → ActionResult → Prop} {n : Note I} {parseMeta : Value}
    {site : Site} {report : Report} (hm : n.call.parseMeta = parseMeta) (ho : n.owed = none)
    (h : ∀ token, post n (.bad token report.1 report.2)) :
    Wp (installation engine W foreign top) (guard options) post (fail parseMeta site report) n := by
  obtain ⟨token, ht⟩ := site.errorToken_isSome
  unfold fail recordReport
  rw [ht, wp_bind]
  cases hr : metaMultisourceString parseMeta REPORT_TICKET with
  | none => exact h token
  | some t =>
    refine wp_ask hf (by rintro c ⟨⟩) ⟨?_, .inl ho⟩ fun _ => h token
    show n.call.ticket = some t
    rw [Call.ticket, hm, hr]

theorem wp_finish {post : Note I → ActionResult → Prop} {n : Note I} {parseMeta : Value}
    {site : Site} {fullpath ticket : Str} {resolution : Resolution}
    (hm : n.call.parseMeta = parseMeta) (hh : n.held = some ticket) (ho : n.owed = none)
    (h : ∀ result, post { n with held := none, noted := none } result) :
    Wp (installation engine W foreign top) (guard options) post
      (finish parseMeta site fullpath ticket resolution) n := by
  unfold finish
  split
  · exact wp_bind.mpr (wp_ask hf (by rintro c ⟨⟩) ⟨hh, .inl ho⟩
      fun _ => wp_fail hf hm ho fun _ => h _)
  · exact wp_bind.mpr (wp_ask hf (by rintro c ⟨⟩) ⟨hh, .inl ho⟩ fun _ => h _)

omit hf in
/-- Processing changes nothing on the ledger but what the nested parse recorded. -/
theorem wp_process {post : Note I → Resolution → Prop} {n : Note I} {parseMeta : Value}
    {parser : I} {depth : ℕ} {resolution : Resolution}
    (hn : Nests options n parseMeta parser depth) (hl : n.loading = resolution.spec.full)
    (h : ∀ noted r, post { n with noted } r) :
    Wp (installation engine W foreign top) (guard options) post
      (process options resolution parseMeta parser depth) n := by
  unfold process
  split
  · exact h n.noted _
  · exact h n.noted _
  · unfold jsonicProcessor
    split
    · rename_i hfull
      refine ⟨⟨hn, by rw [hl, hfull]; rfl⟩, fun answer m hm => ?_⟩
      obtain ⟨x, rfl, -⟩ := tells_noted hm
      cases answer with
      | ok value => exact h x _
      | error error => exact h x _
    · exact h n.noted _
  · intro m hm
    obtain ⟨x, rfl⟩ : ∃ noted, m = { n with noted } := by
      rcases hm with hm | ⟨-, hm⟩
      · exact ⟨n.noted, hm⟩
      · obtain ⟨x, he, -⟩ := tells_noted hm
        exact ⟨x, he⟩
    exact ⟨⟨⟨hn.ticket, hn.path, hn.got, hn.live, hn.owed, hn.depth_eq, hn.nested, hn.chain_eq,
      hn.withinCap⟩, .inl hn.owed⟩, fun r => h x r⟩

/-- The state of the ledger between two actions of a parse that has published. -/
structure Ready (options : MultiSourceOptions) (parseMeta : Value) (n : Note I) : Prop where
  meta_eq : n.call.parseMeta = parseMeta
  sound : Sound options n
  live : n.live = true
  idle : Idle n

theorem wp_recordEdge {post : Note I → Unit → Prop} {n : Note I} {parents : List Str}
    {fullpath : Str}
    (ho : n.owed = if options.deps then some (parents.getLast?.getD TOP, fullpath) else none)
    (h : post { n with owed := none } ()) :
    Wp (installation engine W foreign top) (guard options) post
      (recordEdge options parents fullpath) n := by
  unfold recordEdge
  by_cases hd : options.deps = true
  · rw [if_pos hd] at ho ⊢
    exact wp_ask hf (by rintro c ⟨⟩) ⟨ho, .inr ⟨_, _, rfl⟩⟩ fun _ => h
  · rw [if_neg hd] at ho ⊢
    have hn : n = { n with owed := none } := by rw [← ho]
    rw [hn]
    exact h

/-- A load in progress, from the two checks to its end. -/
theorem wp_load {post : Note I → ActionResult → Prop} {n : Note I} {parseMeta : Value}
    {site : Site} {resolution : Resolution} (hn : Ready options parseMeta n)
    (hc : chainReport options.maxDepth n.chain resolution.fullPath = none)
    (h : ∀ m result, Ready options parseMeta m → post m result)
    (herr : ∀ m : Note I, m.noted = none → m.owed = none → ∀ c e, post m (.error c e)) :
    Wp (installation engine W foreign top) (guard options) post
      (load options parseMeta site resolution resolution.fullPath)
      { n with
        loading := resolution.spec.full
        owed := if options.deps then some (n.chain.getLast?.getD TOP, resolution.fullPath)
          else none } := by
  have hchain : metaChain parseMeta = n.chain := hn.meta_eq ▸ hn.sound.chain_eq
  unfold load
  rw [hchain]
  refine wp_bind.mpr (wp_recordEdge hf rfl ?_)
  refine wp_bind.mpr (wp_ask hf (by rintro c ⟨⟩) ⟨hn.idle.noted, .inl rfl⟩ fun ticket => ?_)
  refine wp_bind.mpr (wp_ask hf (by rintro c ⟨⟩) ⟨hn.live, .inl rfl⟩ fun parser => ?_)
  cases parser with
  | none => exact herr _ rfl rfl _ _
  | some parser =>
    refine wp_bind.mpr (wp_process ⟨?_, ?_, rfl, hn.live, rfl, rfl, ?_, ?_, ?_⟩ rfl fun x r => ?_)
    · exact metaTicket_childMeta ..
    · exact sourcePath_childMeta ..
    · exact isNestedMeta_childMeta ..
    · exact metaChain_childMeta ..
    · exact fun hb => withinCap_snoc hc (hn.sound.withinCap hb)
    · refine wp_finish hf hn.meta_eq rfl rfl fun result => h _ _ ?_
      exact ⟨hn.meta_eq, ⟨hn.sound.chain_eq, hn.sound.withinCap⟩, hn.live, ⟨rfl, rfl, rfl⟩⟩

theorem wp_directiveAction {post : Note I → ActionResult → Prop} {n : Note I} {parseMeta : Value}
    {site : Site} (hn : Ready options parseMeta n)
    (h : ∀ m result, Ready options parseMeta m → post m result)
    (herr : ∀ m : Note I, m.noted = none → m.owed = none → ∀ c e, post m (.error c e)) :
    Wp (installation engine W foreign top) (guard options) post
      (directiveAction options engine.float parseMeta site) n := by
  have hchain : metaChain parseMeta = n.chain := hn.meta_eq ▸ hn.sound.chain_eq
  unfold directiveAction
  apply wp_bind.mpr
  intro m hm
  -- a resolver may start parses of its own, but none of them reports to this frame
  obtain rfl : m = n := by
    rcases hm with hm | ⟨-, hm⟩
    · exact hm
    · exact tells_of_idle hm hn.idle.held
  refine ⟨⟨⟨hn.meta_eq.symm, hn.sound, hn.idle, hn.live⟩, .inl hn.idle.owed⟩, fun r => ?_⟩
  rw [wp_ret]
  by_cases hr : r.found = true
  · rw [if_pos hr]
    cases hc : chainReport options.maxDepth m.chain r.fullPath with
    | some report =>
      rw [hchain, hc]
      have ho : (if options.deps then edgeOf options m.chain r else none) = none := by
        simp [edgeOf, hc]
      exact wp_fail hf hn.meta_eq ho fun token => h _ _ ⟨hn.meta_eq, ⟨hn.sound.chain_eq,
        hn.sound.withinCap⟩, hn.live, ⟨hn.idle.held, hn.idle.noted, ho⟩⟩
    | none =>
      rw [hchain, hc]
      have he : edgeOf options m.chain r = some (m.chain.getLast?.getD TOP, r.fullPath) :=
        if_pos ⟨hr, hc⟩
      simp only [he, hr, if_true]
      exact wp_load hf hn hc h herr
  · rw [if_neg hr]
    have ho : (if options.deps then edgeOf options m.chain r else none) = none := by
      simp [edgeOf, hr]
    exact wp_fail hf hn.meta_eq ho fun token => h _ _ ⟨hn.meta_eq, ⟨hn.sound.chain_eq,
      hn.sound.withinCap⟩, hn.live, ⟨hn.idle.held, hn.idle.noted, ho⟩⟩

theorem wp_run {parseMeta : Value} (tree : Parse) {n : Note I} (hnoted : n.noted = none)
    (howed : n.owed = none)
    (hact : ∀ site next, tree = .act site next → Ready options parseMeta n) :
    Wp (installation engine W foreign top) (guard options) (fun m _ => (guard options).final m)
      (run engine parseMeta tree) n := by
  induction tree generalizing n with
  | done result =>
    cases result with
    | ok value => exact ⟨hnoted, howed⟩
    | error error => exact ⟨hnoted, howed⟩
  | act site next ih =>
    rw [run]
    refine wp_bind.mpr (wp_directiveAction hf (hact site next rfl) (fun m result hm => ?_) ?_)
    · cases result with
      | applied effect => exact ih effect hm.idle.noted hm.idle.owed fun _ _ _ => hm
      | bad token code details => exact ⟨hm.idle.noted, hm.idle.owed⟩
      | error code message => exact ⟨hm.idle.noted, hm.idle.owed⟩
    · exact fun m hnoted howed c e => ⟨hnoted, howed⟩

/-- The ledger a parse is entered with: a top-level parse has still to publish, a nested one runs
under a parse that has. -/
structure Entered (options : MultiSourceOptions) (parser : I) (parseMeta : Value) (n : Note I) :
    Prop where
  parser_eq : n.call.parser = parser
  meta_eq : n.call.parseMeta = parseMeta
  sound : Sound options n
  idle : Idle n
  live : isNestedMeta parseMeta = true → n.live = true
  home : isNestedMeta parseMeta = false → n.home = parser

theorem wp_parseWithMeta {parser : I} {src : Str} {parseMeta : Value} {n : Note I}
    (hn : Entered options parser parseMeta n) :
    Wp (installation engine W foreign top) (guard options) (fun m _ => (guard options).final m)
      (parseWithMeta engine parser src parseMeta) n := by
  unfold parseWithMeta prepare
  apply wp_bind.mpr
  split_ifs with hc
  · rw [Bool.and_eq_true, Bool.not_eq_true'] at hc
    refine wp_ask hf (by rintro c ⟨⟩) ⟨?_, .inl hn.idle.owed⟩ fun _ => ?_
    · exact ⟨hn.parser_eq.symm, (hn.home hc.2).trans hn.parser_eq.symm⟩
    · exact wp_run hf _ hn.idle.noted hn.idle.owed fun _ _ _ =>
        ⟨hn.meta_eq, ⟨hn.sound.chain_eq, hn.sound.withinCap⟩, rfl, ⟨hn.idle.held, hn.idle.noted,
          hn.idle.owed⟩⟩
  · refine wp_run hf _ hn.idle.noted hn.idle.owed fun site next ht => ?_
    -- a source with a reference holds the mark, so only a nested parse gets here
    have hmark := engine.marked _ _ _ _ _ ht
    refine ⟨hn.meta_eq, hn.sound, hn.live ?_, hn.idle⟩
    simpa [hmark] using hc

theorem wp_parseNested {parser : I} {src : Str} {parseMeta : Value} {depth : ℕ} {n : Note I}
    (hn : Entered options parser parseMeta n) :
    Wp (installation engine W foreign top) (guard options) (fun m _ => (guard options).final m)
      (parseNested engine parser src parseMeta depth) n := by
  unfold parseNested
  split_ifs
  · refine wp_bind.mpr (wp_ask hf (by rintro c ⟨⟩) ⟨trivial, .inl hn.idle.owed⟩
      fun refused => ?_)
    cases refused with
    | some reason => exact ⟨hn.idle.noted, hn.idle.owed⟩
    | none => exact wp_parseWithMeta hf hn
  · exact wp_parseWithMeta hf hn

omit hf in
theorem TopLevel.entered {parser : I} {src : Str} {parseMeta : Value}
    (h : TopLevel (.parse parser src parseMeta)) :
    Entered options parser parseMeta (.fresh (.parse parser src parseMeta)) where
  parser_eq := rfl
  meta_eq := rfl
  sound := ⟨rfl, id⟩
  idle := ⟨rfl, rfl, rfl⟩
  live hn := absurd hn (by rw [h.1]; simp)
  home _ := rfl

omit hf in
theorem Nests.entered {n : Note I} {parser : I} {src : Str} {parseMeta : Value} {depth : ℕ}
    (h : Nests options n parseMeta parser depth) :
    Entered options parser parseMeta (n.nest (.nested parser src parseMeta depth)) where
  parser_eq := rfl
  meta_eq := rfl
  sound := ⟨h.chain_eq, h.withinCap⟩
  idle := ⟨rfl, rfl, rfl⟩
  live _ := h.live
  home hn := absurd h.nested (by rw [hn]; simp)

omit hf in
theorem Nests.congr {n : Note I} {parser : I} {parseMeta parseMeta' : Value} {depth : ℕ}
    (h : Nests options n parseMeta parser depth)
    (hm : metaGet parseMeta' RULE_NAME = metaGet parseMeta RULE_NAME) :
    Nests options n parseMeta' parser depth :=
  ⟨(metaMultisourceString_congr hm _).trans h.ticket,
    (metaMultisourceString_congr hm _).trans h.path, h.got, h.live, h.owed, h.depth_eq,
    (isNestedMeta_congr hm).trans h.nested, (metaChain_congr hm).trans h.chain_eq, h.withinCap⟩

theorem wp_top {c : Call I} (hc : TopLevel c) :
    Wp (installation engine W foreign top) (guard options) (fun m _ => (guard options).final m)
      (body engine c) (.fresh c) := by
  cases c with
  | parse parser src parseMeta => exact wp_parseWithMeta hf hc.entered
  | nested parser src parseMeta depth => exact absurd hc id

/-- Every body keeps to the guard, whatever foreign code runs beside it. -/
theorem guarded (ht : ∀ c, top c → TopLevel c) :
    Guarded (installation engine W foreign top) (guard options) where
  top c hc := by
    have h : Wp (installation engine W foreign top) (guard options)
        (fun m _ => (guard options).final m) (body engine c) (.fresh c) := wp_top hf (ht c hc)
    cases c <;> exact h
  call n c hc := by
    cases c with
    | parse parser src parseMeta => exact absurd hc id
    | nested parser src parseMeta depth => exact wp_parseNested hf hc.1.entered
  foreign n o c ha hc := by
    have htop (c : Call I) (hc : TopLevel c) : Wp (installation engine W foreign top)
        (guard options) (fun m _ => (guard options).final m) (body engine c)
        ((ledger options).enter (some n) c) := by
      cases c with
      | parse parser src parseMeta => exact wp_top hf hc
      | nested parser src parseMeta depth => exact absurd hc id
    cases hf o c hc with
    | resolver hc => exact htop c hc
    | processor hc => exact htop c hc
    | source hm => exact wp_parseNested hf (Nests.congr ha.1 hm).entered

end Guarded

end MultiSource
