import MultiSource.Ledger

/-!
# The names a chain remembers

A source is checked, and recorded in the sink, under its full path, else under the reference as
written, else as `no-path`. The metadata of a parse nested in it names the full path only, so a
source without one is on no chain.
-/

namespace MultiSource

open Interaction

variable {I : Type}

/-- One parse by the sources around it: its call, the chain its top-level parse was given, what the
resolver answered for each source from the outside in, and for the load in progress. -/
structure Lineage (I : Type) where
  call : Call I
  base : List Str
  loads : List Resolution
  current : Option Resolution

namespace Lineage

def fresh (c : Call I) : Lineage I := ⟨c, metaChain c.parseMeta, [], none⟩

def nest (n : Lineage I) (c : Call I) : Lineage I :=
  ⟨c, n.base, n.loads ++ n.current.toList, none⟩

/-- The names the sources around the parse were checked and recorded under. -/
def names (n : Lineage I) : List Str := n.base ++ n.loads.map Resolution.fullPath

/-- Those of them that are full paths. -/
def remembered (n : Lineage I) : List Str := n.base ++ n.loads.filterMap fun r => r.spec.full

theorem remembered_nest {n : Lineage I} {r : Resolution} (h : n.current = some r) (c : Call I) :
    (n.nest c).remembered = n.remembered ++ r.spec.full.toList := by
  rw [remembered, nest, h, Option.toList_some, List.filterMap_append, ← List.append_assoc,
    remembered]
  cases hf : r.spec.full <;> simp [hf]

end Lineage

/-- Loads are remembered by their names where every one carries a full path, and only there. -/
theorem filterMap_full_eq_iff (loads : List Resolution) :
    (loads.filterMap fun r => r.spec.full) = loads.map Resolution.fullPath ↔
      ∀ r ∈ loads, r.spec.full.isSome = true := by
  constructor
  · intro h r hr
    have hlen := congrArg List.length h
    rw [List.length_map] at hlen
    exact List.filterMap_length_eq_length.mp hlen r hr
  · intro h
    rw [← List.filterMap_eq_map]
    apply List.filterMap_congr
    intro r hr
    obtain ⟨full, hfull⟩ := Option.isSome_iff_exists.mp (h r hr)
    rw [hfull, Function.comp_apply, Resolution.fullPath_of_full hfull]

/-- The instrument that notes what the resolver answered. -/
abbrev lineage : Instrument (sig I) where
  Note := Lineage I
  enter
    | some n, .nested parser src parseMeta depth => n.nest (.nested parser src parseMeta depth)
    | _, c => .fresh c
  mark n o r :=
    match o, r with
    | .resolve .., r => { n with current := if r.found then some r else none }
    | _, _ => n
  tell n _ _ := n

theorem tells_lineage {n m : Lineage I} (h : (lineage (I := I)).Tells n m) : m = n := by
  induction h with
  | refl => rfl
  | tail _ hs ih =>
    obtain ⟨o, r, rfl⟩ := hs
    exact ih

section Guarded

variable (options : MultiSourceOptions)

/-- The chain of a parse is that of the full paths around it, and the source right around it was
on no chain before. -/
structure Kept (n : Lineage I) : Prop where
  chain_eq : metaChain n.call.parseMeta = n.remembered
  unseen : ∀ before r, n.loads = before ++ [r] →
    r.fullPath ∉ n.base ++ before.filterMap fun r => r.spec.full
  withinCap : WithinCap options n.base → WithinCap options n.remembered

/-- `parseMeta` is that of a parse nested in the load of `r`, which passed both checks. -/
structure Carries (n : Lineage I) (r : Resolution) (parseMeta : Value) : Prop where
  current : n.current = some r
  chain_eq : metaChain parseMeta = n.remembered ++ r.spec.full.toList
  unseen : r.fullPath ∉ n.remembered
  withinCap : WithinCap options n.base → WithinCap options (n.remembered ++ r.spec.full.toList)

def lineageGuard : Guard (lineage (I := I)) where
  allow n o :=
    match o with
    | .resolve _ parseMeta => parseMeta = n.call.parseMeta ∧ Kept options n
    | .process _ _ parseMeta _ _ => ∃ r, Carries options n r parseMeta
    | .depend _ src => ∃ r, n.current = some r ∧ src = r.fullPath
    | _ => True
  allowCall n
    | .nested _ _ parseMeta _ => ∃ r, Carries options n r parseMeta
    | .parse .. => False
  final _ := True

variable {options} {engine : Engine I options.markchar} {W : World I}
  {foreign : Op I → Call I → Prop} {top : Call I → Prop}

theorem lineage_ask {o : Op I} {n : Lineage I} {post : Lineage I → o.Resp → Prop}
    (ha : (lineageGuard options).allow n o) (hk : ∀ r, post (lineage.mark n o r) r) :
    Wp (installation engine W foreign top) (lineageGuard options) post (ask o) n := by
  rintro m (rfl | ⟨-, hm⟩)
  · exact ⟨ha, hk⟩
  · obtain rfl := tells_lineage hm
    exact ⟨ha, hk⟩

theorem lineage_fail {post : Lineage I → ActionResult → Prop} {n : Lineage I} {parseMeta : Value}
    {site : Site} {report : Report} (h : ∀ result, post n result) :
    Wp (installation engine W foreign top) (lineageGuard options) post
      (fail parseMeta site report) n := by
  unfold fail recordReport
  apply wp_bind.mpr
  cases metaMultisourceString parseMeta REPORT_TICKET with
  | none => exact h _
  | some ticket => exact lineage_ask trivial fun _ => h _

theorem lineage_finish {post : Lineage I → ActionResult → Prop} {n : Lineage I}
    {parseMeta : Value} {site : Site} {fullpath ticket : Str} {resolution : Resolution}
    (h : ∀ result, post n result) :
    Wp (installation engine W foreign top) (lineageGuard options) post
      (finish parseMeta site fullpath ticket resolution) n := by
  unfold finish
  split
  · exact wp_bind.mpr (lineage_ask trivial fun _ => lineage_fail h)
  · exact wp_bind.mpr (lineage_ask trivial fun _ => h _)

theorem lineage_process {post : Lineage I → Resolution → Prop} {n : Lineage I}
    {parseMeta : Value} {parser : I} {depth : ℕ} {r resolution : Resolution}
    (hn : Carries options n r parseMeta) (h : ∀ resolution, post n resolution) :
    Wp (installation engine W foreign top) (lineageGuard options) post
      (process options resolution parseMeta parser depth) n := by
  unfold process
  split
  · exact h _
  · exact h _
  · unfold jsonicProcessor
    split
    · refine ⟨⟨r, hn⟩, fun answer m hm => ?_⟩
      obtain rfl := tells_lineage hm
      cases answer with
      | ok value => exact h _
      | error error => exact h _
    · exact h _
  · exact lineage_ask ⟨r, hn⟩ h

theorem lineage_recordEdge {post : Lineage I → Unit → Prop} {n : Lineage I} {parents : List Str}
    {resolution : Resolution} (hcurrent : n.current = some resolution) (h : post n ()) :
    Wp (installation engine W foreign top) (lineageGuard options) post
      (recordEdge options parents resolution.fullPath) n := by
  unfold recordEdge
  split_ifs
  · exact lineage_ask ⟨resolution, hcurrent, rfl⟩ fun _ => h
  · exact h

/-- A load in progress, from the two checks to its end. -/
theorem lineage_load {post : Lineage I → ActionResult → Prop} {n : Lineage I} {parseMeta : Value}
    {site : Site} {resolution : Resolution} (hm : metaChain parseMeta = n.remembered)
    (hcap : WithinCap options n.base → WithinCap options n.remembered)
    (hcurrent : n.current = some resolution)
    (hc : chainReport options.maxDepth n.remembered resolution.fullPath = none)
    (h : ∀ result, post n result) :
    Wp (installation engine W foreign top) (lineageGuard options) post
      (load options parseMeta site resolution resolution.fullPath) n := by
  have hcarries (dive : Option Value) (ticket : Str) : Carries options n resolution
      (childMeta parseMeta resolution (metaChain parseMeta) dive ticket) := by
    refine ⟨hcurrent, ?_, (chainReport_eq_none hc).1, fun hb => withinCap_snoc hc (hcap hb)⟩
    rw [metaChain_childMeta, hm]
  unfold load
  refine wp_bind.mpr (lineage_recordEdge hcurrent ?_)
  refine wp_bind.mpr (lineage_ask trivial fun ticket => ?_)
  refine wp_bind.mpr (lineage_ask trivial fun parser => ?_)
  cases parser with
  | none => exact h _
  | some parser => exact wp_bind.mpr (lineage_process (hcarries _ _) fun _ => lineage_finish h)

theorem lineage_directiveAction {post : Lineage I → ActionResult → Prop} {n : Lineage I}
    {parseMeta : Value} {site : Site} (hm : n.call.parseMeta = parseMeta)
    (hn : Kept options n) (h : ∀ current result, post { n with current } result) :
    Wp (installation engine W foreign top) (lineageGuard options) post
      (directiveAction options engine.float parseMeta site) n := by
  have hchain : metaChain parseMeta = n.remembered := hm ▸ hn.chain_eq
  unfold directiveAction
  refine wp_bind.mpr (lineage_ask ⟨hm.symm, hn⟩ fun r => ?_)
  by_cases hr : r.found = true
  · rw [if_pos hr]
    split
    · exact lineage_fail (h _)
    · rename_i hc
      rw [hchain] at hc
      exact lineage_load hchain hn.withinCap (if_pos hr) hc (h _)
  · rw [if_neg hr]
    exact lineage_fail (h _)

theorem lineage_run {parseMeta : Value} (tree : Parse) {n : Lineage I}
    (hm : n.call.parseMeta = parseMeta) (hn : Kept options n) :
    Wp (installation engine W foreign top) (lineageGuard options) (fun _ _ => True)
      (run engine parseMeta tree) n := by
  induction tree generalizing n with
  | done result => cases result <;> exact trivial
  | act site next ih =>
    rw [run]
    refine wp_bind.mpr (lineage_directiveAction hm hn fun current result => ?_)
    cases result with
    | applied effect => exact ih effect hm ⟨hn.chain_eq, hn.unseen, hn.withinCap⟩
    | bad token code details => exact trivial
    | error code message => exact trivial

theorem lineage_parseWithMeta {parser : I} {src : Str} {parseMeta : Value} {n : Lineage I}
    (hm : n.call.parseMeta = parseMeta) (hn : Kept options n) :
    Wp (installation engine W foreign top) (lineageGuard options) (fun _ _ => True)
      (parseWithMeta engine parser src parseMeta) n := by
  unfold parseWithMeta prepare
  apply wp_bind.mpr
  split_ifs
  · exact lineage_ask trivial fun _ => lineage_run _ hm hn
  · exact lineage_run _ hm hn

theorem lineage_body {n : Lineage I} (hn : Kept options n) :
    Wp (installation engine W foreign top) (lineageGuard options)
      (fun m _ => (lineageGuard options).final m) (body engine n.call) n := by
  cases hc : n.call with
  | parse parser src parseMeta => exact lineage_parseWithMeta (by rw [hc]; rfl) hn
  | nested parser src parseMeta depth =>
    have hm : n.call.parseMeta = parseMeta := by
      rw [hc]
      rfl
    simp only [body, parseNested]
    split_ifs
    · refine wp_bind.mpr (lineage_ask trivial fun refused => ?_)
      cases refused with
      | some reason => exact trivial
      | none => exact lineage_parseWithMeta hm hn
    · exact lineage_parseWithMeta hm hn

theorem kept_fresh (c : Call I) : Kept options (.fresh c) := by
  refine ⟨?_, fun before r h => absurd h (by simp [Lineage.fresh]), fun h => ?_⟩
  · simp [Lineage.fresh, Lineage.remembered]
  · simpa [Lineage.fresh, Lineage.remembered] using h

/-- A parse nested in a load keeps its source, if it has a full path. -/
theorem Carries.kept {n : Lineage I} {r : Resolution} {parseMeta : Value} {c : Call I}
    (h : Carries options n r parseMeta) (hc : metaChain c.parseMeta = metaChain parseMeta) :
    Kept options (n.nest c) where
  chain_eq := by
    rw [Lineage.remembered_nest h.current, ← h.chain_eq, ← hc]
    rfl
  unseen before r' hb := by
    simp only [Lineage.nest, h.current, Option.toList_some] at hb
    obtain ⟨rfl, hr⟩ := List.append_inj' hb rfl
    obtain rfl : r = r' := by simpa using hr
    exact h.unseen
  withinCap hb := by
    rw [Lineage.remembered_nest h.current]
    exact h.withinCap hb

/-- Every body keeps to the guard, whatever foreign code runs beside it. -/
theorem guarded_lineage (hf : ∀ o c, foreign o c → Foreign o c)
    (ht : ∀ c, top c → TopLevel c) :
    Guarded (installation engine W foreign top) (lineageGuard options) where
  top c hc := by
    cases c with
    | parse parser src parseMeta => exact lineage_body (kept_fresh (.parse parser src parseMeta))
    | nested parser src parseMeta depth => exact absurd (ht _ hc) id
  call n c hc := by
    cases c with
    | parse parser src parseMeta => exact absurd hc id
    | nested parser src parseMeta depth =>
      obtain ⟨r, hr⟩ := hc
      exact lineage_body (hr.kept (c := .nested parser src parseMeta depth) rfl)
  foreign n o c ha hc := by
    have htop (c : Call I) (hc : TopLevel c) : Wp (installation engine W foreign top)
        (lineageGuard options) (fun m _ => (lineageGuard options).final m) (body engine c)
        (lineage.enter (some n) c) := by
      cases c with
      | parse parser src parseMeta =>
        exact lineage_body (kept_fresh (.parse parser src parseMeta))
      | nested parser src parseMeta depth => exact absurd hc id
    cases hf o c hc with
    | resolver hc => exact htop c hc
    | processor hc => exact htop c hc
    | @source _ _ _ childMeta parser depth src hm =>
      obtain ⟨r, hr⟩ := ha
      exact lineage_body (hr.kept (c := .nested parser src childMeta depth) (metaChain_congr hm))

/-- The chain of a parse is that of the names around it where every source carries a full path. -/
theorem Kept.chain_eq_names_iff {n : Lineage I} (h : Kept options n) :
    metaChain n.call.parseMeta = n.names ↔ ∀ r ∈ n.loads, r.spec.full.isSome = true := by
  rw [h.chain_eq, Lineage.remembered, Lineage.names, List.append_right_inj,
    filterMap_full_eq_iff]

/-- The last of the chain is the name of the source right around the parse where that source
carries a full path. -/
theorem Kept.getLast?_eq_iff {n : Lineage I} (h : Kept options n) {before : List Resolution}
    {r : Resolution} (hb : n.loads = before ++ [r]) :
    (metaChain n.call.parseMeta).getLast? = some r.fullPath ↔ r.spec.full.isSome = true := by
  have hchain : metaChain n.call.parseMeta =
      (n.base ++ before.filterMap fun r => r.spec.full) ++ r.spec.full.toList := by
    rw [h.chain_eq, Lineage.remembered, hb, List.filterMap_append, ← List.append_assoc]
    cases hf : r.spec.full <;> simp [hf]
  rw [hchain]
  cases hf : r.spec.full with
  | none =>
    rw [Option.toList_none, List.append_nil]
    constructor
    · intro hl
      exact absurd (List.mem_of_getLast? hl) (h.unseen before r hb)
    · intro hs
      exact absurd hs (by simp)
  | some full =>
    rw [Option.toList_some, List.getLast?_concat, Resolution.fullPath_of_full hf]
    exact iff_of_true rfl rfl

/-- In every run, beside any foreign code: the last ancestor of a reference is the name its source
was checked under if and only if that source carries a full path. The ancestors are the names of
all sources around the reference if and only if all of these do, and then none is there twice and
the cap holds. The sink knows a source by the name it was checked under. -/
theorem name_remembered_iff (engine : Engine I options.markchar) (W : World I) {s₀ : Shared I}
    {p : Pool (lineage (I := I)) (Shared I)}
    (hp : Pool.Reachable (installation engine W Foreign TopLevel) s₀ p) :
    ∀ t ∈ p.threads,
      (∀ reference parseMeta k, t.prog = .op (.resolve reference parseMeta) k →
        (∀ before r, t.note.loads = before ++ [r] →
          ((metaChain parseMeta).getLast? = some r.fullPath ↔ r.spec.full.isSome = true)) ∧
        (metaChain parseMeta = t.note.names ↔ ∀ r ∈ t.note.loads, r.spec.full.isSome = true) ∧
        ((∀ r ∈ t.note.loads, r.spec.full.isSome = true) → WithinCap options t.note.base →
          WithinCap options t.note.names)) ∧
      ∀ n tar src r, (n, ⟨.depend tar src, r⟩) ∈ t.trace →
        ∃ resolution, n.current = some resolution ∧ src = resolution.fullPath := by
  intro t ht
  have hG : Guarded (installation engine W Foreign TopLevel) (lineageGuard options) :=
    guarded_lineage (fun _ _ => id) fun _ => id
  constructor
  · intro reference parseMeta k hk
    have hrun := (hp.typed hG t ht).running
    rw [hk] at hrun
    obtain ⟨rfl, hn⟩ := (hrun _ (.refl _ _)).1
    refine ⟨fun before r hb => hn.getLast?_eq_iff hb, hn.chain_eq_names_iff, fun hall hb => ?_⟩
    rw [← hn.chain_eq_names_iff.mpr hall, hn.chain_eq]
    exact hn.withinCap hb
  · intro n tar src r he
    exact (hp.reached t ht).allowed hG _ he

end Guarded

/-! ## A source read into itself -/

/-- What a resolver answers for a source that refers to itself. -/
def mirror (full : Option Str) : Resolution where
  spec := { kind := NONE, path := some "x".toList, full, base := [], abs := false }
  src := some "@x".toList
  val := .undefined
  found := true
  search := []
  err := none

/-- Options with a custom processor for every kind. -/
def mirrorOptions : MultiSourceOptions :=
  { MultiSourceOptions.new with processor := [(NONE, .call (.custom 0))] }

def mirrorEngine : Engine Bool mirrorOptions.markchar := aloneEngine

section Mirror

variable (full : Option Str)

abbrev mirrorSystem : System (sig Bool) (Shared Bool) :=
  installation mirrorEngine (World.of (fun _ _ => mirror full) granted) Foreign TopLevel

/-- The metadata the processor of that source is given. -/
def mirrorMeta : Value := childMeta .undefined (mirror full) [] none "0".toList

theorem run_mirror (parseMeta : Value) : ∃ k,
    run mirrorEngine parseMeta (mirrorEngine.parse true "@x".toList parseMeta) =
      directiveAction mirrorOptions mirrorEngine.float parseMeta (.alone "x".toList) >>= k := by
  obtain ⟨next, hnext⟩ : ∃ next,
      mirrorEngine.parse true "@x".toList parseMeta = .act (.alone "x".toList) next := ⟨_, rfl⟩
  rw [hnext, run]
  exact ⟨_, rfl⟩

/-- The processor parses the text, and the parse comes to the reference in it. -/
theorem mirror_inside : ∃ s t k,
    Pool.Reachable (I := lineage) (mirrorSystem full) Shared.init ⟨s, [t]⟩ ∧ t.note.base = [] ∧
      t.note.loads = [mirror full] ∧
      t.prog = .op (.resolve (some "x".toList) (mirrorMeta full)) k := by
  obtain ⟨outer, houter⟩ := run_mirror .undefined
  obtain ⟨inner, hinner⟩ := run_mirror (mirrorMeta full)
  have hbody : body mirrorEngine (.parse true "@x".toList .undefined) =
      .op (.publish true) fun _ =>
        directiveAction mirrorOptions mirrorEngine.float .undefined (.alone "x".toList) >>=
          outer := by
    rw [← houter]
    rfl
  have hnested : body mirrorEngine (.nested true "@x".toList (mirrorMeta full) 0) =
      directiveAction mirrorOptions mirrorEngine.float (mirrorMeta full) (.alone "x".toList) >>=
        inner := by
    rw [← hinner]
    rfl
  have hsource : Foreign (.process 0 (mirror full) (mirrorMeta full) true 0)
      (.nested true "@x".toList (mirrorMeta full) 0) := .source rfl
  have h₀ : Pool.Reachable (I := lineage) (mirrorSystem full) Shared.init
      ⟨Shared.init, [Thread.start (mirrorSystem full) lineage
        (.parse true "@x".toList .undefined)]⟩ := .step .init (.start ⟨rfl, rfl⟩) trivial
  have h₁ := h₀.ask hbody .publish
  have h₂ := h₁.ask rfl (.resolve rfl)
  have h₃ := h₂.ask rfl .ticket
  have h₄ := h₃.ask rfl .getParser
  have h₅ := h₄.reenter rfl hsource
  exact ⟨_, _, _, h₅, rfl, rfl, hnested⟩

end Mirror

/-- With a full path the source is on its own chain. -/
theorem name_remembered_iff_mirror : ∃ s t k,
    Pool.Reachable (I := lineage) (mirrorSystem (some "x".toList)) Shared.init ⟨s, [t]⟩ ∧
      t.prog = .op (.resolve (some "x".toList) (mirrorMeta (some "x".toList))) k ∧
      (metaChain (mirrorMeta (some "x".toList))).getLast? = some "x".toList := by
  obtain ⟨s, t, k, hp, -, hloads, hk⟩ := mirror_inside (some "x".toList)
  have h := name_remembered_iff mirrorEngine _ hp t (List.mem_singleton_self t)
  exact ⟨s, t, k, hp, hk, ((h.1 _ _ _ hk).1 [] _ hloads).mpr rfl⟩

/-- Without one it is on no chain, and passes both checks inside itself. -/
theorem nameless_source_is_forgotten : ∃ s t k,
    Pool.Reachable (I := lineage) (mirrorSystem none) Shared.init ⟨s, [t]⟩ ∧
      t.note.loads = [mirror none] ∧
      t.prog = .op (.resolve (some "x".toList) (mirrorMeta none)) k ∧
      (metaChain (mirrorMeta none)).getLast? ≠ some (mirror none).fullPath ∧
      chainReport mirrorOptions.maxDepth (metaChain (mirrorMeta none)) (mirror none).fullPath =
        none := by
  obtain ⟨s, t, k, hp, -, hloads, hk⟩ := mirror_inside none
  have hchain : metaChain (mirrorMeta none) = [] := by
    rw [mirrorMeta, metaChain_childMeta]
    rfl
  refine ⟨s, t, k, hp, hloads, hk, ?_, ?_⟩
  · rw [hchain]
    decide
  · rw [hchain]
    rfl

end MultiSource
