import MultiSource.Graph

/-!
# The edges a run draws

A run draws an edge at each resolution that passes both checks. Over a source set every edge drawn
is one of the graph of references, and a parse with a value has drawn all that are reachable.
-/

namespace MultiSource

open Interaction

section Drawn

variable (S : SourceSet) (float : ExpFormat) (tree : Str → Parse) (doc : Str)

/-- The edges of the references in `rest`, of the source at `path`, and of all below those. -/
inductive Drawn : Option Str → Parse → Str × Str → Prop
  | here {path : Option Str} {rest : Parse} {site : Site} {b : Str} :
      Inside S float tree path rest site → S.names (referenceOf float site.body) path = some b →
      Drawn path rest (path.getD TOP, b)
  | inside {path : Option Str} {rest : Parse} {site : Site} {b : Str} {e : Str × Str} :
      Inside S float tree path rest site → S.names (referenceOf float site.body) path = some b →
      Drawn (some b) (treeAt S tree doc (some b)) e → Drawn path rest e

/-- A reference in `tar`, which the document reaches, or in the document resolves to `src`. -/
def GraphEdge (tar src : Str) : Prop :=
  ∃ a, Reached S float tree doc a ∧ Refers S float tree doc a src ∧ tar = a.getD TOP

/-- The edges of one reference, and of all below it. -/
def Met (path : Option Str) (site : Site) (e : Str × Str) : Prop :=
  ∃ b, S.names (referenceOf float site.body) path = some b ∧
    (e = (path.getD TOP, b) ∨ Drawn S float tree doc (some b) (treeAt S tree doc (some b)) e)

variable {S float tree doc} {path : Option Str} {e : Str × Str}

theorem drawn_iff {rest : Parse} : Drawn S float tree doc path rest e ↔
    ∃ site, Inside S float tree path rest site ∧ Met S float tree doc path site e := by
  constructor
  · intro h
    cases h with
    | here hi hn => exact ⟨_, hi, _, hn, .inl rfl⟩
    | inside hi hn h => exact ⟨_, hi, _, hn, .inr h⟩
  · rintro ⟨site, hi, b, hn, rfl | h⟩
    · exact .here hi hn
    · exact .inside hi hn h

theorem not_drawn_done {result : Except OwnError Value} :
    ¬ Drawn S float tree doc path (.done result) e := by
  rw [drawn_iff]
  rintro ⟨_, hi, -⟩
  cases hi

/-- After a reference with a value the rest goes on from that value. -/
theorem drawn_act {site : Site} {next : Effect → Parse} {v : Value}
    (hv : Means S float tree path (.reference site) v) :
    Drawn S float tree doc path (.act site next) e ↔
      Met S float tree doc path site e ∨ Drawn S float tree doc path (next (site.effect v)) e := by
  rw [drawn_iff, drawn_iff]
  constructor
  · rintro ⟨site', hi, hmet⟩
    cases hi with
    | here => exact .inl hmet
    | later he hi =>
      obtain rfl := he v hv
      exact .inr ⟨site', hi, hmet⟩
  · rintro (hmet | ⟨site', hi, hmet⟩)
    · exact ⟨site, .here, hmet⟩
    · exact ⟨site', hi.next hv, hmet⟩

theorem Drawn.reached {rest : Parse} (h : Drawn S float tree doc path rest e) :
    Reached S float tree doc path →
      (∀ site, Inside S float tree path rest site →
        Inside S float tree path (treeAt S tree doc path) site) →
      ∃ a b, Reached S float tree doc a ∧ Refers S float tree doc a b ∧ e = (a.getD TOP, b) := by
  induction h with
  | here hi hn => exact fun ha hs => ⟨_, _, ha, ⟨_, hs _ hi, hn⟩, rfl⟩
  | inside hi hn _ ih => exact fun ha hs => ih (ha.step ⟨_, hs _ hi, hn⟩) fun _ => id

theorem Trail.drawn {c : List Str} (h : Trail S float tree doc c)
    (hd : Drawn S float tree doc c.getLast? (treeAt S tree doc c.getLast?) e) :
    Drawn S float tree doc none (tree doc) e := by
  induction h with
  | nil => exact hd
  | snoc _ hr ih =>
    obtain ⟨site, hi, hn⟩ := hr
    rw [List.getLast?_concat] at hd
    exact ih (.inside hi hn hd)

/-- The edges from the document on are those of the graph. -/
theorem drawn_document {tar src : Str} : Drawn S float tree doc none (tree doc) (tar, src) ↔
    GraphEdge S float tree doc tar src := by
  constructor
  · intro h
    obtain ⟨a, b, ha, hr, he⟩ := h.reached ⟨[], .nil, rfl⟩ fun _ => id
    obtain ⟨rfl, rfl⟩ := Prod.mk.inj he
    exact ⟨a, ha, hr, rfl⟩
  · rintro ⟨a, ⟨c, hc, rfl⟩, ⟨site, hi, hn⟩, rfl⟩
    exact hc.drawn (.here hi hn)

end Drawn

/-! ## Runs that only count edges -/

section Handler

variable {I : Type} (options : MultiSourceOptions) (S : SourceSet)

/-- The edge of an event: a resolution that passes both checks. -/
def edgeAt : Event (sig I) → Option (Str × Str)
  | ⟨.resolve _ parseMeta, r⟩ => edgeOf options (metaChain parseMeta) r
  | _ => none

/-- Resolutions are those of the source set. -/
def Lawful : Event (sig I) → Prop
  | ⟨.resolve reference parseMeta, r⟩ => r = S.resolve reference (sourcePath parseMeta)
  | _ => True

/-- Operations by the edges they add, whatever else they respond. -/
abbrev drawing : Handler (sig I) (List (Str × Str)) := collecting (Lawful S) (edgeAt options)

end Handler

/-! ## The programs draw the graph -/

section Programs

variable {I : Type} {options : MultiSourceOptions} {engine : Engine I options.markchar}
  {S : SourceSet} {tree : Str → Parse} {doc : Str} {m : Value} {site : Site}
  {s s' : List (Str × Str)}

/-- `p` runs to `a`, whatever the environment responds, and draws from `s` to `s'`. -/
abbrev Draws {A : Type} (engine : Engine I options.markchar) (S : SourceSet)
    (s : List (Str × Str)) (p : Program I A) (a : A) (s' : List (Str × Str)) : Prop :=
  Exec (S := sig I) (drawing options S) (body engine) s p a s'

/-- What a parse of `rest` draws. -/
structure Outlines (S : SourceSet) (float : ExpFormat) (tree : Str → Parse) (doc : Str)
    (path : Option Str) (rest : Parse) (answer : Except TabnasError Value)
    (d : List (Str × Str)) : Prop where
  sound : ∀ e ∈ d, Drawn S float tree doc path rest e
  complete : ∀ v, answer = .ok v → Means S float tree path (.source rest) v ∧
    ∀ e, Drawn S float tree doc path rest e → e ∈ d

/-- What an action draws. -/
structure Traces (S : SourceSet) (float : ExpFormat) (tree : Str → Parse) (doc : Str)
    (path : Option Str) (site : Site) (result : ActionResult) (d : List (Str × Str)) : Prop where
  sound : ∀ e ∈ d, Met S float tree doc path site e
  complete : ∀ effect, result = .applied effect →
    (∃ v, Means S float tree path (.reference site) v ∧ effect = site.effect v) ∧
    ∀ e, Met S float tree doc path site e → e ∈ d

theorem draws_ask {o : Op I} {r : o.Resp} (ho : edgeAt options ⟨o, r⟩ = none)
    (h : Draws engine S s (ask o) r s') : s' = s := by
  have hs := (exec_ask.mp h).2
  rwa [ho, Option.toList_none, List.append_nil] at hs

theorem draws_fail {report : Report} {result : ActionResult}
    (h : Draws engine S s (fail m site report) result s') :
    s' = s ∧ ∀ effect, result ≠ .applied effect := by
  obtain ⟨_, s₁, hrecord, hret⟩ := exec_bind.mp h
  obtain ⟨rfl, rfl⟩ := exec_ret.mp hret
  refine ⟨?_, fun effect => by cases site.errorToken <;> simp⟩
  unfold recordReport at hrecord
  split at hrecord
  · exact draws_ask rfl hrecord
  · exact (exec_ret.mp hrecord).2

theorem draws_finish {fullpath ticket : Str} {r : Resolution} {result : ActionResult}
    (h : Draws engine S s (finish m site fullpath ticket r) result s') :
    s' = s ∧ ∀ effect, result = .applied effect → r.err = none ∧ effect = site.effect r.val := by
  unfold finish at h
  cases he : r.err with
  | none =>
    rw [he] at h
    obtain ⟨_, s₁, ha, hret⟩ := exec_bind.mp h
    obtain ⟨rfl, rfl⟩ := exec_ret.mp hret
    exact ⟨draws_ask rfl ha, fun effect h => ⟨rfl, (ActionResult.applied.inj h).symm⟩⟩
  | some error =>
    rw [he] at h
    obtain ⟨_, s₁, ha, hfail⟩ := exec_bind.mp h
    obtain ⟨rfl, hno⟩ := draws_fail hfail
    exact ⟨draws_ask rfl ha, fun effect h => absurd h (hno effect)⟩

theorem draws_recordEdge {parents : List Str} {fullpath : Str} {u : Unit}
    (h : Draws engine S s (recordEdge options parents fullpath) u s') : s' = s := by
  unfold recordEdge at h
  split_ifs at h
  · exact draws_ask rfl h
  · exact (exec_ret.mp h).2

theorem draws_prepare {parser : I} {src : Str} {u : Unit}
    (h : Draws engine S s (prepare options.markchar parser src m) u s') : s' = s := by
  unfold prepare at h
  split_ifs at h
  · exact draws_ask rfl h
  · exact (exec_ret.mp h).2

theorem draws_parseNested {parser : I} {src : Str} {depth : ℕ} {answer : Except TabnasError Value}
    (h : Draws engine S s (parseNested engine parser src m depth) answer s') :
    (s' = s ∧ ∃ error, answer = .error error) ∨
      Draws engine S s (parseWithMeta engine parser src m) answer s' := by
  unfold parseNested at h
  split_ifs at h
  · obtain ⟨refused, s₁, ha, hret⟩ := exec_bind.mp h
    obtain rfl := draws_ask rfl ha
    cases refused with
    | none => exact .inr hret
    | some reason =>
      obtain ⟨rfl, rfl⟩ := exec_ret.mp hret
      exact .inl ⟨rfl, _, rfl⟩
  · exact .inr h

/-- A load draws what the processing of its source draws, and applies what comes of it. -/
theorem draws_begin {r : Resolution} {full : Str} {result : ActionResult}
    (h : Draws engine S s (load options m site r full) result s') :
    (s' = s ∧ ∀ effect, result ≠ .applied effect) ∨
      ∃ parser ticket r', Draws engine S s
          (process options r (nestedMeta m site r ticket) parser (metaChain m).length) r' s' ∧
        ∀ effect, result = .applied effect → r'.err = none ∧ effect = site.effect r'.val := by
  obtain ⟨_, s₁, hedge, hticketed⟩ := exec_bind.mp h
  obtain rfl := draws_recordEdge hedge
  obtain ⟨ticket, s₂, hticket, hgot⟩ := exec_bind.mp hticketed
  obtain rfl := draws_ask rfl hticket
  obtain ⟨published, s₃, hget, hprocessed⟩ := exec_bind.mp hgot
  obtain rfl := draws_ask rfl hget
  cases published with
  | none =>
    obtain ⟨rfl, rfl⟩ := exec_ret.mp hprocessed
    exact .inl ⟨rfl, fun effect => by simp⟩
  | some parser =>
    obtain ⟨r', s₄, hprocess, hfinish⟩ := exec_bind.mp hprocessed
    obtain ⟨rfl, happlied⟩ := draws_finish hfinish
    exact .inr ⟨parser, ticket, r', hprocess, happlied⟩

/-- A load draws what its nested parse draws. -/
theorem draws_load (hproc : options.processor = defaultProcessors) {spec : PathSpec}
    {full src : Str} {search : List Str} {result : ActionResult}
    (hn : S.names (referenceOf engine.float site.body) (sourcePath m) = some full)
    (ht : S.text full = some src)
    (hnest : ∀ parser ticket s s' answer, Draws engine S s (parseWithMeta engine parser src
        (nestedMeta m site ((Resolution.ofFound spec full src).withSearch search) ticket)) answer
        s' →
      ∃ d, s' = s ++ d ∧ Outlines S engine.float tree doc (some full) (tree src) answer d)
    (h : Draws engine S s (load options m site
      ((Resolution.ofFound spec full src).withSearch search) full) result s') :
    ∃ d, s' = s ++ d ∧
      (∀ e ∈ d, Drawn S engine.float tree doc (some full) (treeAt S tree doc (some full)) e) ∧
      ∀ effect, result = .applied effect →
        (∃ v, Means S engine.float tree (sourcePath m) (.reference site) v ∧
          effect = site.effect v) ∧
        ∀ e, Drawn S engine.float tree doc (some full) (treeAt S tree doc (some full)) e →
          e ∈ d := by
  rcases draws_begin h with ⟨rfl, hno⟩ | ⟨parser, ticket, r', hprocess, happlied⟩
  · exact ⟨[], (List.append_nil _).symm, fun _ he => absurd he List.not_mem_nil,
      fun effect he => absurd he (hno effect)⟩
  rcases exec_process hproc hprocess with ⟨htext, rfl, rfl⟩ | ⟨src', answer, htext, hanswer, rfl⟩
  · -- a source that is not parsed has no references
    rw [nestedText_ofFound hproc] at htext
    have hp : isParsed full = false := by
      cases hp : isParsed full with
      | false => rfl
      | true => simp [hp] at htext
    refine ⟨[], (List.append_nil _).symm, fun _ he => absurd he List.not_mem_nil,
      fun effect he => ⟨⟨_, .text hn ht hp, ?_⟩, fun e hd => ?_⟩⟩
    · rw [(happlied effect he).2, plainValue_ofFound hproc hp]
    · rw [treeAt, ht, hp] at hd
      exact absurd hd not_drawn_done
  · rw [nestedText_ofFound hproc] at htext
    split_ifs at htext with hp
    obtain rfl := Option.some.inj htext
    rw [treeAt_of_parsed ht hp]
    rcases draws_parseNested hanswer with ⟨rfl, error, rfl⟩ | hparse
    · exact ⟨[], (List.append_nil _).symm, fun _ he => absurd he List.not_mem_nil,
        fun effect he => absurd (happlied effect he).1 (by simp)⟩
    · obtain ⟨d, rfl, hd⟩ := hnest _ _ _ _ _ hparse
      refine ⟨d, rfl, hd.sound, fun effect he => ?_⟩
      cases answer with
      | error error => exact absurd (happlied effect he).1 (by simp)
      | ok v =>
        obtain ⟨hv, hall⟩ := hd.complete v rfl
        exact ⟨⟨v, .nested hn ht hp hv, (happlied effect he).2⟩, hall⟩

theorem Traces.of_failed {float : ExpFormat} {path : Option Str} {result : ActionResult}
    (h : ∀ effect, result ≠ .applied effect) : Traces S float tree doc path site result [] :=
  ⟨fun _ he => absurd he List.not_mem_nil, fun effect he => absurd he (h effect)⟩

/-- A reference draws its own edge and what the source it names draws. -/
theorem Traces.of_load {float : ExpFormat} {path : Option Str} {full : Str}
    {result : ActionResult} {d : List (Str × Str)}
    (hn : S.names (referenceOf float site.body) path = some full)
    (hsound : ∀ e ∈ d, Drawn S float tree doc (some full) (treeAt S tree doc (some full)) e)
    (happlied : ∀ effect, result = .applied effect →
      (∃ v, Means S float tree path (.reference site) v ∧ effect = site.effect v) ∧
        ∀ e, Drawn S float tree doc (some full) (treeAt S tree doc (some full)) e → e ∈ d) :
    Traces S float tree doc path site result ((path.getD TOP, full) :: d) where
  sound e hd := by
    rcases List.mem_cons.mp hd with rfl | hd
    · exact ⟨full, hn, .inl rfl⟩
    · exact ⟨full, hn, .inr (hsound e hd)⟩
  complete effect hresult := by
    obtain ⟨hv, hall⟩ := happlied effect hresult
    refine ⟨hv, ?_⟩
    rintro e ⟨b, hb, hd⟩
    obtain rfl := Option.some.inj (hn.symm.trans hb)
    rcases hd with rfl | hd
    · exact List.mem_cons_self ..
    · exact List.mem_cons_of_mem _ (hall e hd)

/-- An action draws the edge of its reference, if that passes the checks, and what its load
draws. -/
theorem draws_directiveAction (hproc : options.processor = defaultProcessors)
    (hlast : (metaChain m).getLast? = sourcePath m) {result : ActionResult}
    (hnest : ∀ spec full src search, chainReport options.maxDepth (metaChain m) full = none →
      ∀ parser ticket s s' answer, Draws engine S s (parseWithMeta engine parser src
          (nestedMeta m site ((Resolution.ofFound spec full src).withSearch search) ticket)) answer
          s' →
        ∃ d, s' = s ++ d ∧ Outlines S engine.float tree doc (some full) (tree src) answer d)
    (h : Draws engine S s (directiveAction options engine.float m site) result s') :
    ∃ d, s' = s ++ d ∧ Traces S engine.float tree doc (sourcePath m) site result d := by
  obtain ⟨r, s₁, hresolve, hrest⟩ := exec_bind.mp h
  obtain rfl : r = S.resolve (referenceOf engine.float site.body) (sourcePath m) :=
    (exec_ask.mp hresolve).1
  obtain rfl : s₁ = s ++ (edgeOf options (metaChain m)
      (S.resolve (referenceOf engine.float site.body) (sourcePath m))).toList :=
    (exec_ask.mp hresolve).2
  by_cases hfound : (S.resolve (referenceOf engine.float site.body) (sourcePath m)).found = true
  · rw [if_pos hfound] at hrest
    obtain ⟨full, hn, hfull⟩ := SourceSet.names_of_found hfound
    rw [hfull] at hrest
    cases hc : chainReport options.maxDepth (metaChain m) full with
    | some report =>
      rw [hc] at hrest
      obtain ⟨rfl, hno⟩ := draws_fail hrest
      refine ⟨[], ?_, .of_failed hno⟩
      rw [edgeOf, if_neg (by rw [hfull, hc]; simp), Option.toList_none]
    | none =>
      rw [hc] at hrest
      obtain ⟨spec, src, search, ht, he⟩ := SourceSet.of_names hn
      have hedge : edgeOf options (metaChain m)
          (S.resolve (referenceOf engine.float site.body) (sourcePath m)) =
          some ((sourcePath m).getD TOP, full) := by
        rw [edgeOf, if_pos ⟨hfound, by rw [hfull, hc]⟩, hfull, hlast]
      rw [hedge, he] at hrest
      obtain ⟨d, rfl, hsound, happlied⟩ := draws_load hproc hn ht (hnest spec full src search hc)
        hrest
      refine ⟨((sourcePath m).getD TOP, full) :: d, ?_, .of_load hn hsound happlied⟩
      rw [Option.toList_some, List.append_assoc, List.singleton_append]
  · rw [if_neg hfound] at hrest
    obtain ⟨rfl, hno⟩ := draws_fail hrest
    refine ⟨[], ?_, .of_failed hno⟩
    rw [edgeOf, if_neg (fun h => hfound h.1), Option.toList_none]

theorem draws_run {rest : Parse} {answer : Except TabnasError Value}
    (haction : ∀ site s s' result, Draws engine S s (directiveAction options engine.float m site)
        result s' →
      ∃ d, s' = s ++ d ∧ Traces S engine.float tree doc (sourcePath m) site result d)
    (h : Draws engine S s (run engine m rest) answer s') :
    ∃ d, s' = s ++ d ∧ Outlines S engine.float tree doc (sourcePath m) rest answer d := by
  induction rest generalizing s with
  | done result =>
    cases result with
    | ok v =>
      obtain ⟨rfl, rfl⟩ := exec_ret.mp h
      refine ⟨[], (List.append_nil _).symm, fun _ he => absurd he List.not_mem_nil, fun w hw => ?_⟩
      obtain rfl := Except.ok.inj hw
      exact ⟨.done, fun e hd => absurd hd not_drawn_done⟩
    | error e =>
      obtain ⟨rfl, rfl⟩ := exec_ret.mp h
      exact ⟨[], (List.append_nil _).symm, fun _ he => absurd he List.not_mem_nil,
        fun w hw => absurd hw (by simp)⟩
  | act site next ih =>
    rw [run] at h
    obtain ⟨result, s₁, hact, hrest⟩ := exec_bind.mp h
    obtain ⟨d, rfl, htraces⟩ := haction site _ _ _ hact
    cases result with
    | applied effect =>
      obtain ⟨⟨v, hv, rfl⟩, hall⟩ := htraces.complete effect rfl
      obtain ⟨d', rfl, hout⟩ := ih _ hrest
      refine ⟨d ++ d', List.append_assoc .., fun e he => ?_, fun w hw => ?_⟩
      · rw [drawn_act hv]
        exact (List.mem_append.mp he).imp (htraces.sound e) (hout.sound e)
      · obtain ⟨hmeans, hall'⟩ := hout.complete w hw
        refine ⟨.next hv hmeans, fun e he => List.mem_append.mpr ?_⟩
        exact ((drawn_act hv).mp he).imp (hall e) (hall' e)
    | bad token code details =>
      obtain ⟨rfl, rfl⟩ := exec_ret.mp hrest
      exact ⟨d, rfl, fun e he => drawn_iff.mpr ⟨site, .here, htraces.sound e he⟩,
        fun w hw => absurd hw (by simp)⟩
    | error code message =>
      obtain ⟨rfl, rfl⟩ := exec_ret.mp hrest
      exact ⟨d, rfl, fun e he => drawn_iff.mpr ⟨site, .here, htraces.sound e he⟩,
        fun w hw => absurd hw (by simp)⟩

/-- A parse draws the graph below its source: edges of it in any case, and all of them if it has a
value. Loads lengthen the chain, which the cap bounds. -/
theorem draws_parseWithMeta (hproc : options.processor = defaultProcessors)
    (htree : Textual engine tree) {parser : I} {src : Str} {answer : Except TabnasError Value}
    (hlast : (metaChain m).getLast? = sourcePath m)
    (h : Draws engine S s (parseWithMeta engine parser src m) answer s') :
    ∃ d, s' = s ++ d ∧ Outlines S engine.float tree doc (sourcePath m) (tree src) answer d := by
  induction hd : options.maxDepth - (metaChain m).length using Nat.strong_induction_on
    generalizing m parser src answer s s' with
  | _ n ih =>
    obtain ⟨_, s₁, hprepare, hrun⟩ := exec_bind.mp h
    obtain rfl := draws_prepare hprepare
    rw [htree] at hrun
    refine draws_run (fun site t t' result haction => ?_) hrun
    refine draws_directiveAction hproc hlast
      (fun spec full src search hc parser ticket u u' answer hparse => ?_) haction
    have hchain : metaChain (nestedMeta m site
        ((Resolution.ofFound spec full src).withSearch search) ticket) = metaChain m ++ [full] :=
      metaChain_childMeta ..
    have hpath : sourcePath (nestedMeta m site
        ((Resolution.ofFound spec full src).withSearch search) ticket) = some full :=
      sourcePath_childMeta ..
    have hlt := (chainReport_eq_none hc).2
    rw [← hpath]
    refine ih _ ?_ (by rw [hchain, hpath, List.getLast?_concat]) hparse rfl
    rw [hchain, List.length_append, List.length_singleton]
    omega

end Programs

end MultiSource
