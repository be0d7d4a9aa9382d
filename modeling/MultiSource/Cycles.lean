import MultiSource.Graph

/-!
# Cycle detection

A parse is stopped for a loop only where there is one, and for no other reason of the plugin's than
that, a missing source or the cap. A document that reaches a loop has no value.
-/

namespace MultiSource

open Interaction

section Checks

variable {S : SourceSet} {float : ExpFormat} {tree : Str → Parse} {doc : Str} {maxDepth : ℕ}

/-- Every reference met resolves, no source met reaches itself, and no chain of references passes
through more sources than the cap. -/
structure Loadable (S : SourceSet) (float : ExpFormat) (tree : Str → Parse) (doc : Str)
    (maxDepth : ℕ) : Prop where
  resolves : ∀ a site, Reached S float tree doc a →
    Inside S float tree a (treeAt S tree doc a) site →
    S.names (referenceOf float site.body) a ≠ none
  acyclic : ∀ a, Reached S float tree doc (some a) →
    ¬ Relation.TransGen (RefersTo S float tree doc) a a
  short : ∀ c, Trail S float tree doc c → c.length ≤ maxDepth

/-- The part of the chain from the source refused is a loop. -/
theorem Trail.loop {before after : List Str} {full : Str} {site : Site}
    (hc : Trail S float tree doc (before ++ full :: after))
    (hnodup : (before ++ full :: after).Nodup)
    (hi : Inside S float tree (before ++ full :: after).getLast?
      (treeAt S tree doc (before ++ full :: after).getLast?) site)
    (hn : S.names (referenceOf float site.body) (before ++ full :: after).getLast? = some full) :
    Loop S float tree doc full after := by
  have hchain : (full :: after).IsChain (RefersTo S float tree doc) :=
    hc.isChain.suffix (List.suffix_append ..)
  refine ⟨hnodup.sublist (List.sublist_append_right ..),
    List.isChain_append.mpr ⟨hchain, .singleton _, fun a ha b hb => ?_⟩⟩
  obtain rfl : full = b := Option.some.inj hb
  have hlast : (before ++ full :: after).getLast? = some a := by
    rw [List.getLast?_append, Option.mem_def.mp ha]
    rfl
  rw [hlast] at hi hn
  exact ⟨site, hi, hn⟩

theorem Refuted.loop {c : List Str} {site : Site} {report : Report}
    (h : Refuted S float maxDepth c site report) (hc : Trail S float tree doc c)
    (hnodup : c.Nodup) (hi : Inside S float tree c.getLast? (treeAt S tree doc c.getLast?) site)
    (hcycle : report.1 = CYCLE) :
    ∃ a rest, Loop S float tree doc a rest ∧ report = cycleReport (a :: rest ++ [a]) a := by
  cases h with
  | missing _ hcode => exact absurd (hcode.symm.trans hcycle) (by decide)
  | error _ hno _ => exact absurd hcycle hno
  | refused hn hcheck =>
    rcases chainReport_eq_some hcheck with ⟨before, after, rfl, -, hreport⟩ | ⟨-, -, rfl⟩
    · exact ⟨_, after, hc.loop hnodup hi hn, hreport⟩
    · exact absurd hcycle (by decide : DEPTH ≠ CYCLE)

theorem Refuted.not_loadable {c : List Str} {site : Site} {report : Report}
    (h : Refuted S float maxDepth c site report) (hc : Trail S float tree doc c)
    (hnodup : c.Nodup) (hi : Inside S float tree c.getLast? (treeAt S tree doc c.getLast?) site)
    (hl : Loadable S float tree doc maxDepth) :
    report.1 ≠ NOT_FOUND ∧ report.1 ≠ CYCLE ∧ report.1 ≠ DEPTH := by
  cases h with
  | missing hn _ => exact absurd hn (hl.resolves _ _ ⟨c, hc, rfl⟩ hi)
  | error hmissing hcycle hdepth => exact ⟨hmissing, hcycle, hdepth⟩
  | refused hn hcheck =>
    rcases chainReport_eq_some hcheck with ⟨before, after, rfl, -, -⟩ | ⟨-, hcap, -⟩
    · have hreached : Reached S float tree doc (some _) :=
        ⟨before ++ [_], .of_append (by rwa [← List.append_cons]), List.getLast?_concat⟩
      exact absurd (hc.loop hnodup hi hn).transGen (hl.acyclic _ hreached)
    · have := hl.short _ (hc.snoc ⟨site, hi, hn⟩)
      simp only [List.length_append, List.length_singleton] at this
      omega

end Checks

section Parses

variable {I : Type} {options : MultiSourceOptions} {engine : Engine I options.markchar}
  {tree : Str → Parse} {parser : I}

/-- A failed document fails with its own error or at a reference at the end of a trail. -/
theorem Comes.failure {S : SourceSet} {float : ExpFormat} {doc : Str} {maxDepth : ℕ}
    {refused : Str → Prop} {o : Outcome} {error : TabnasError}
    (h : Comes S float tree maxDepth refused none [] (.source (tree doc)) o)
    (ha : Answers o (.error error)) :
    (∃ e : OwnError, error = e.error) ∨
      ∃ c site, Trail S float tree doc c ∧ c.Nodup ∧
        Inside S float tree c.getLast? (treeAt S tree doc c.getLast?) site ∧
        Refuted S float maxDepth c site (error.code, error.bag) := by
  cases o with
  | value v => exact absurd ha (by simp [Answers])
  | own e => exact .inl ⟨e, by simpa [Answers] using ha⟩
  | raised report =>
    obtain ⟨e, he, hcode, hbag⟩ := ha
    obtain rfl : error = e := by simpa using he
    rw [hcode, hbag]
    exact .inr (h.refuted report rfl rfl .nil .nil fun _ => id)

/-- Over every in-memory map and every document: the parse ends. It fails with a loop only if the
sources of the report are one. If every reference resolves, no source reaches itself and the chains
are within the cap, no check fails. If a source that reaches itself is reached, the parse fails. -/
theorem cycle_detection_exact (hproc : options.processor = defaultProcessors)
    (files : MapResolver) (refused : Str → Prop) (htree : Textual engine tree) {doc : Str}
    {parseMeta : Value} (hm : Unmarked parseMeta) {s : Shared I} (hs : s.slots = []) :
    let S := (Store.map files).sources options
    let Ran := Exec (S := sig I) (Handles ((Store.map files).world options refused)) (body engine) s
      (body engine (.parse parser doc parseMeta))
    (∃ answer s', Ran answer s') ∧ ∀ answer s', Ran answer s' →
      (∀ error, answer = .error error → error.code = CYCLE →
        ∃ a rest, Loop S engine.float tree doc a rest ∧
          (error.code, error.bag) = cycleReport (a :: rest ++ [a]) a) ∧
      (Loadable S engine.float tree doc options.maxDepth → ∀ error, answer = .error error →
        error.code ≠ NOT_FOUND ∧ error.code ≠ CYCLE ∧ error.code ≠ DEPTH) ∧
      ((∃ a, Reached S engine.float tree doc (some a) ∧
          Relation.TransGen (RefersTo S engine.float tree doc) a a) →
        ∃ error, answer = .error error) := by
  intro S Ran
  refine ⟨Halts.exec (fun s o => ⟨_, _, handles_answer _ refused s o⟩) (halts_body _) s,
    fun answer s' h => ?_⟩
  obtain ⟨o, hends, hanswers⟩ := exec_top hproc (Fresh.topLevel hm) hs h
  have hcomes := hends.comes hproc (Store.serves options (.map files) refused) (fun _ h => h _ rfl)
    htree
  rw [htree, hm.chain, hm.path] at hcomes
  refine ⟨fun error he hcycle => ?_, fun hl error he => ?_, fun ⟨a, hreached, hloop⟩ => ?_⟩
  · subst he
    rcases hcomes.failure hanswers with ⟨e, rfl⟩ | ⟨c, site, hc, hnodup, hi, hr⟩
    · exact absurd hcycle e.own.2.1
    · exact hr.loop hc hnodup hi hcycle
  · subst he
    rcases hcomes.failure hanswers with ⟨e, rfl⟩ | ⟨c, site, hc, hnodup, hi, hr⟩
    · exact e.own
    · exact hr.not_loadable hc hnodup hi hl
  · cases o with
    | value v => exact absurd hloop (Valued.acyclic ⟨v, hcomes⟩ hreached)
    | own e => exact ⟨_, hanswers⟩
    | raised report =>
      obtain ⟨error, he, -⟩ := hanswers
      exact ⟨error, he⟩

end Parses

/-! ## A loop and a leaf -/

/-- A source with a reference to itself. -/
def selfFiles : MapResolver := ⟨[("a.jsonic".toList, "@a".toList)]⟩

/-- A source without references. -/
def leafFiles : MapResolver := ⟨[("a.jsonic".toList, "x".toList)]⟩

theorem inside_parseAlone {S : SourceSet} {float : ExpFormat} {tree : Str → Parse}
    {path : Option Str} {reference : Str} {site : Site}
    (h : Inside S float tree path (parseAlone ('@' :: reference)) site) :
    site = .alone reference := by
  cases h with
  | here => rfl
  | @later _ _ _ effect _ hi => cases effect <;> cases hi

theorem selfFiles_refers {a : Option Str} (h : a = none ∨ a = some "a.jsonic".toList) :
    Refers ((Store.map selfFiles).sources MultiSourceOptions.new) aloneEngine.float parseAlone
      "@a".toList a "a.jsonic".toList := by
  rcases h with rfl | rfl
  · exact ⟨_, .here, by decide +kernel⟩
  · refine ⟨.alone "a".toList, ?_, by decide +kernel⟩
    have ht : ((Store.map selfFiles).sources MultiSourceOptions.new).text "a.jsonic".toList =
        some "@a".toList := by
      decide +kernel
    rw [treeAt_of_parsed ht (by decide +kernel)]
    exact .here

theorem leafFiles_tree : treeAt ((Store.map leafFiles).sources MultiSourceOptions.new) parseAlone
    "@a".toList (some "a.jsonic".toList) = .done (.ok (.string "x".toList)) := by
  have ht : ((Store.map leafFiles).sources MultiSourceOptions.new).text "a.jsonic".toList =
      some "x".toList := by
    decide +kernel
  rw [treeAt_of_parsed ht (by decide +kernel)]
  rfl

/-- The document refers to the leaf, and the leaf to nothing. -/
theorem leafFiles_refers {a : Option Str} {b : Str}
    (h : Refers ((Store.map leafFiles).sources MultiSourceOptions.new) aloneEngine.float parseAlone
      "@a".toList a b) (ha : a = none ∨ a = some "a.jsonic".toList) :
    a = none ∧ b = "a.jsonic".toList := by
  obtain ⟨site, hi, hn⟩ := h
  rcases ha with rfl | rfl
  · obtain rfl := inside_parseAlone hi
    have hname : ((Store.map leafFiles).sources MultiSourceOptions.new).names
        (referenceOf aloneEngine.float (Site.alone "a".toList).body) none =
          some "a.jsonic".toList := by
      decide +kernel
    exact ⟨rfl, Option.some.inj (hn.symm.trans hname)⟩
  · rw [leafFiles_tree] at hi
    cases hi

theorem leafFiles_trail {c : List Str}
    (h : Trail ((Store.map leafFiles).sources MultiSourceOptions.new) aloneEngine.float parseAlone
      "@a".toList c) : c = [] ∨ c = ["a.jsonic".toList] := by
  induction h with
  | nil => exact .inl rfl
  | snoc _ hr ih =>
    rcases ih with rfl | rfl
    · obtain ⟨-, rfl⟩ := leafFiles_refers hr (.inl rfl)
      exact .inr rfl
    · exact absurd (leafFiles_refers hr (.inr rfl)).1 (by simp)

theorem leafFiles_loadable :
    Loadable ((Store.map leafFiles).sources MultiSourceOptions.new) aloneEngine.float parseAlone
      "@a".toList MultiSourceOptions.new.maxDepth where
  resolves := by
    rintro a site ⟨c, hc, rfl⟩ hi
    rcases leafFiles_trail hc with rfl | rfl
    · obtain rfl := inside_parseAlone hi
      decide +kernel
    · rw [List.getLast?_singleton, leafFiles_tree] at hi
      cases hi
  acyclic := by
    rintro a ⟨c, hc, hlast⟩ hloop
    obtain ⟨b, hab, -⟩ := Relation.TransGen.head'_iff.mp hloop
    rcases leafFiles_trail hc with rfl | rfl
    · exact absurd hlast (by simp)
    · obtain rfl := Option.some.inj hlast
      exact absurd (leafFiles_refers hab (.inr rfl)).1 (by simp)
  short := by
    intro c hc
    rcases leafFiles_trail hc with rfl | rfl <;> decide

/-- The self reference is reported as the loop it is, and the leaf is loaded. -/
theorem cycle_detection_exact_self :
    (∃ (error : TabnasError) (s' : Shared Bool) (a : Str) (rest : List Str),
      Exec (S := sig Bool) (Handles ((Store.map selfFiles).world MultiSourceOptions.new granted))
        (body aloneEngine) Shared.init (body aloneEngine (.parse true "@a".toList .undefined))
        (.error error) s' ∧
      Loop ((Store.map selfFiles).sources MultiSourceOptions.new) aloneEngine.float parseAlone
        "@a".toList a rest ∧ (error.code, error.bag) = cycleReport (a :: rest ++ [a]) a) ∧
    ∃ (answer : Except TabnasError Value) (s' : Shared Bool),
      Exec (S := sig Bool) (Handles ((Store.map leafFiles).world MultiSourceOptions.new granted))
        (body aloneEngine) Shared.init (body aloneEngine (.parse true "@a".toList .undefined))
        answer s' ∧
      ∀ error, answer = .error error →
        error.code ≠ NOT_FOUND ∧ error.code ≠ CYCLE ∧ error.code ≠ DEPTH := by
  refine ⟨?_, ?_⟩
  · have hrun : ((interpret (S := sig Bool) (answer ((Store.map selfFiles).resolve .new))
        (body aloneEngine) 3 Shared.init (.parse true "@a".toList .undefined)).map fun r =>
          answerCode r.1) = some CYCLE := by
      decide +kernel
    obtain ⟨⟨result, s'⟩, hrun, hcode⟩ := Option.map_eq_some_iff.mp hrun
    have hexec := exec_of_interpret (handles_answer _ granted) _ _ _ _ hrun
    obtain ⟨hcycle, -, hfails⟩ := (@cycle_detection_exact Bool .new aloneEngine parseAlone true
      rfl selfFiles granted (fun _ _ _ => rfl) _ .undefined rfl _ rfl).2 result s' hexec
    obtain ⟨error, rfl⟩ := hfails ⟨"a.jsonic".toList,
      Reached.step ⟨[], .nil, rfl⟩ (selfFiles_refers (.inl rfl)),
      .single (selfFiles_refers (.inr rfl))⟩
    obtain ⟨a, rest, hloop, hreport⟩ := hcycle error rfl hcode
    exact ⟨error, s', a, rest, hexec, hloop, hreport⟩
  · obtain ⟨⟨answer, s', hexec⟩, hruns⟩ := @cycle_detection_exact Bool .new aloneEngine parseAlone
      true rfl leafFiles granted (fun _ _ _ => rfl) "@a".toList .undefined rfl Shared.init
      rfl
    exact ⟨answer, s', hexec, (hruns answer s' hexec).2.1 leafFiles_loadable⟩

end MultiSource
