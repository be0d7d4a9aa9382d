import MultiSource.Go.Plugin

/-!
# Nested failures in the Go port

A reference that fails inside a loaded source makes the parse of that source fail, and the action
that loaded it re-raises the code, with the path of its own reference for all details.
-/

namespace MultiSource.Go

open Interaction

variable {files : Entries Str} {opts : Options} {engine : Engine}

/-! ## Where a reference fails -/

/-- A parse from here on gets to a site: the references before it loaded. -/
inductive Gets (files : Entries Str) (opts : Options) (engine : Engine) (parseMeta : Meta) :
    Parse → Site → Prop
  | here {site : Site} {next : Effect → Parse} :
      Gets files opts engine parseMeta (.act site next) site
  | later {site site' : Site} {next : Effect → Parse} {effect : Effect} {tr : List (Event sig)} :
      Evals (body files opts engine) (action files opts engine parseMeta site) tr
        (.applied effect) →
      Gets files opts engine parseMeta (next effect) site' →
      Gets files opts engine parseMeta (.act site next) site'

/-- The report of a reference that fails itself: its source is missing, or an ancestor of it. -/
inductive Fails (files : Entries Str) (opts : Options) (pathStr : Str) (parseMeta : Meta) :
    Report → Prop
  | missing : (resolve files opts pathStr parseMeta).found = false →
      Fails files opts pathStr parseMeta
        (missingReport pathStr (resolve files opts pathStr parseMeta))
  | cycle {before after : List Str} : (resolve files opts pathStr parseMeta).found = true →
      metaChain parseMeta = before ++ (resolve files opts pathStr parseMeta).full :: after →
      (resolve files opts pathStr parseMeta).full ∉ before →
      Fails files opts pathStr parseMeta
        (cycleReport (resolve files opts pathStr parseMeta).full
          ((resolve files opts pathStr parseMeta).full :: after ++
            [(resolve files opts pathStr parseMeta).full]))

/-- The reference that stops a parse, so many loads further in, and its report. -/
inductive Innermost (files : Entries Str) (opts : Options) (engine : Engine) :
    Call → ℕ → Report → Prop
  | fails {c : Call} {site : Site} {report : Report} :
      Gets files opts engine c.parseMeta (engine.parse c.src c.parseMeta) site →
      Fails files opts (site.reference engine) c.parseMeta report →
      Innermost files opts engine c 0 report
  | nested {c : Call} {site : Site} {n : ℕ} {report : Report} :
      Gets files opts engine c.parseMeta (engine.parse c.src c.parseMeta) site →
      (resolve files opts (site.reference engine) c.parseMeta).found = true →
      (resolve files opts (site.reference engine) c.parseMeta).full ∉ metaChain c.parseMeta →
      getProcessor (resolve files opts (site.reference engine) c.parseMeta).kind
        defaultProcessors = .jsonic →
      (resolve files opts (site.reference engine) c.parseMeta).src ≠ [] →
      Innermost files opts engine ⟨(resolve files opts (site.reference engine) c.parseMeta).src,
        childMeta c.parseMeta (resolve files opts (site.reference engine) c.parseMeta)⟩ n report →
      Innermost files opts engine c (n + 1) report

/-! ## What the action raises -/

theorem action_of_fails {parseMeta : Meta} {site : Site} {report : Report}
    (h : Fails files opts (site.reference engine) parseMeta report) :
    action files opts engine parseMeta site = .ret (site.bad report) := by
  cases h with
  | missing hf =>
    unfold action Resolver.action Resolver.resolveSource
    dsimp only
    rw [if_neg (by simp [hf])]
    rfl
  | @cycle before after hf hchain hbefore =>
    have hidx : (metaChain parseMeta).findIdx?
        (· = (resolve files opts (site.reference engine) parseMeta).full) =
        some before.length := by
      rw [hchain, List.findIdx?_append, List.findIdx?_eq_none_iff.mpr]
      · simp [List.findIdx?_cons]
      · intro p hp
        simp only [decide_eq_false_iff_not]
        rintro rfl
        exact hbefore hp
    unfold action Resolver.action Resolver.resolveSource
    dsimp only
    rw [if_pos hf, fullPath_of_ne_nil (resolve_found hf).named, hidx]
    dsimp only
    rw [hchain, List.drop_left]
    rfl

theorem evals_recordEdge (body : Call → Program (Except Failure Value)) (parseMeta : Meta)
    (full : Str) : ∃ tr, Evals (S := sig) body (recordEdge parseMeta full) tr () := by
  unfold recordEdge
  split_ifs
  · exact ⟨_, .op () (.ret ())⟩
  · exact ⟨[], .ret ()⟩

/-- A load whose parse fails is reported with the code of that failure. -/
theorem action_of_nested {parseMeta : Meta} {site : Site} {res : Resolution} {err : Failure}
    {tr : List (Event sig)} (hres : resolve files opts (site.reference engine) parseMeta = res)
    (hf : res.found = true) (hm : res.full ∉ metaChain parseMeta)
    (hk : getProcessor res.kind defaultProcessors = .jsonic) (hs : res.src ≠ [])
    (h : Evals (S := sig) (body files opts engine)
      (body files opts engine ⟨res.src, childMeta parseMeta res⟩) tr (.error err)) :
    ∃ tr', Evals (S := sig) (body files opts engine) (action files opts engine parseMeta site) tr'
      (site.bad (nestedReport (site.reference engine) err)) := by
  subst hres
  have hidx : (metaChain parseMeta).findIdx?
      (· = (resolve files opts (site.reference engine) parseMeta).full) = none := by
    apply List.findIdx?_eq_none_iff.mpr
    intro p hp
    simp only [decide_eq_false_iff_not]
    rintro rfl
    exact hm hp
  obtain ⟨tr₀, h₀⟩ := evals_recordEdge (body files opts engine) parseMeta
    (resolve files opts (site.reference engine) parseMeta).full
  have hprocess : Evals (S := sig) (body files opts engine)
      (process (resolve files opts (site.reference engine) parseMeta)
        (childMeta parseMeta (resolve files opts (site.reference engine) parseMeta)))
      (tr ++ []) (.failed err) := by
    unfold process jsonicProcessor
    rw [hk]
    dsimp only
    rw [if_neg hs]
    exact .call h (.ret _)
  have hload : Evals (S := sig) (body files opts engine)
      (resolveSource files opts (site.reference engine) parseMeta) (tr₀ ++ (tr ++ []))
      (.failed err) := by
    unfold resolveSource Resolver.resolveSource
    dsimp only
    rw [if_pos hf, fullPath_of_ne_nil (resolve_found hf).named, hidx]
    exact evals_bind.mpr ⟨_, _, _, rfl, h₀, hprocess⟩
  exact ⟨_, evals_bind.mpr ⟨_, _, _, rfl, hload, .ret _⟩⟩

/-- A parse ends with the error of the reference it stops at. -/
theorem run_of_gets {parseMeta : Meta} {tree : Parse} {site : Site} {report : Report}
    (hg : Gets files opts engine parseMeta tree site)
    (h : ∃ tr, Evals (S := sig) (body files opts engine)
      (action files opts engine parseMeta site) tr (site.bad report)) :
    ∃ tr, Evals (S := sig) (body files opts engine) (run files opts engine parseMeta tree) tr
      (.error (engine.bad site.errorToken report.1 report.2)) := by
  induction hg with
  | here =>
    obtain ⟨tr, h⟩ := h
    rw [run, Resolver.run]
    exact ⟨_, evals_bind.mpr ⟨_, _, _, rfl, h, .ret _⟩⟩
  | later hs _ ih =>
    obtain ⟨tr', h'⟩ := ih h
    rw [run, Resolver.run]
    exact ⟨_, evals_bind.mpr ⟨_, _, _, rfl, hs, h'⟩⟩

theorem Fails.code_ne_nil {pathStr : Str} {parseMeta : Meta} {report : Report}
    (h : Fails files opts pathStr parseMeta report) : report.1 ≠ [] := by
  cases h with
  | missing => exact List.cons_ne_nil _ _
  | cycle => exact List.cons_ne_nil _ _

/-! ## What the top level gets -/

/-- An error carries the code of a report, its path, and its search list or its loop. -/
def Carries (err : Failure) (report : Report) : Prop :=
  err.code = report.1 ∧ ∀ key ∈ ["path".toList, "searchstr".toList, "loop".toList],
    err.details.get key = Entries.get key report.2

/-- A report has a search list or a loop besides its path. -/
theorem Fails.has_more {pathStr : Str} {parseMeta : Meta} {report : Report}
    (h : Fails files opts pathStr parseMeta report) :
    ∃ key ∈ ["searchstr".toList, "loop".toList], (Entries.get key report.2).isSome = true := by
  cases h with
  | missing => exact ⟨"searchstr".toList, by simp, rfl⟩
  | cycle => exact ⟨"loop".toList, by simp, rfl⟩

/-- A parse that a reference stops ends with its code: with its details if the reference stands in
the text itself, else with no more than a path. -/
theorem raised {c : Call} {n : ℕ} {report : Report} (h : Innermost files opts engine c n report) :
    ∃ err, (∃ tr, Evals (S := sig) (body files opts engine) (body files opts engine c) tr
        (.error err)) ∧ err.code = report.1 ∧ report.1 ≠ [] ∧
      (∃ key ∈ ["searchstr".toList, "loop".toList], (Entries.get key report.2).isSome = true) ∧
      ((n = 0 ∧ err.details = report.2) ∨
        n ≠ 0 ∧ ∃ pathStr, err.details = [("path".toList, pathStr)]) := by
  induction h with
  | fails hg hfails =>
    refine ⟨_, run_of_gets hg ⟨[], ?_⟩, engine.bad_code .., hfails.code_ne_nil, hfails.has_more,
      .inl ⟨rfl, engine.bad_details ..⟩⟩
    rw [action_of_fails hfails]
    exact .ret _
  | @nested c site n report hg hf hm hk hs _ ih =>
    obtain ⟨err, ⟨tr, he⟩, hcode, hne, hmore, -⟩ := ih
    have hreport : (nestedReport (site.reference engine) err).1 = report.1 := by
      unfold nestedReport
      rw [hcode, if_neg hne]
    refine ⟨_, run_of_gets hg (action_of_nested rfl hf hm hk hs he), ?_, hne, hmore,
      .inr ⟨Nat.succ_ne_zero n, _, engine.bad_details ..⟩⟩
    rw [engine.bad_code, hreport]

theorem not_carries {err : Failure} {report : Report} {pathStr : Str}
    (hd : err.details = [("path".toList, pathStr)])
    (h : ∃ key ∈ ["searchstr".toList, "loop".toList], (Entries.get key report.2).isSome = true) :
    ¬ Carries err report := by
  rintro ⟨-, hc⟩
  obtain ⟨key, hk, hs⟩ := h
  rw [← hc key (List.mem_cons_of_mem _ hk), hd] at hs
  simp only [List.mem_cons, List.not_mem_nil, or_false] at hk
  rcases hk with rfl | rfl
  · cases hs
  · cases hs

/-- Every response to the plugin is the same. -/
theorem subsingleton_resp (o : Op) : Subsingleton o.Resp := by
  cases o
  exact inferInstanceAs (Subsingleton Unit)

/-- A document stopped by a reference any number of loads further in ends with an error that has the
code of that reference, and it carries the path and the search list or loop exactly if the reference
stands in the document itself. -/
theorem innermost_failure_iff (files : Entries Str) (opts : Options) (engine : Engine) (c : Call)
    (n : ℕ) (report : Report) (h : Innermost files opts engine c n report) :
    ∃ err, (∃ tr, Evals (S := sig) (body files opts engine) (body files opts engine c) tr
        (.error err)) ∧
      (∀ tr a, Evals (S := sig) (body files opts engine) (body files opts engine c) tr a →
        a = .error err) ∧
      err.code = report.1 ∧ (Carries err report ↔ n = 0) := by
  obtain ⟨err, ⟨tr, he⟩, hcode, -, hmore, hdetails⟩ := raised h
  refine ⟨err, ⟨tr, he⟩, fun tr' a ha => ha.unique subsingleton_resp he, hcode, ?_⟩
  rcases hdetails with ⟨hn, hd⟩ | ⟨hn, pathStr, hd⟩
  · exact iff_of_true ⟨hcode, fun key _ => by rw [hd]⟩ hn
  · exact iff_of_false (not_carries hd hmore) hn

/-! ## A small engine -/

/-- A source is a reference after a mark, or text. -/
def parseAlone : Str → Parse
  | '@' :: reference =>
    .act ⟨none, some ⟨"@".toList, 0⟩, .string reference, rfl⟩ fun
      | .splice value => .done (.ok value)
      | .node value => .done (.ok value)
  | src => .done (.ok (.string src))

/-- The engine of that language. -/
def aloneEngine : Engine where
  parse src _ := parseAlone src
  bad _ code details := ⟨code, details⟩
  float := ⟨fun _ => ⟨[], 0⟩, fun _ _ => ⟨[], 0⟩⟩
  format := ⟨fun _ => [], fun _ => []⟩
  bad_code _ _ _ := rfl
  bad_details _ _ _ := rfl

/-- A source that refers to one that is not there. -/
def dangling : Entries Str := [("a.jsonic".toList, "@gone".toList)]

/-- What that reference reports. -/
def goneReport : Report :=
  (NOT_FOUND, [("path".toList, "gone".toList), ("full".toList, "gone".toList),
    ("searchstr".toList, "gone".toList)])

theorem dangling_innermost :
    Innermost dangling ⟨[], []⟩ aloneEngine ⟨"@a.jsonic".toList, []⟩ 1 goneReport := by
  refine .nested .here rfl (by decide) rfl (by decide) (.fails .here ?_)
  exact .missing rfl

theorem innermost_failure_dangling :
    ∃ err, (∃ tr, Evals (S := sig) (body dangling ⟨[], []⟩ aloneEngine)
        (body dangling ⟨[], []⟩ aloneEngine ⟨"@a.jsonic".toList, []⟩) tr (.error err)) ∧
      (∀ tr a, Evals (S := sig) (body dangling ⟨[], []⟩ aloneEngine)
        (body dangling ⟨[], []⟩ aloneEngine ⟨"@a.jsonic".toList, []⟩) tr a → a = .error err) ∧
      err.code = goneReport.1 ∧ (Carries err goneReport ↔ 1 = 0) :=
  innermost_failure_iff dangling ⟨[], []⟩ aloneEngine ⟨"@a.jsonic".toList, []⟩ 1 goneReport
    dangling_innermost

/-- The path that is missing, and where it was looked for, do not get to the top. -/
theorem nested_failure_loses_details :
    ∃ tr err, Evals (S := sig) (body dangling ⟨[], []⟩ aloneEngine)
        (body dangling ⟨[], []⟩ aloneEngine ⟨"@a.jsonic".toList, []⟩) tr (.error err) ∧
      ¬ Carries err goneReport := by
  obtain ⟨err, ⟨tr, he⟩, -, -, hmore, ⟨hn, -⟩ | ⟨-, pathStr, hd⟩⟩ := raised dangling_innermost
  · cases hn
  · exact ⟨tr, err, he, not_carries hd hmore⟩

end MultiSource.Go
