import MultiSource.Ledger

/-!
# One resolver for another

A parse asks its resolver under the metadata it was given and under what it builds from it. Two
resolvers that agree there cannot be told apart by a run.
-/

namespace MultiSource

open Interaction

variable {I : Type} {options : MultiSourceOptions}

/-- The world with another resolver. -/
def World.resolvedBy (W : World I) (resolve : Option Str → Value → Resolution) : World I :=
  { W with resolves := fun reference parseMeta r => r = resolve reference parseMeta }

/-- Two resolvers agree under some metadata, which includes that of the sources they find. -/
structure Agreeing (resolve resolve' : Option Str → Value → Resolution) (under : Value → Prop) :
    Prop where
  same : ∀ reference parseMeta, under parseMeta →
    resolve reference parseMeta = resolve' reference parseMeta
  child : ∀ reference parseMeta, under parseMeta →
    (resolve reference parseMeta).found = true → ∀ parents dive ticket,
      under (childMeta parseMeta (resolve reference parseMeta) parents dive ticket)

section Alike

variable {resolve resolve' : Option Str → Value → Resolution} {under : Value → Prop} {W : World I}

theorem handles_resolvedBy {o : Op I} (h : ∀ reference parseMeta, o ≠ .resolve reference parseMeta)
    {s s' : Shared I} {r : o.Resp} (hr : Handles (W.resolvedBy resolve) s o r s') :
    Handles (W.resolvedBy resolve') s o r s' := by
  cases hr with
  | resolve _ => exact absurd rfl (h _ _)
  | process hp => exact .process hp
  | spawn hs => exact .spawn hs
  | publish => exact .publish
  | getParser => exact .getParser
  | ticket => exact .ticket
  | record => exact .record
  | take => exact .take
  | discard => exact .discard
  | depend wen => exact .depend wen

/-- A program that both worlds run alike. -/
abbrev RunsAlike (W : World I) (resolve resolve' : Option Str → Value → Resolution)
    (under : Value → Prop) {α : Type} (p : Program I α) : Prop :=
  Alike (S := sig I) (Handles (W.resolvedBy resolve)) (Handles (W.resolvedBy resolve'))
    (fun c => under c.parseMeta) p

theorem alike_ask {o : Op I} (h : ∀ reference parseMeta, o ≠ .resolve reference parseMeta) :
    RunsAlike W resolve resolve' under (ask o) :=
  ⟨fun _ _ _ => ⟨handles_resolvedBy h, handles_resolvedBy h⟩, fun _ _ => trivial⟩

theorem alike_fail (parseMeta : Value) (site : Site) (report : Report) :
    RunsAlike W resolve resolve' under (fail parseMeta site report) := by
  refine Alike.bind ?_ fun _ => trivial
  unfold recordReport
  split
  · exact alike_ask (by simp)
  · trivial

theorem alike_finish (parseMeta : Value) (site : Site) (fullpath ticket : Str)
    (resolution : Resolution) :
    RunsAlike W resolve resolve' under (finish parseMeta site fullpath ticket resolution) := by
  unfold finish
  split
  · exact (alike_ask (by simp)).bind fun _ => alike_fail ..
  · exact (alike_ask (by simp)).bind fun _ => trivial

theorem alike_process {parseMeta : Value} (hm : under parseMeta) (resolution : Resolution)
    (parser : I) (depth : ℕ) :
    RunsAlike W resolve resolve' under (process options resolution parseMeta parser depth) := by
  unfold process
  split
  · trivial
  · trivial
  · unfold jsonicProcessor
    split
    · refine ⟨hm, fun answer => ?_⟩
      cases answer with
      | ok value => trivial
      | error error => trivial
    · trivial
  · exact alike_ask (by simp)

theorem alike_load {parseMeta : Value} {resolution : Resolution}
    (hchild : ∀ parents dive ticket, under (childMeta parseMeta resolution parents dive ticket))
    (site : Site) (fullpath : Str) :
    RunsAlike W resolve resolve' under (load options parseMeta site resolution fullpath) := by
  refine Alike.bind ?_ fun _ => ?_
  · unfold recordEdge
    split_ifs
    · exact alike_ask (by simp)
    · trivial
  · refine (alike_ask (by simp)).bind fun ticket => (alike_ask (by simp)).bind fun parser => ?_
    cases parser with
    | none => trivial
    | some parser =>
      exact (alike_process (hchild _ _ _) _ _ _).bind fun _ => alike_finish ..

/-- The one step that tells the worlds apart asks under the metadata of the parse. -/
theorem alike_directiveAction (h : Agreeing resolve resolve' under) {parseMeta : Value}
    (hm : under parseMeta) (float : ExpFormat) (site : Site) :
    RunsAlike W resolve resolve' under (directiveAction options float parseMeta site) := by
  unfold directiveAction
  rw [ask_bind]
  refine ⟨fun s r s' => ?_, fun r hr => ?_⟩
  · have hsame := h.same (referenceOf float site.body) parseMeta hm
    constructor
    · rintro ⟨rfl⟩
      exact .resolve hsame
    · rintro ⟨rfl⟩
      exact .resolve hsame.symm
  · obtain ⟨s, s', hr⟩ := hr
    cases hr with
    | resolve hr =>
      obtain rfl := hr
      dsimp only
      split_ifs with hf
      · split
        · exact alike_fail ..
        · exact alike_load (h.child _ _ hm hf) _ _
      · exact alike_fail ..

variable (engine : Engine I options.markchar)

theorem alike_run (h : Agreeing resolve resolve' under) {parseMeta : Value} (hm : under parseMeta)
    (tree : Parse) : RunsAlike W resolve resolve' under (run engine parseMeta tree) := by
  induction tree with
  | done result =>
    cases result with
    | ok value => trivial
    | error error => trivial
  | act site next ih =>
    rw [run]
    refine (alike_directiveAction h hm _ site).bind fun result => ?_
    cases result with
    | applied effect => exact ih effect
    | bad token code details => trivial
    | error code message => trivial

theorem alike_parseWithMeta (h : Agreeing resolve resolve' under) {parseMeta : Value}
    (hm : under parseMeta) (parser : I) (src : Str) :
    RunsAlike W resolve resolve' under (parseWithMeta engine parser src parseMeta) := by
  refine Alike.bind ?_ fun _ => alike_run engine h hm _
  unfold prepare
  split_ifs
  · exact alike_ask (by simp)
  · trivial

theorem alike_body (h : Agreeing resolve resolve' under) (c : Call I) (hc : under c.parseMeta) :
    RunsAlike W resolve resolve' under (body engine c) := by
  cases c with
  | parse parser src parseMeta => exact alike_parseWithMeta engine h hc parser src
  | nested parser src parseMeta depth =>
    show RunsAlike W resolve resolve' under (parseNested engine parser src parseMeta depth)
    unfold parseNested
    split_ifs
    · refine (alike_ask (by simp)).bind fun refused => ?_
      cases refused with
      | some reason => trivial
      | none => exact alike_parseWithMeta engine h hc parser src
    · exact alike_parseWithMeta engine h hc parser src

/-- Agreeing resolvers make the same runs of a parse. -/
theorem Agreeing.exec_iff (h : Agreeing resolve resolve' under) (W : World I) {c : Call I}
    (hc : under c.parseMeta) {s s' : Shared I} {answer : Except TabnasError Value} :
    Exec (S := sig I) (Handles (W.resolvedBy resolve)) (body engine) s (body engine c) answer s' ↔
      Exec (S := sig I) (Handles (W.resolvedBy resolve')) (body engine) s (body engine c) answer
        s' :=
  Alike.exec_iff (alike_body engine h) (alike_body engine h c hc)

end Alike

end MultiSource
