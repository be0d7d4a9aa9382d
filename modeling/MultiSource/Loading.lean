import MultiSource.Graph
import MultiSource.Lib.Inclusion

/-!
# What a document loads

A source set, read by an engine that looks at nothing but the text, is a library of texts that
include each other, and a parse is a depth-first load of them, as long as the cap and the threads
last.
-/

namespace MultiSource

open Inclusion Inclusion.Library

/-- A parse as a text: its references, and what the action does with a value. -/
def Parse.text (float : ExpFormat) : Parse → Text (Option Str) Value OwnError
  | .done result => .done result
  | .act site next =>
    .refer (referenceOf float site.body) fun v => (next (site.effect v)).text float

/-- The sources of a set as texts that include each other. What is not parsed is a value
already. -/
def SourceSet.library (S : SourceSet) (float : ExpFormat) (tree : Str → Parse) :
    Library Str (Option Str) Value OwnError where
  text full :=
    let src := (S.text full).getD []
    if isParsed full then (tree src).text float else .done (.ok (.string src))
  names path reference := S.names reference path

/-- The code a fault is reported with inside a load. -/
def Coded : Library.Fault Str (Option Str) OwnError → Str → Prop
  | .own .., code => code ≠ NOT_FOUND ∧ code ≠ CYCLE ∧ code ≠ DEPTH
  | .missing .., code => code = NOT_FOUND
  | .cycle .., code => code = CYCLE

/-- An outcome tells a load: a value is that value, and a fault an error or a report of its
kind. -/
inductive Tells : Except (Library.Fault Str (Option Str) OwnError) Value → Outcome → Prop
  | value (v : Value) : Tells (.ok v) (.value v)
  | own (path : Option Str) (e : OwnError) : Tells (.error (.own path e)) (.own e)
  | raised {f : Library.Fault Str (Option Str) OwnError} {report : Report} : Coded f report.1 →
      Tells (.error f) (.raised report)

/-- An outcome that is up to the cap or to a thread that was refused. -/
inductive Limited (refused : Str → Prop) : Outcome → Prop
  | depth {report : Report} : report.1 = DEPTH → Limited refused (.raised report)
  | thread {report : Report} {reason : Str} : refused reason → report.1 = "internal".toList →
      Limited refused (.raised report)

section Loads

variable {S : SourceSet} {float : ExpFormat} {tree : Str → Parse}

/-- A task as a load of the library. -/
def Does (S : SourceSet) (float : ExpFormat) (tree : Str → Parse) (chain : List Str)
    (path : Option Str) :
    Task → List (Option Str × Str) → Except (Library.Fault Str (Option Str) OwnError) Value → Prop
  | .source rest, es, o => (S.library float tree).Loads chain (path, rest.text float) es o
  | .reference site, es, o =>
    (S.library float tree).Visits chain path (referenceOf float site.body) es o

theorem library_place_unparsed {full src : Str} (ht : S.text full = some src)
    (hp : isParsed full = false) :
    (S.library float tree).place full = (some full, .done (.ok (.string src))) := by
  simp [place, SourceSet.library, hp, ht]

theorem library_place_parsed {full src : Str} (ht : S.text full = some src)
    (hp : isParsed full = true) :
    (S.library float tree).place full = (some full, (tree src).text float) := by
  simp [place, SourceSet.library, hp, ht]

theorem Tells.carry {o : Except (Library.Fault Str (Option Str) OwnError) Value} {o' : Outcome}
    (h : Tells o o') (full : Str) : Tells o (carry full o') := by
  cases h with
  | value v => exact .value v
  | own path e => exact .raised (codeOf_own e)
  | raised hcode => exact .raised hcode

theorem Limited.carry {refused : Str → Prop} {o : Outcome} (h : Limited refused o) (full : Str) :
    Limited refused (carry full o) := by
  cases h with
  | depth h => exact .depth h
  | thread hr h => exact .thread hr h

/-- A parse is a load, or it comes to its limits. -/
theorem Comes.loads {maxDepth : ℕ} {refused : Str → Prop} {path : Option Str} {chain : List Str}
    {task : Task} {o : Outcome} (h : Comes S float tree maxDepth refused path chain task o) :
    Limited refused o ∨ ∃ es o', Does S float tree chain path task es o' ∧ Tells o' o := by
  induction h with
  | value => exact .inr ⟨_, _, .value, .value _⟩
  | own => exact .inr ⟨_, _, .own, .own ..⟩
  | next _ _ ih ih' =>
    rcases ih with hl | ⟨es, o', hv, ho⟩
    · cases hl
    · rcases ih' with hl | ⟨es', o'', hrest, ho'⟩
      · exact .inl hl
      · cases ho with
        | value v => exact .inr ⟨_, _, hv.next hrest, ho'⟩
  | stop _ ih =>
    rcases ih with hl | ⟨es, o', hv, ho⟩
    · exact .inl hl
    · cases ho with
      | raised hcode => exact .inr ⟨_, _, hv.stop _, .raised hcode⟩
  | missing hn => exact .inr ⟨_, _, .missing hn, .raised rfl⟩
  | refused hn hcheck =>
    rcases chainReport_eq_some hcheck with ⟨before, after, rfl, -, rfl⟩ | ⟨-, -, rfl⟩
    · exact .inr ⟨_, _, .cycle hn (by simp), .raised rfl⟩
    · exact .inl (.depth rfl)
  | @text path chain site full src hn hcheck ht hp =>
    have hload : (S.library float tree).Loads (chain ++ [full])
        ((S.library float tree).place full) [] (.ok (.string src)) :=
      library_place_unparsed ht hp ▸ .value
    exact .inr ⟨_, _, .load hn (chainReport_eq_none hcheck).1 hload, .value _⟩
  | noThread _ _ _ hr => exact .inl (.thread hr rfl)
  | @nested path chain site full src o o' hn hcheck ht hp _ ho ih =>
    subst ho
    rcases ih with hl | ⟨es, o'', hload, ho⟩
    · exact .inl (hl.carry full)
    · change (S.library float tree).Loads _ (some full, (tree src).text float) es o'' at hload
      rw [← library_place_parsed ht hp] at hload
      exact .inr ⟨_, _, .load hn (chainReport_eq_none hcheck).1 hload, ho.carry full⟩

end Loads

end MultiSource
