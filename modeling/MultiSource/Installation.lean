import MultiSource.Action
import MultiSource.Resolver
import MultiSource.Lib.Pool

/-!
# One installation of the plugin

Every parse of an installation, on any of its instances and on any thread, shares the cells here.
-/

namespace MultiSource

open Interaction

/-- The records by target, then by source. -/
abbrev DependencyMap : Type := Entries (Entries Dependency)

/-- The record under a target and a source. -/
def DependencyMap.find (deps : DependencyMap) (tar src : Str) : Option Dependency :=
  (deps.get tar).bind (Entries.get src)

/-- A record put into its bucket, which is made if there is none. -/
theorem DependencyMap.find_insert (deps : DependencyMap) (tar src : Str) (dep : Dependency)
    (tar' src' : Str) :
    DependencyMap.find (deps.insert tar (Entries.insert src dep ((deps.get tar).getD [])))
      tar' src' = if tar = tar' ∧ src = src' then some dep else deps.find tar' src' := by
  unfold DependencyMap.find
  rw [Entries.get_insert]
  by_cases ht : tar = tar'
  · subst ht
    rw [if_pos rfl, Option.bind_some, Entries.get_insert]
    by_cases hs : src = src'
    · simp [hs]
    · cases hg : deps.get tar <;> simp [hs]
  · simp [ht]

/-- The cells the hooks of one installation share: the published parser, the ticket counter, the
report slots, and the dependency sink. -/
structure Shared (I : Type) where
  published : Option I
  next : ℕ
  slots : Entries Report
  deps : DependencyMap

/-- What is outside the installation: what the resolver and the custom processors answer, and
whether there are threads. -/
structure World (I : Type) where
  resolves : Option Str → Value → Resolution → Prop
  processes : ℕ → Resolution → Value → I → ℕ → Resolution → Prop
  spawns : Option Str → Prop

/-- The details of a report found in a slot, if it carries the code that came back. -/
def reported (report : Option Report) (code : Str) : Option Details :=
  match report with
  | some (recorded, details) => if recorded = code then some details else none
  | none => none

namespace Shared

variable {I : Type}

def init : Shared I := ⟨none, 0, [], []⟩

def publish (s : Shared I) (parser : I) : Shared I := { s with published := some parser }

/-- `fetch_add` on the counter. It is taken not to wrap. -/
def ticket (s : Shared I) : Str × Shared I := (decimal s.next, { s with next := s.next + 1 })

def record (s : Shared I) (ticket : Str) (report : Report) : Shared I :=
  { s with slots := s.slots.insert ticket report }

/-- The report under `ticket`, if it carries the code that came back. The slot is freed either
way. -/
def take (s : Shared I) (ticket code : Str) : Option Details × Shared I :=
  (reported (s.slots.get ticket) code, { s with slots := s.slots.remove ticket })

def discard (s : Shared I) (ticket : Str) : Shared I :=
  { s with slots := s.slots.remove ticket }

def depend (s : Shared I) (tar src : Str) (wen : ℕ) : Shared I :=
  let records : Entries Dependency := (s.deps.get tar).getD []
  { s with deps := s.deps.insert tar (records.insert src ⟨tar, src, wen⟩) }

theorem find_depend (s : Shared I) (tar src : Str) (wen : ℕ) (tar' src' : Str) :
    (s.depend tar src wen).deps.find tar' src' =
      if tar = tar' ∧ src = src' then some ⟨tar, src, wen⟩ else s.deps.find tar' src' :=
  DependencyMap.find_insert ..

end Shared

/-- How one operation steps the cells. -/
inductive Handles {I : Type} (W : World I) : Handler (sig I) (Shared I)
  | resolve {s : Shared I} {reference : Option Str} {parseMeta : Value} {r : Resolution} :
      W.resolves reference parseMeta r → Handles W s (.resolve reference parseMeta) r s
  | process {s : Shared I} {id : ℕ} {resolution : Resolution} {parseMeta : Value} {parser : I}
      {depth : ℕ} {r : Resolution} : W.processes id resolution parseMeta parser depth r →
      Handles W s (.process id resolution parseMeta parser depth) r s
  | spawn {s : Shared I} {r : Option Str} : W.spawns r → Handles W s .spawn r s
  | publish {s : Shared I} {parser : I} : Handles W s (.publish parser) () (s.publish parser)
  | getParser {s : Shared I} : Handles W s .getParser s.published s
  | ticket {s : Shared I} : Handles W s .ticket s.ticket.1 s.ticket.2
  | record {s : Shared I} {ticket : Str} {report : Report} :
      Handles W s (.record ticket report) () (s.record ticket report)
  | take {s : Shared I} {ticket code : Str} :
      Handles W s (.take ticket code) (s.take ticket code).1 (s.take ticket code).2
  | discard {s : Shared I} {ticket : Str} : Handles W s (.discard ticket) () (s.discard ticket)
  | depend {s : Shared I} {tar src : Str} (wen : ℕ) :
      Handles W s (.depend tar src) () (s.depend tar src wen)

/-- The world of a resolver, where a thread is refused for the reasons in `refused` at most and
custom processors leave their resolution alone. -/
def World.of {I : Type} (resolve : Option Str → Value → Resolution) (refused : Str → Prop) :
    World I where
  resolves reference parseMeta r := r = resolve reference parseMeta
  processes _ resolution _ _ _ r := r = resolution
  spawns r := ∀ reason, r = some reason → refused reason

/-- No thread is refused. -/
abbrev granted : Str → Prop := fun _ => False

/-- The answer to one operation in the world of a resolver, every thread granted. -/
def answer {I : Type} (resolve : Option Str → Value → Resolution) (s : Shared I) :
    (o : Op I) → o.Resp × Shared I
  | .resolve reference parseMeta => (resolve reference parseMeta, s)
  | .process _ resolution _ _ _ => (resolution, s)
  | .spawn => (none, s)
  | .publish parser => ((), s.publish parser)
  | .getParser => (s.published, s)
  | .ticket => s.ticket
  | .record ticket report => ((), s.record ticket report)
  | .take ticket code => s.take ticket code
  | .discard ticket => ((), s.discard ticket)
  | .depend tar src => ((), s.depend tar src 0)

theorem handles_answer {I : Type} (resolve : Option Str → Value → Resolution)
    (refused : Str → Prop) (s : Shared I) (o : Op I) :
    Handles (World.of resolve refused) s o (answer resolve s o).1 (answer resolve s o).2 := by
  cases o with
  | resolve reference parseMeta => exact .resolve rfl
  | process id resolution parseMeta parser depth => exact .process rfl
  | spawn => exact .spawn fun _ h => absurd h (by simp [answer])
  | publish parser => exact .publish
  | getParser => exact .getParser
  | ticket => exact .ticket
  | record ticket report => exact .record
  | take ticket code => exact .take
  | discard ticket => exact .discard
  | depend tar src => exact .depend 0

/-! ## Who may start a parse -/

/-- A top-level parse: its metadata was not built by the plugin. -/
def TopLevel {I : Type} : Call I → Prop
  | .parse _ _ parseMeta =>
    isNestedMeta parseMeta = false ∧ metaMultisourceString parseMeta REPORT_TICKET = none
  | .nested .. => False

/-- A top-level parse without multisource metadata. -/
def Fresh {I : Type} : Call I → Prop
  | .parse _ _ parseMeta => Unmarked parseMeta
  | .nested .. => False

theorem Fresh.topLevel {I : Type} {c : Call I} (h : Fresh c) : TopLevel c := by
  cases c with
  | parse i src m => exact ⟨Unmarked.nested h, Unmarked.ticket h⟩
  | nested i src m d => exact h

/-- What foreign code may call while it runs: a resolver or a processor may start top-level parses,
and a processor may parse sources nested in its load, under metadata that keeps the plugin's
entry. -/
inductive Foreign {I : Type} : Op I → Call I → Prop
  | resolver {reference : Option Str} {parseMeta : Value} {c : Call I} : TopLevel c →
      Foreign (.resolve reference parseMeta) c
  | processor {id : ℕ} {resolution : Resolution} {parseMeta : Value} {parser : I} {depth : ℕ}
      {c : Call I} : TopLevel c → Foreign (.process id resolution parseMeta parser depth) c
  | source {id : ℕ} {resolution : Resolution} {parseMeta childMeta : Value} {parser : I}
      {depth : ℕ} {src : Str} : metaGet childMeta RULE_NAME = metaGet parseMeta RULE_NAME →
      Foreign (.process id resolution parseMeta parser depth) (.nested parser src childMeta depth)

/-- The runs of an installation. -/
def installation {I : Type} {options : MultiSourceOptions} (engine : Engine I options.markchar)
    (W : World I) (foreign : Op I → Call I → Prop) (top : Call I → Prop) :
    System (sig I) (Shared I) where
  body := body engine
  handler := Handles W
  mayCall := foreign
  top := top

/-! ## A small installation -/

/-- One source, with a reference to nothing. -/
def danglingFiles : MapResolver := ⟨[("a.jsonic".toList, "@b".toList)]⟩

def danglingResolve (reference : Option Str) (parseMeta : Value) : Resolution :=
  danglingFiles.resolve reference ⟨MultiSourceOptions.new, parseMeta⟩

abbrev danglingWorld : World Bool := World.of danglingResolve fun _ => False

end MultiSource
