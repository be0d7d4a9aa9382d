import MultiSource.Engine
import MultiSource.Lib.Program

/-!
# The directive action

The plugin's side of a parse as programs. They ask the outside for resolutions, custom processors
and threads, and the installation for its shared cells: the published parser, the report slots with
their ticket counter, and the dependency sink.
-/

namespace MultiSource

open Interaction

/-- The top of the dependency tree, no path. -/
def TOP : Str := Char.ofNat 0 :: "TOP".toList

/-- How many levels of nesting share one stack. -/
def SEGMENT : ℕ := 2

/-- One record that `tar` pulled in `src`. -/
structure Dependency where
  tar : Str
  src : Str
  wen : ℕ

variable {I : Type}

/-- What a parse asks for. `process` runs a custom processor, `spawn` answers with a reason when
there is no thread. -/
inductive Op (I : Type) : Type
  | resolve (reference : Option Str) (parseMeta : Value)
  | process (id : ℕ) (resolution : Resolution) (parseMeta : Value) (parser : I) (depth : ℕ)
  | spawn
  | publish (parser : I)
  | getParser
  | ticket
  | record (ticket : Str) (report : Report)
  | take (ticket code : Str)
  | discard (ticket : Str)
  | depend (tar src : Str)

@[reducible] def Op.Resp : Op I → Type
  | .resolve .. => Resolution
  | .process .. => Resolution
  | .spawn => Option Str
  | .getParser => Option I
  | .ticket => Str
  | .take .. => Option Details
  | .publish _ | .record .. | .discard _ | .depend .. => Unit

/-- `parse_with_meta` of an instance, and `parse_nested`. -/
inductive Call (I : Type) : Type
  | parse (parser : I) (src : Str) (parseMeta : Value)
  | nested (parser : I) (src : Str) (parseMeta : Value) (depth : ℕ)

abbrev sig (I : Type) : Sig where
  Op := Op I
  Resp := Op.Resp
  Call := Call I
  Ans := Except TabnasError Value

abbrev Program (I : Type) (α : Type) : Type := Prog (sig I) α

def ask (o : Op I) : Program I o.Resp := .op o .ret

def invoke (c : Call I) : Program I (Except TabnasError Value) := .call c .ret

@[simp] theorem ask_bind {α : Type} (o : Op I) (f : o.Resp → Program I α) :
    (ask o >>= f) = .op o f := rfl

@[simp] theorem invoke_bind {α : Type} (c : Call I)
    (f : Except TabnasError Value → Program I α) : (invoke c >>= f) = .call c f := rfl

/-- How an action ends: it did something to the parse, marked a token bad, or failed. -/
inductive ActionResult : Type
  | applied (effect : Effect)
  | bad (token : Token) (code : Str) (details : Details)
  | error (code message : Str)

/-! ## Reports -/

def notFoundReport (reference : Option Str) (resolution : Resolution) : Report :=
  let search :=
    if resolution.search = [] then resolution.spec.full.toList else resolution.search
  let named := (resolution.spec.path <|> reference).getD []
  (NOT_FOUND,
    [("path".toList, .string named),
      ("full".toList, .string (resolution.spec.full.getD [])),
      ("searchstr".toList, .string (Segments.joined '\n' search))])

/-- The members of a loop, as the report spells it. -/
def loopText (members : List Str) : Str := (members.intersperse " -> ".toList).flatten

def cycleReport (members : List Str) (fullpath : Str) : Report :=
  (CYCLE, [("path".toList, .string fullpath), ("loop".toList, .string (loopText members))])

def depthReport (maxDepth : ℕ) (fullpath : Str) : Report :=
  (DEPTH,
    [("path".toList, .string fullpath), ("max".toList, .number (F64.ofUsize maxDepth))])

/-- The report a nested parse left behind, or a summary of its error. -/
def summary (fullpath : Str) (error : TabnasError) : Details :=
  [("path".toList, .string fullpath), ("searchstr".toList, .string error.detail)]

/-- The code a failed load is re-raised with. -/
def codeOf (error : TabnasError) : Str :=
  if error.code = [] then "unexpected".toList else error.code

/-- The cycle check, then the depth check. -/
def chainReport (maxDepth : ℕ) (parents : List Str) (fullpath : Str) : Option Report :=
  match parents.findIdx? (· = fullpath) with
  | some index => some (cycleReport (parents.drop index ++ [fullpath]) fullpath)
  | none => if maxDepth ≤ parents.length then some (depthReport maxDepth fullpath) else none

theorem chainReport_eq_none {maxDepth : ℕ} {parents : List Str} {fullpath : Str}
    (h : chainReport maxDepth parents fullpath = none) :
    fullpath ∉ parents ∧ parents.length < maxDepth := by
  unfold chainReport at h
  split at h
  · exact absurd h (by simp)
  · rename_i hi
    split_ifs at h with hd
    refine ⟨fun hm => ?_, by omega⟩
    simpa using List.findIdx?_eq_none_iff.mp hi fullpath hm

/-- A source is refused for the loop from where it stands in the chain, or at the cap. -/
theorem chainReport_eq_some {maxDepth : ℕ} {parents : List Str} {fullpath : Str} {report : Report}
    (h : chainReport maxDepth parents fullpath = some report) :
    (∃ before after, parents = before ++ fullpath :: after ∧ fullpath ∉ before ∧
      report = cycleReport (fullpath :: after ++ [fullpath]) fullpath) ∨
    fullpath ∉ parents ∧ maxDepth ≤ parents.length ∧ report = depthReport maxDepth fullpath := by
  unfold chainReport at h
  split at h
  · rename_i index hi
    obtain rfl := Option.some.inj h
    obtain ⟨hlt, heq, hbefore⟩ := List.findIdx?_eq_some_iff_getElem.mp hi
    have hdrop : parents.drop index = fullpath :: parents.drop (index + 1) := by
      rw [← List.getElem_cons_drop hlt, of_decide_eq_true heq]
    refine .inl ⟨parents.take index, parents.drop (index + 1), ?_, fun hm => ?_, by rw [hdrop]⟩
    · rw [← hdrop, List.take_append_drop]
    · obtain ⟨j, hj, he⟩ := List.mem_take_iff_getElem.mp hm
      exact absurd (decide_eq_true he) (hbefore j (by omega))
  · rename_i hi
    split_ifs at h with hd
    refine .inr ⟨fun hm => ?_, hd, (Option.some.inj h).symm⟩
    simpa using List.findIdx?_eq_none_iff.mp hi _ hm

/-- Record the report for the load around this parse, if there is one. -/
def recordReport (parseMeta : Value) (report : Report) : Program I Unit :=
  match metaMultisourceString parseMeta REPORT_TICKET with
  | some ticket => ask (.record ticket report)
  | none => pure ()

def fail (parseMeta : Value) (site : Site) (report : Report) : Program I ActionResult := do
  recordReport parseMeta report
  pure (match site.errorToken with
    | some token => .bad token report.1 report.2
    | none => .error report.1 ('[' :: report.1 ++ [']']))

/-! ## Processing -/

/-- The fallback: the source text, as a string. -/
def defaultProcessor (resolution : Resolution) : Resolution :=
  { resolution with
    val := match resolution.src with
      | some src => .string src
      | none => .undefined }

/-- Re-parse the source with the live engine. -/
def jsonicProcessor (resolution : Resolution) (parseMeta : Value) (parser : I) (depth : ℕ) :
    Program I Resolution := do
  match resolution.src, resolution.spec.full with
  | some src, some _ =>
    match ← invoke (.nested parser src parseMeta depth) with
    | .ok value => pure { resolution with val := value }
    | .error error => pure { resolution with val := .string src, err := some error }
  | _, _ => pure resolution

def process (options : MultiSourceOptions) (resolution : Resolution) (parseMeta : Value)
    (parser : I) (depth : ℕ) : Program I Resolution :=
  match options.processorFor resolution.spec.kind with
  | none => pure resolution
  | some .raw => pure (defaultProcessor resolution)
  | some .jsonic => jsonicProcessor resolution parseMeta parser depth
  | some (.custom id) => ask (.process id resolution parseMeta parser depth)

/-! ## The action -/

section Action

variable (options : MultiSourceOptions)

/-- The end of a load: re-raise the error with the report recorded for it, or use the value. -/
def finish (parseMeta : Value) (site : Site) (fullpath ticket : Str) (resolution : Resolution) :
    Program I ActionResult := do
  match resolution.err with
  | some error =>
    let code := codeOf error
    let details : Option Details ← ask (.take ticket code)
    fail parseMeta site (code, details.getD (summary fullpath error))
  | none =>
    ask (.discard ticket)
    pure (.applied (site.effect resolution.val))

/-- Record the edge from the innermost enclosing source, where there is a sink. -/
def recordEdge (parents : List Str) (fullpath : Str) : Program I Unit :=
  if options.deps then ask (.depend (parents.getLast?.getD TOP) fullpath) else pure ()

/-- The load of a source that passed both checks. -/
def load (parseMeta : Value) (site : Site) (resolution : Resolution) (fullpath : Str) :
    Program I ActionResult := do
  let parents := metaChain parseMeta
  recordEdge options parents fullpath
  let ticket : Str ← ask .ticket
  let child := childMeta parseMeta resolution parents site.dive ticket
  let parser : Option I ← ask .getParser
  match parser with
  | none =>
    pure (.error "internal".toList
      "MultiSource: no parser was published for the nested parse".toList)
  | some parser =>
    let resolution ← process options resolution child parser parents.length
    finish parseMeta site fullpath ticket resolution

def directiveAction (float : ExpFormat) (parseMeta : Value) (site : Site) :
    Program I ActionResult := do
  let reference := referenceOf float site.body
  let resolution : Resolution ← ask (.resolve reference parseMeta)
  if resolution.found then
    match chainReport options.maxDepth (metaChain parseMeta) resolution.fullPath with
    | some report => fail parseMeta site report
    | none => load options parseMeta site resolution resolution.fullPath
  else fail parseMeta site (notFoundReport reference resolution)

end Action

/-! ## Parses -/

section Parses

variable {options : MultiSourceOptions} (engine : Engine I options.markchar)

/-- A parse from its first reference on. -/
def run (parseMeta : Value) : Parse → Program I (Except TabnasError Value)
  | .done (.ok value) => pure (.ok value)
  | .done (.error error) => pure (.error error.error)
  | .act site next => do
    match ← directiveAction options engine.float parseMeta site with
    | .applied effect => run parseMeta (next effect)
    | .bad token code details => pure (.error (engine.raise token code details))
    | .error code message => pure (.error (engine.actionError code message))

/-- The hook before a parse publishes the instance for a top-level parse that can hold a
reference. -/
def prepare (markchar : Str) (parser : I) (src : Str) (parseMeta : Value) : Program I Unit :=
  if contains src markchar && !isNestedMeta parseMeta then ask (.publish parser) else pure ()

def parseWithMeta (parser : I) (src : Str) (parseMeta : Value) :
    Program I (Except TabnasError Value) := do
  prepare options.markchar parser src parseMeta
  run engine parseMeta (engine.parse parser src parseMeta)

/-- The error of a segment that got no thread. -/
def spawnError (reason : Str) : TabnasError where
  code := "internal".toList
  detail := "the nested parse could not be given a thread to run on: ".toList ++ reason
  bag := []

def parseNested (parser : I) (src : Str) (parseMeta : Value) (depth : ℕ) :
    Program I (Except TabnasError Value) := do
  if depth % SEGMENT = 1 then
    let refused : Option Str ← ask .spawn
    match refused with
    | some reason => pure (.error (spawnError reason))
    | none => parseWithMeta engine parser src parseMeta
  else parseWithMeta engine parser src parseMeta

def body : Call I → Program I (Except TabnasError Value)
  | .parse parser src parseMeta => parseWithMeta engine parser src parseMeta
  | .nested parser src parseMeta depth => parseNested engine parser src parseMeta depth

end Parses

end MultiSource
