import MultiSource.Engine
import MultiSource.Go.Meta
import MultiSource.Go.Number
import MultiSource.Lib.Program

/-!
# The Go plugin

The directive action of the Go port over a resolver, with the default processors, and its instance
over an in-memory map. A load calls the parser again on the text it found; nothing caps how deep
that goes.
-/

namespace MultiSource.Go

open Interaction

def TOP : Str := Char.ofNat 0 :: "TOP".toList

abbrev Details : Type := Entries Str

/-- A `TabnasError`, by its code and the details it was raised with. -/
structure Failure where
  code : Str
  details : Details

/-- The rule around an action, with the token it opened on. -/
structure Parent where
  name : Str
  o0 : Option Token

/-- What an action sees of its rule and context. An action runs with a token at hand. -/
structure Site where
  parent : Option Parent
  t0 : Option Token
  body : Body
  marked : (parent.bind Parent.o0 <|> t0).isSome = true

/-- The token a failure is reported against. -/
def Site.errorToken (site : Site) : Token :=
  (site.parent.bind Parent.o0 <|> site.t0).get site.marked

/-- A parse by its references in order. -/
inductive Parse : Type
  | done (result : Except Failure Value)
  | act (site : Site) (next : Effect → Parse)

/-- The engine: it runs the action once for each reference, and stops at the first token that is
marked bad. -/
structure Engine where
  parse : Str → Meta → Parse
  bad : Token → Str → Details → Failure
  float : ExpFormat
  format : DefaultFormat
  bad_code : ∀ token code details, (bad token code details).code = code
  bad_details : ∀ token code details, (bad token code details).details = details

/-- A record in the caller's dependency map. -/
inductive Op : Type
  | depend (tar src : Str)

@[reducible] def Op.Resp : Op → Type
  | .depend .. => Unit

/-- `j.ParseMeta`. -/
structure Call where
  src : Str
  parseMeta : Meta

abbrev sig : Sig where
  Op := Op
  Resp := Op.Resp
  Call := Call
  Ans := Except Failure Value

abbrev Program (α : Type) : Type := Prog sig α

/-! ## A load -/

inductive Processor : Type
  | raw
  | jsonic
  deriving DecidableEq

def defaultProcessors : Entries Processor :=
  [(NONE, .raw), ("jsonic".toList, .jsonic), ("jsc".toList, .jsonic)]

def getProcessor (kind : Str) (procmap : Entries Processor) : Processor :=
  (procmap.get kind <|> procmap.get NONE).getD .raw

/-- What `resolveSource` returns: a value, a resolution that found nothing, or an error. -/
inductive Loaded : Type
  | value (val : Value)
  | missing (res : Resolution)
  | cycle (path : Str) (loop : List Str)
  | failed (err : Failure)

/-- Re-parse the source. Empty text has no value. -/
def jsonicProcessor (res : Resolution) (parseMeta : Meta) : Program Loaded :=
  if res.src = [] then .ret (.value .null)
  else .call ⟨res.src, parseMeta⟩ fun
    | .ok val => .ret (.value val)
    | .error err => .ret (.failed err)

def process (res : Resolution) (parseMeta : Meta) : Program Loaded :=
  match getProcessor res.kind defaultProcessors with
  | .raw => .ret (.value (.string res.src))
  | .jsonic => jsonicProcessor res parseMeta

/-- The path a resolution is known by. -/
def fullPath (res : Resolution) : Str :=
  if res.full ≠ [] then res.full else if res.path ≠ [] then res.path else "no-path".toList

/-- The dependency record, from the enclosing source or the top. -/
def recordEdge (parseMeta : Meta) (full : Str) : Program Unit :=
  if metaDeps parseMeta then
    let cur := metaSourcePath parseMeta
    .op (.depend (if cur = [] then TOP else cur) full) fun _ => .ret ()
  else .ret ()

def Resolver.resolveSource (resolver : Resolver) (opts : Options) (pathStr : Str)
    (parseMeta : Meta) : Program Loaded :=
  let res := resolver.resolve opts pathStr parseMeta
  if res.found then
    let parents := metaChain parseMeta
    match parents.findIdx? (· = fullPath res) with
    | some i => .ret (.cycle (fullPath res) (parents.drop i ++ [fullPath res]))
    | none => do
      recordEdge parseMeta (fullPath res)
      process res (childMeta parseMeta res)
  else .ret (.missing res)

/-! ## The action -/

def NOT_FOUND : Str := "multisource_not_found".toList
def CYCLE : Str := "multisource_cycle".toList

/-- How an action ends: it did something to the parse, or marked a token bad. -/
inductive ActionResult : Type
  | applied (effect : Effect)
  | bad (token : Token) (code : Str) (details : Details)

/-- A code with its details. -/
abbrev Report : Type := Str × Details

def missingReport (pathStr : Str) (missing : Resolution) : Report :=
  let search :=
    if missing.search = [] ∧ missing.full ≠ [] then [missing.full] else missing.search
  (NOT_FOUND,
    [("path".toList, if missing.path = [] then pathStr else missing.path),
      ("full".toList, missing.full),
      ("searchstr".toList, Segments.joined '\n' search)])

def cycleReport (path : Str) (loop : List Str) : Report :=
  (CYCLE,
    [("path".toList, path), ("loop".toList, (loop.intersperse " -> ".toList).flatten)])

/-- What a failed load is reported as: its code, with the path of the reference that loaded it. -/
def nestedReport (pathStr : Str) (err : Failure) : Report :=
  (if err.code = [] then "unexpected".toList else err.code, [("path".toList, pathStr)])

def Site.effect (site : Site) (val : Value) : Effect :=
  if (site.parent.map Parent.name).getD [] = "pair".toList then .splice val else .node val

def Site.bad (site : Site) (report : Report) : ActionResult :=
  .bad site.errorToken report.1 report.2

/-- How the action answers to a load. -/
def conclude (site : Site) (pathStr : Str) : Loaded → ActionResult
  | .cycle path loop => site.bad (cycleReport path loop)
  | .failed err => site.bad (nestedReport pathStr err)
  | .missing res => site.bad (missingReport pathStr res)
  | .value val => .applied (site.effect val)

/-- The reference a site names. -/
def Site.reference (engine : Engine) (site : Site) : Str :=
  pathStr engine.float engine.format site.body

namespace Resolver

variable (resolver : Resolver) (opts : Options) (engine : Engine)

def action (parseMeta : Meta) (site : Site) : Program ActionResult := do
  let loaded ← resolver.resolveSource opts (site.reference engine) parseMeta
  return conclude site (site.reference engine) loaded

/-- A parse from its first reference on. -/
def run (parseMeta : Meta) : Parse → Program (Except Failure Value)
  | .done result => .ret result
  | .act site next => do
    match ← resolver.action opts engine parseMeta site with
    | .applied effect => run parseMeta (next effect)
    | .bad token code details => return .error (engine.bad token code details)

def body (c : Call) : Program (Except Failure Value) :=
  resolver.run opts engine c.parseMeta (engine.parse c.src c.parseMeta)

end Resolver

/-! ## Over a map -/

section Map

variable (files : Entries Str) (opts : Options)

abbrev resolveSource (pathStr : Str) (parseMeta : Meta) : Program Loaded :=
  Resolver.resolveSource (memResolver files) opts pathStr parseMeta

variable (engine : Engine)

abbrev action (parseMeta : Meta) (site : Site) : Program ActionResult :=
  Resolver.action (memResolver files) opts engine parseMeta site

abbrev run (parseMeta : Meta) (parse : Parse) : Program (Except Failure Value) :=
  Resolver.run (memResolver files) opts engine parseMeta parse

abbrev body (c : Call) : Program (Except Failure Value) :=
  Resolver.body (memResolver files) opts engine c

end Map

theorem fullPath_of_ne_nil {res : Resolution} (h : res.full ≠ []) : fullPath res = res.full :=
  if_pos h

end MultiSource.Go
