import MultiSource.Engine
import MultiSource.Lib.Program
import MultiSource.Ts.Mem

/-!
# The canonical plugin

The directive action of the TypeScript, over any resolver that answers by what it is given. A load
parses the text it found in the course of its action, and an exception escapes through every parse
around it.

What the engine's values are is left open: a text is one, and so is what a map inherits.
-/

namespace MultiSource.Ts

open Interaction

/-! ## Metadata -/

/-- `ctx.meta.multisource`. `deps` is whether the caller collects dependencies. -/
structure MultiSourceMeta where
  path : Option Str
  parents : Option (List Str)
  deps : Bool

/-- `ctx.meta`, as far as the plugin reads and writes it. `base` is the path that a nested parse
hands on. -/
structure Meta where
  fs : Option NodeFs
  multisource : Option MultiSourceMeta
  fileName : Option Str
  base : Option (List Str)

/-- `ctx.meta?.multisource || {}` -/
def Meta.msmeta (parseMeta : Meta) : MultiSourceMeta :=
  parseMeta.multisource.getD ⟨none, none, false⟩

/-- What a resolver is given of the metadata. -/
def Meta.ctx (parseMeta : Meta) : Ctx := ⟨parseMeta.fs, parseMeta.msmeta.path⟩

/-- The ancestors of a reference: the inherited ones and the source it stands in. -/
def metaParents (parseMeta : Meta) : List Str :=
  parseMeta.msmeta.parents.getD [] ++ parseMeta.msmeta.path.toList

/-! ## The engine -/

/-- What an action sees of its rule: the name and the token of the rule around it, what the
directive names, and the path dived to. -/
structure Site where
  parentName : Str
  o0 : Token
  spec : Body
  dive : Option (List Str)

/-- What an action did to the parse. -/
inductive Effect (V : Type) : Type
  | splice (val : V)
  | node (val : V)

/-- The details of a token marked bad. -/
inductive Details : Type
  | missing (res : Option (Resolution Property)) (searchstr : Str)
  | cycle (path loop : Str)

def NOT_FOUND : Str := "multisource_not_found".toList
def CYCLE : Str := "multisource_cycle".toList

/-- What escapes from a parse: the error of a token marked bad, an exception of the plugin's or the
resolver's, or one from elsewhere. -/
inductive Escape (E : Type) : Type
  | bad (token : Token) (code : Str) (details : Details)
  | thrown (ex : Thrown)
  | own (e : E)

/-- A parse by its references in order. -/
inductive Parse (V E : Type) : Type
  | done (result : Except E V)
  | act (site : Site) (next : Effect V → Parse V E)

/-- The engine and what is around it: its parses, its values, and the modules of its host. -/
structure Engine (V E : Type) where
  parse : Property → Meta → Parse V E
  undefined : V
  value : Property → V
  evaluate : Option Str → Except E V

/-! ## Processors -/

/-- A processor: one of the plugin's, or a function that an object inherits. -/
inductive Processor : Type
  | default
  | jsonic
  | javaScript
  | inherited (name : Str)
  deriving DecidableEq

/-- What the options map a kind to. -/
inductive ProcRef : Type
  | alias (kind : Str)
  | function (proc : Processor)

def defaultProcessors : Entries ProcRef :=
  [(NONE, .function .default), ("jsonic".toList, .function .jsonic),
    ("jsc".toList, .function .jsonic), ("js".toList, .function .javaScript)]

/-- `procmap[kind]`. Of what an object inherits, all but its prototype are functions. -/
def procref (procmap : Entries ProcRef) (kind : Str) : Option ProcRef :=
  match procmap.get kind with
  | some ref => some ref
  | none =>
    if kind ∈ inheritedNames ∧ kind ≠ "__proto__".toList then some (.function (.inherited kind))
    else none

/-- A processor of a map, none where what it holds cannot be called. -/
def called (procmap : Entries ProcRef) (kind : Str) : Option Processor :=
  match procref procmap kind with
  | some (.function proc) => some proc
  | _ => none

def getProcessor (kind : Str) (procmap : Entries ProcRef) : Option Processor :=
  match procref procmap kind with
  | some (.alias other) => called procmap other
  | some (.function proc) => some proc
  | none => called procmap NONE

/-- An inherited function, called for its effect on a resolution: it has none, or it throws. -/
def callInherited (name : Str) : Except Thrown Unit :=
  if name = "constructor".toList ∨ name = "toString".toList then .ok () else .error .typeError

/-! ## Programs -/

/-- A record in the caller's dependency map. No target is the top. -/
inductive Op : Type
  | depend (tar : Option Str) (src : Str)

@[reducible] def Op.Resp : Op → Type
  | .depend .. => Unit

/-- `tn.parse`. -/
structure Call where
  src : Property
  parseMeta : Meta

abbrev sig (V E : Type) : Sig where
  Op := Op
  Resp := Op.Resp
  Call := Call
  Ans := Except (Escape E) V

abbrev Program (V E α : Type) : Type := Prog (sig V E) α

section Action

variable {V E : Type}

/-- The path a resolution is known by. -/
def fullPath (res : Resolution Property) : Str :=
  (res.full <|> res.path).getD "no-path".toList

/-- The metadata of the parse of what was resolved. -/
def childMeta (parseMeta : Meta) (dive : Option (List Str)) (res : Resolution Property) : Meta where
  fs := parseMeta.fs
  fileName := res.path
  multisource := some {
    path := res.full
    parents := some (metaParents parseMeta)
    deps := parseMeta.msmeta.deps }
  base := dive <|> parseMeta.base

/-- The dependency record, from the enclosing source or the top. -/
def recordEdge (parseMeta : Meta) (fullpath : Str) : Program V E Unit :=
  if parseMeta.msmeta.deps then
    let parent := parseMeta.msmeta.path.filter (· ≠ [])
    .op (.depend parent fullpath) fun _ => .ret ()
  else .ret ()

variable (engine : Engine V E)

def jsonicProcessor (res : Resolution Property) (parseMeta : Meta) :
    Program V E (Except (Escape E) V) :=
  match res.src, res.full with
  | some src, some _ => .call ⟨src, parseMeta⟩ .ret
  | _, _ => .ret (.ok engine.undefined)

/-- Process a resolution: the value it is given. -/
def process (procmap : Entries ProcRef) (res : Resolution Property) (parseMeta : Meta) :
    Program V E (Except (Escape E) V) :=
  match getProcessor res.kind procmap with
  | none => .ret (.error (.thrown .typeError))
  | some .default => .ret (.ok ((res.src.map engine.value).getD engine.undefined))
  | some .jsonic => jsonicProcessor engine res parseMeta
  | some .javaScript => .ret ((engine.evaluate res.full).mapError .own)
  | some (.inherited name) =>
    .ret (((callInherited name).mapError .thrown).map fun _ => engine.undefined)

/-- How an action ends. -/
inductive ActionResult (V E : Type) : Type
  | applied (effect : Effect V)
  | escapes (escape : Escape E)

def Site.effect (site : Site) (val : V) : Effect V :=
  if site.parentName = "pair".toList then .splice val else .node val

def searchstr (res : Option (Resolution Property)) : Str :=
  Segments.joined '\n' ((res.bind (·.search)).getD [(res.bind (·.full)).getD []])

def Site.bad (site : Site) (code : Str) (details : Details) : ActionResult V E :=
  .escapes (.bad site.o0 code details)

def conclude (site : Site) : Except (Escape E) V → ActionResult V E
  | .ok val => .applied (site.effect val)
  | .error escape => .escapes escape

/-- The plugin's options: a resolver and the processors. A resolver may find nothing, or throw. -/
structure PluginOptions where
  resolver : Ctx → Body → Except Thrown (Option (Resolution Property))
  processor : Entries ProcRef

variable (popts : PluginOptions)

/-- A load of what was found. -/
def load (parseMeta : Meta) (site : Site) (res : Resolution Property) :
    Program V E (ActionResult V E) := do
  recordEdge parseMeta (fullPath res)
  let val ← process engine popts.processor res (childMeta parseMeta site.dive res)
  return conclude site val

def multisourceStateAction (parseMeta : Meta) (site : Site) : Program V E (ActionResult V E) :=
  match popts.resolver parseMeta.ctx site.spec with
  | .error ex => .ret (.escapes (.thrown ex))
  | .ok none => .ret (site.bad NOT_FOUND (.missing none (searchstr none)))
  | .ok (some res) =>
    if res.found then
      match (metaParents parseMeta).findIdx? (· = fullPath res) with
      | some i =>
        let loop := (metaParents parseMeta).drop i ++ [fullPath res]
        .ret (site.bad CYCLE
          (.cycle (fullPath res) (loop.intersperse " -> ".toList).flatten))
      | none => load engine popts parseMeta site res
    else .ret (site.bad NOT_FOUND (.missing (some res) (searchstr (some res))))

/-- A parse from its first reference on. -/
def run (parseMeta : Meta) : Parse V E → Program V E (Except (Escape E) V)
  | .done result => .ret (result.mapError .own)
  | .act site next => do
    match ← multisourceStateAction engine popts parseMeta site with
    | .applied effect => run parseMeta (next effect)
    | .escapes escape => return .error escape

def body (c : Call) : Program V E (Except (Escape E) V) :=
  run engine popts c.parseMeta (engine.parse c.src c.parseMeta)

end Action

/-- The plugin over a map. -/
def memPlugin (filemap : Entries Str) (objectText : ObjectText) (popts : Options) :
    PluginOptions where
  resolver ctx spec := (MemResolver.resolve filemap objectText popts.normalize ctx spec).map some
  processor := defaultProcessors

end MultiSource.Ts
