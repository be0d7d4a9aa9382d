import MultiSource.Meta
import MultiSource.Vfs

/-!
# Options

The configuration of one installation of the plugin, less its resolver.
-/

namespace MultiSource

/-- The two processors of the default table, and the ones a caller registers. -/
inductive Processor : Type
  | raw
  | jsonic
  | custom (id : ℕ)
  deriving DecidableEq

/-- How one source kind becomes a value: a processor, or another kind's processor by name. -/
inductive ProcessorEntry : Type
  | call (processor : Processor)
  | alias (kind : Str)
  deriving DecidableEq

structure MultiSourceOptions where
  path : Str
  markchar : Str
  processor : Entries ProcessorEntry
  implicitExt : List Str
  fs : Option SourceFs
  /-- Whether the caller gave a sink for dependencies. -/
  deps : Bool
  maxDepth : ℕ

/-- What a resolver is given: the options and the metadata of the enclosing source. -/
structure ResolverInput where
  options : MultiSourceOptions
  parseMeta : Value

def DEFAULT_MARKCHAR : Str := "@".toList

def DEFAULT_MAX_DEPTH : ℕ := 64

def defaultProcessors : Entries ProcessorEntry :=
  [(NONE, .call .raw), ("jsonic".toList, .call .jsonic), ("jsc".toList, .alias "jsonic".toList)]

def defaultImplicitExt : List Str := [".jsonic".toList, ".jsc".toList, ".json".toList]

namespace MultiSourceOptions

def new : MultiSourceOptions where
  path := []
  markchar := DEFAULT_MARKCHAR
  processor := defaultProcessors
  implicitExt := defaultImplicitExt
  fs := none
  deps := false
  maxDepth := DEFAULT_MAX_DEPTH

/-- Fill in what the plugin would otherwise have to guess at parse time. -/
def normalize (options : MultiSourceOptions) : MultiSourceOptions :=
  { options with
    markchar := if options.markchar = [] then DEFAULT_MARKCHAR else options.markchar
    implicitExt := options.implicitExt.map fun ext =>
      if ext.head? = some '.' then ext else '.' :: ext
    maxDepth := if options.maxDepth = 0 then DEFAULT_MAX_DEPTH else options.maxDepth }

/-- The processor for `kind`: one level of aliasing, then the fallback entry. -/
def processorFor (options : MultiSourceOptions) (kind : Str) : Option Processor :=
  let fallback := match options.processor.get NONE with
    | some (.call processor) => some processor
    | _ => none
  match options.processor.get kind with
  | some (.call processor) => some processor
  | some (.alias target) =>
    match options.processor.get target with
    | some (.call processor) => some processor
    | _ => fallback
  | none => fallback

/-- With the default table, a `jsonic` or `jsc` source is parsed again and any other is text. -/
theorem processorFor_default {options : MultiSourceOptions}
    (h : options.processor = defaultProcessors) (kind : Str) :
    options.processorFor kind =
      if kind = "jsonic".toList ∨ kind = "jsc".toList then some .jsonic else some .raw := by
  unfold processorFor
  rw [h]
  by_cases h₁ : kind = "jsonic".toList
  · subst h₁
    rfl
  · by_cases h₂ : kind = "jsc".toList
    · subst h₂
      rfl
    · rw [if_neg (by tauto)]
      by_cases h₃ : kind = NONE
      · subst h₃
        rfl
      · have hn : Entries.get kind defaultProcessors = none := by
          rw [defaultProcessors, Entries.get, if_neg (Ne.symm h₃), Entries.get,
            if_neg (Ne.symm h₁), Entries.get, if_neg (Ne.symm h₂), Entries.get]
        rw [hn]
        rfl

end MultiSourceOptions

end MultiSource
