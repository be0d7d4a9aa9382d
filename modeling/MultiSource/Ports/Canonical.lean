import MultiSource.Ports.MemMap
import MultiSource.Ports.Values
import MultiSource.Ts.Loading

/-!
# The value of a document in TypeScript and in Rust

Where both engines read texts alike and both in-memory resolvers find the same for the references a
document leads to, the two plugins come to the same value or fail alike.
-/

namespace MultiSource.Ports

open Interaction Inclusion Inclusion.Library
open Ts (Property inheritedNames)

/-! ## Kinds -/

/-- A kind that names neither the processor of scripts nor a method of every object. -/
def PlainKind (full : Str) : Prop :=
  extKind (some full) ≠ "js".toList ∧ extKind (some full) ∉ inheritedNames

theorem tsProcessor_eq {full : Str} (h : PlainKind full) :
    Ts.getProcessor (Ts.extKind (some full)) Ts.defaultProcessors =
      some (if isParsed full then .jsonic else .default) := by
  obtain ⟨hjs, hinherited⟩ := h
  rw [Ts.extKind_eq]
  unfold Ts.getProcessor Ts.procref Ts.defaultProcessors isParsed
  by_cases h₁ : extKind (some full) = "jsonic".toList
  · rw [h₁]
    rfl
  by_cases h₂ : extKind (some full) = "jsc".toList
  · rw [h₂]
    rfl
  by_cases h₀ : extKind (some full) = NONE
  · rw [h₀]
    rfl
  rw [decide_eq_false h₁, decide_eq_false h₂, Entries.get, if_neg (Ne.symm h₀), Entries.get,
    if_neg (Ne.symm h₁), Entries.get, if_neg (Ne.symm h₂), Entries.get, if_neg (Ne.symm hjs)]
  dsimp only [Entries.get]
  rw [if_neg fun h => hinherited h.1]
  rfl

/-! ## References -/

/-- A body in TypeScript and the reference Rust reads of it. -/
def SameBody (objectText : Ts.ObjectText) (reference : Option Str) (spec : Body) : Prop :=
  Ts.specPath objectText spec = .ok reference

section Names

variable {files : Entries Str} {options : MultiSourceOptions} {objectText : Ts.ObjectText}

/-- The canonical plugin over the map, with the options of the one in Rust. -/
abbrev tsPlugin (files : Entries Str) (objectText : Ts.ObjectText) (options : MultiSourceOptions) :
    Ts.PluginOptions :=
  Ts.memPlugin files objectText ⟨some options.path, options.implicitExt⟩

/-- A resolver sees of a body the path it names. -/
theorem ts_resolve_congr {popts : Ts.Options} {ctx : Ts.Ctx} {spec spec' : Body}
    (h : Ts.specPath objectText spec = Ts.specPath objectText spec') :
    Ts.MemResolver.resolve files objectText popts ctx spec =
      Ts.MemResolver.resolve files objectText popts ctx spec' := by
  have hspec : Ts.resolvePathSpec objectText popts ctx spec
      (Ts.MemResolver.resolvefolder files) =
      Ts.resolvePathSpec objectText popts ctx spec' (Ts.MemResolver.resolvefolder files) := by
    unfold Ts.resolvePathSpec
    rw [h]
  unfold Ts.MemResolver.resolve
  rw [hspec]

theorem tsPlugin_resolver {path : Option Str} {spec : Body} {r : Ts.Resolution Property}
    (h : Ts.MemResolver.resolve files objectText (tsOptions options) ⟨none, path⟩ spec = .ok r) :
    (tsPlugin files objectText options).resolver ⟨none, path⟩ spec = .ok (some r) := by
  show (Ts.MemResolver.resolve files objectText (tsOptions options) ⟨none, path⟩ spec).map some = _
  rw [h]
  rfl

/-- Where both resolvers find the same, a reference names the same source in both ports. -/
theorem ts_names_eq (hnormal : options.normalize = options) {path : Option Str} {reference : Str}
    {spec : Body} (hspec : SameBody objectText (some reference) spec)
    (h : SameFind objectText files options (MultiSource.metaAt path) reference) :
    Ts.namesAt (tsPlugin files objectText options) none path spec =
      ((Store.map ⟨files⟩).sources options).names (some reference) path := by
  obtain ⟨r, hr, hfound, hsame, -⟩ := h
  rw [sourcePath_metaAt] at hr
  rw [hnormal] at hfound hsame
  have hstring : Ts.specPath objectText spec = Ts.specPath objectText (.string reference) := hspec
  rw [← ts_resolve_congr hstring] at hr
  unfold Ts.namesAt SourceSet.names
  rw [tsPlugin_resolver hr]
  dsimp only
  rw [hfound]
  change _ = if ((MapResolver.mk files).resolve (some reference)
      ⟨options, MultiSource.metaAt path⟩).found then _ else none
  split_ifs with hf
  · exact (hsame hf).1
  · rfl

variable (files) in
/-- A body without a path names nothing. -/
theorem ts_resolve_none (popts : Ts.Options) (path : Option Str) {spec : Body}
    (hspec : SameBody objectText none spec) : ∃ r,
      Ts.MemResolver.resolve files objectText popts ⟨none, path⟩ spec = .ok r ∧
        r.found = false := by
  have hstring : Ts.specPath objectText spec = Ts.specPath objectText (.array []) := hspec
  rw [ts_resolve_congr hstring]
  obtain ⟨base, hbase⟩ : ∃ base, Ts.MemResolver.resolvefolder files (path <|> popts.path) =
      .ok base := by
    cases path <|> popts.path with
    | none => exact ⟨_, rfl⟩
    | some raw => exact ⟨_, resolvefolder_eq files raw⟩
  unfold Ts.MemResolver.resolve Ts.resolvePathSpec
  rw [hbase]
  exact ⟨_, rfl, rfl⟩

variable (files options) in
/-- The in-memory resolver throws nothing where the body has a path or none. -/
theorem ts_resolve_ok (path : Option Str) {reference : Option Str} {spec : Body}
    (hspec : SameBody objectText reference spec) :
    ∃ r, (tsPlugin files objectText options).resolver ⟨none, path⟩ spec = .ok (some r) := by
  cases reference with
  | none =>
    obtain ⟨r, hr, -⟩ := ts_resolve_none files (tsOptions options) path hspec
    exact ⟨r, tsPlugin_resolver hr⟩
  | some reference =>
    have hstring : Ts.specPath objectText spec = Ts.specPath objectText (.string reference) := hspec
    obtain ⟨r, hr, -⟩ := ts_resolve objectText files options.path reference
      options.normalize.implicitExt path
    rw [← ts_resolve_congr hstring] at hr
    exact ⟨r, tsPlugin_resolver hr⟩

theorem ts_names_none {path : Option Str} {spec : Body} (hspec : SameBody objectText none spec) :
    Ts.namesAt (tsPlugin files objectText options) none path spec =
      ((Store.map ⟨files⟩).sources options).names none path := by
  obtain ⟨r, hr, hf⟩ := ts_resolve_none files (tsOptions options) path hspec
  unfold Ts.namesAt
  rw [tsPlugin_resolver hr]
  dsimp only
  rw [hf]
  rfl

end Names

/-! ## Both ports on one map -/

/-- Errors of the two engines. -/
def BothOwn {E : Type} (_ : OwnError) (escape : Ts.Escape E) : Prop := ∃ e, escape = .own e

/-- The two plugins with the default processors and the same options over one map, under engines
that read texts alike: with the same references in the same places, going on alike from each value,
and ending alike. No source is a script, or of a kind that names a method. -/
structure CanonicalTwins (I E : Type) where
  options : MultiSourceOptions
  files : Entries Str
  objectText : Ts.ObjectText
  engine : Engine I options.markchar
  tree : Str → Parse
  tsEngine : Ts.Engine Value E
  tsTree : Property → Ts.Parse Value E
  processor_eq : options.processor = defaultProcessors
  normal : options.normalize = options
  textual : Textual engine tree
  tsTextual : Ts.Textual tsEngine tsTree
  value_text : ∀ src, tsEngine.value (.text src) = .string src
  alike : ∀ src, Alike (SameBody objectText) BothOwn ((tree src).text engine.float)
    (tsTree (.text src)).text
  kinds : ∀ key, (files.get key).isSome = true → PlainKind key

namespace CanonicalTwins

variable {I E : Type} (t : CanonicalTwins I E)

abbrev library : Library Str (Option Str) Value OwnError :=
  ((Store.map ⟨t.files⟩).sources t.options).library t.engine.float t.tree

abbrev plugin : Ts.PluginOptions := tsPlugin t.files t.objectText t.options

abbrev tsLibrary : Library Str Body Value (Ts.Escape E) :=
  Ts.sources t.plugin none (Ts.held t.files) t.tsEngine t.tsTree

/-- Both resolvers find the same for every reference that the text leads to. -/
def FindsAlike (text : Text (Option Str) Value OwnError) : Prop :=
  ∀ trail reference, t.library.Trail (none, text) trail →
    t.library.Inside (t.library.last (none, text) trail) (some reference) →
    SameFind t.objectText t.files t.options
      (MultiSource.metaAt (t.library.last (none, text) trail).1) reference

theorem text_alike {key src : Str} (hget : t.files.get key = some src) :
    Alike (SameBody t.objectText) BothOwn (t.library.text key) (t.tsLibrary.text key) := by
  have hheld : Ts.held t.files key = .text src := by
    unfold Ts.held Ts.MemResolver.lookup
    rw [hget]
    rfl
  have hkind := t.kinds key (by rw [hget]; rfl)
  show Alike _ _ (if isParsed key then (t.tree ((t.files.get key).getD [])).text _ else
      .done (.ok (.string ((t.files.get key).getD []))))
    (Ts.textOf t.plugin (Ts.held t.files) t.tsEngine t.tsTree key)
  unfold Ts.textOf
  rw [show t.plugin.processor = Ts.defaultProcessors from rfl, tsProcessor_eq hkind, hget, hheld,
    Option.getD_some]
  cases isParsed key with
  | false =>
    show Alike _ _ (.done (.ok (.string src))) (.done (.ok (t.tsEngine.value (.text src))))
    rw [t.value_text]
    exact .value _
  | true => exact t.alike src

theorem simulates {text : Text (Option Str) Value OwnError} (hfind : t.FindsAlike text) :
    Simulates t.library t.tsLibrary (SameBody t.objectText) BothOwn (none, text) where
  names trail reference spec ht hi h := by
    cases reference with
    | none => exact ts_names_none h
    | some reference => exact ts_names_eq t.normal h (hfind trail reference ht hi)
  text key hkey := by
    obtain ⟨trail, ht⟩ := hkey
    obtain ⟨-, reference, -, hn⟩ := ht.of_concat
    obtain ⟨spec, src, search, hget, -⟩ := SourceSet.of_names hn
    exact t.text_alike hget

/-- The plugins answer alike: the same value, or both an error, of a missing source, a loop, or the
engine's own. -/
inductive SameAnswer : Except TabnasError Value → Except (Ts.Escape E) Value → Prop
  | value (v : Value) : SameAnswer (.ok v) (.ok v)
  | missing {e : TabnasError} (token : Token) (details : Ts.Details) : e.code = NOT_FOUND →
      SameAnswer (.error e) (.error (.bad token Ts.NOT_FOUND details))
  | cycle {e : TabnasError} (token : Token) (details : Ts.Details) : e.code = CYCLE →
      SameAnswer (.error e) (.error (.bad token Ts.CYCLE details))
  | own {e : TabnasError} (e' : E) : e.code ≠ NOT_FOUND → e.code ≠ CYCLE →
      SameAnswer (.error e) (.error (.own e'))

theorem sameAnswer_of_matches {o : Except (Library.Fault Str (Option Str) OwnError) Value}
    {o' : Except (Library.Fault Str Body (Ts.Escape E)) Value} {outcome : Outcome}
    {answer : Except TabnasError Value} {tsAnswer : Except (Ts.Escape E) Value}
    (hm : Matches (SameBody t.objectText) BothOwn o o') (ht : Tells o outcome)
    (ha : Answers outcome answer) (hts : Ts.Answers t.plugin none o' tsAnswer) :
    SameAnswer answer tsAnswer := by
  cases hm with
  | value v =>
    cases ht
    cases hts
    obtain rfl := ha
    exact .value v
  | @own path e escape he =>
    obtain ⟨x, rfl⟩ := he
    cases hts with
    | error htell =>
      cases htell
      cases ht with
      | own =>
        obtain rfl := ha
        exact .own x e.own.1 e.own.2.1
      | raised hr =>
        obtain ⟨error, rfl, hc, -⟩ := ha
        rw [← hc] at hr
        exact .own x hr.1 hr.2.1
  | @missing path reference spec hspec =>
    cases ht with
    | raised hr =>
      obtain ⟨error, rfl, hc, -⟩ := ha
      cases hts with
      | error htell =>
        cases htell with
        | missing token res _ => exact .missing token _ (hc.trans hr)
        | thrown hthrow =>
          obtain ⟨r, hok⟩ := ts_resolve_ok t.files t.options path hspec
          cases hok.symm.trans hthrow
  | cycle chain key =>
    cases ht with
    | raised hr =>
      obtain ⟨error, rfl, hc, -⟩ := ha
      cases hts with
      | error htell =>
        cases htell with
        | cycle token _ => exact .cycle token _ (hc.trans hr)

end CanonicalTwins

/-- A text is a reference after a mark, or a value. -/
def tsParseAlone : Property → Ts.Parse Value Unit
  | .text ('@' :: reference) => .act ⟨[], ⟨"@".toList, 0⟩, .string reference, none⟩ fun
    | .splice val => .done (.ok val)
    | .node val => .done (.ok val)
  | .text src => .done (.ok (.string src))
  | .inherited _ => .done (.error ())

def tsAloneEngine : Ts.Engine Value Unit where
  parse src _ := tsParseAlone src
  undefined := .undefined
  value
    | .text src => .string src
    | .inherited _ => .undefined
  evaluate _ := .error ()

theorem tsParseAlone_of_ne {c : Char} (hc : c ≠ '@') (rest : Str) :
    tsParseAlone (.text (c :: rest)) = .done (.ok (.string (c :: rest))) := by
  unfold tsParseAlone
  split
  · exact absurd (List.cons.inj (Property.text.inj ‹_›)).1 hc
  · exact congrArg _ (congrArg _ (congrArg _ (Property.text.inj ‹_›).symm))
  · cases ‹_›

theorem tsParseAlone_alike (objectText : Ts.ObjectText) (src : Str) :
    Alike (SameBody objectText) BothOwn ((parseAlone src).text aloneEngine.float)
      (tsParseAlone (.text src)).text := by
  cases src with
  | nil => exact .value _
  | cons c reference =>
    by_cases hc : c = '@'
    · subst hc
      exact .refer rfl fun v => .value v
    · rw [(parseAlone_of_ne hc reference).1, tsParseAlone_of_ne hc]
      exact .value _

theorem new_processor : MultiSourceOptions.new.processor = defaultProcessors := rfl

theorem new_normalize : MultiSourceOptions.new.normalize = .new := rfl

theorem aloneEngine_textual : Textual aloneEngine parseAlone := fun _ _ _ => rfl

/-- One file. -/
def leafFiles : Entries Str := [("a.jsonic".toList, "x".toList)]

theorem leafFiles_kinds (key : Str) (h : (leafFiles.get key).isSome = true) : PlainKind key := by
  rw [leafFiles, Entries.get] at h
  split_ifs at h with hk
  · subst hk
    exact ⟨by decide, by decide⟩
  · cases h

/-- The small engines over a source that is text. -/
def leafPorts : CanonicalTwins Bool Unit where
  options := .new
  files := leafFiles
  objectText _ := .ok []
  engine := aloneEngine
  tree := parseAlone
  tsEngine := tsAloneEngine
  tsTree := tsParseAlone
  processor_eq := new_processor
  normal := new_normalize
  textual := aloneEngine_textual
  tsTextual _ _ := rfl
  value_text _ := rfl
  alike := tsParseAlone_alike _
  kinds := leafFiles_kinds

theorem leafPorts_findsAlike :
    leafPorts.FindsAlike ((leafPorts.tree "@a".toList).text leafPorts.engine.float) := by
  have hsame : SameFind leafPorts.objectText leafPorts.files leafPorts.options
      (MultiSource.metaAt none) "a".toList := by
    rw [same_find_iff_search]
    rfl
  intro trail reference ht hi
  cases ht with
  | nil =>
    rw [last_nil] at hi ⊢
    change leafPorts.library.Inside (none, .refer (some "a".toList) fun v => .done (.ok v)) _ at hi
    cases hi with
    | here => exact hsame
    | later _ _ hi => cases hi
  | snoc _ hr =>
    rw [last_concat] at hi
    obtain ⟨_, -, hn⟩ := hr
    obtain ⟨_, _, _, hget, -⟩ := SourceSet.of_names hn
    change leafPorts.files.get _ = _ at hget
    rw [show leafPorts.files = [("a.jsonic".toList, "x".toList)] from rfl, Entries.get] at hget
    split_ifs at hget with hk
    · subst hk
      change leafPorts.library.Inside (_, .done (.ok (.string "x".toList))) _ at hi
      cases hi
    · cases hget

end MultiSource.Ports
