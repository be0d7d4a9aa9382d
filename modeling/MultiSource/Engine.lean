import MultiSource.Number
import MultiSource.Options

/-!
# The parsing engine

What the plugin relies on of the engine. A parse reads its source to the first reference, hands it
to the plugin's action, and goes on with what the action did, or stops at an action that failed.
-/

namespace MultiSource

def NOT_FOUND : Str := "multisource_not_found".toList
def CYCLE : Str := "multisource_cycle".toList
def DEPTH : Str := "multisource_depth".toList

/-- A token of the source. -/
structure Token where
  text : Str
  index : ℕ

/-- A rule around the one the action runs in. -/
structure Parent where
  name : Str
  tokens : List Token

/-- What an action sees of its rule: the rule around it, the tokens it opened on, the next token,
the value of the directive's body, and the path dived to. A rule or the one around it was opened by
the directive's mark. -/
structure Site where
  parent : Option Parent
  tokens : List Token
  lookahead : Option Token
  body : Value
  dive : Option Value
  opened : (parent.map Parent.tokens).getD [] ++ tokens ≠ []

/-- What an action did to the parse: merge the value into the enclosing map, or set the rule's
node to it. -/
inductive Effect : Type
  | splice (value : Value)
  | node (value : Value)

/-- An error of the engine's own, which carries none of the plugin's codes. -/
structure OwnError where
  error : TabnasError
  own : error.code ≠ NOT_FOUND ∧ error.code ≠ CYCLE ∧ error.code ≠ DEPTH

/-- A parse by its references in order. What follows a reference may depend on what the action
did. -/
inductive Parse : Type
  | done (result : Except OwnError Value)
  | act (site : Site) (next : Effect → Parse)

/-- `text.contains(part)`. -/
def contains (text part : Str) : Bool := text.tails.any (part.isPrefixOf ·)

/-- The engine, by its instances: how one parses a source under some metadata, the error it returns
for a token marked bad and for an action that failed without one, and how it formats floats. A
source without the mark holds no reference. -/
structure Engine (I : Type) (markchar : Str) where
  parse : I → Str → Value → Parse
  raise : Token → Str → Details → TabnasError
  actionError : Str → Str → TabnasError
  float : ExpFormat
  raise_code : ∀ token code details, (raise token code details).code = code
  raise_bag : ∀ token code details, (raise token code details).bag = details
  actionError_code : ∀ code message, (actionError code message).code = code
  marked : ∀ i src parseMeta site next, parse i src parseMeta = .act site next →
    contains src markchar = true

namespace Site

/-- The token a diagnostic is reported against. -/
def errorToken (site : Site) : Option Token :=
  (site.parent.bind (·.tokens.head?) <|> site.tokens.head?) <|> site.lookahead

theorem errorToken_isSome (site : Site) : ∃ token, site.errorToken = some token := by
  unfold errorToken
  cases hp : site.parent.bind (·.tokens.head?) with
  | some token => exact ⟨token, rfl⟩
  | none =>
    cases ht : site.tokens with
    | cons token tokens => exact ⟨token, by simp⟩
    | nil =>
      have ho := site.opened
      rw [ht, List.append_nil] at ho
      cases hq : site.parent with
      | none => simp [hq] at ho
      | some parent =>
        rw [hq] at hp ho
        exact absurd (List.head?_eq_none_iff.mp hp) ho

/-- `set_node` or `splice_into_parent`, by the rule the reference stands in. -/
def effect (site : Site) (value : Value) : Effect :=
  if (site.parent.map Parent.name).getD [] = "pair".toList then .splice value else .node value

end Site

/-! ## The reference a directive body names -/

/-- `'' + value` for the one value a directive body can carry. -/
def coerceReference (float : ExpFormat) : Value → Option Str
  | .string text => some text
  | .text string => some string
  | .number number => some (formatNumber float number)
  | .bool flag => some (if flag then "true".toList else "false".toList)
  | _ => none

/-- A bare value, or an object with a `path` key. -/
def referenceOf (float : ExpFormat) (body : Value) : Option Str :=
  match metaObject body with
  | some entries => (Entries.get "path".toList entries).bind (coerceReference float)
  | none => coerceReference float body

/-! ## A small engine -/

/-- The site of a reference that stands alone after its mark. -/
def Site.alone (reference : Str) : Site where
  parent := none
  tokens := [⟨DEFAULT_MARKCHAR, 0⟩]
  lookahead := none
  body := .string reference
  dive := none
  opened := by simp

/-- A source is a reference after a mark, or text. -/
def parseAlone : Str → Parse
  | '@' :: reference => .act (.alone reference) fun
    | .splice value => .done (.ok value)
    | .node value => .done (.ok value)
  | src => .done (.ok (.string src))

theorem parseAlone_marked {src : Str} {site : Site} {next : Effect → Parse}
    (h : parseAlone src = .act site next) : contains src DEFAULT_MARKCHAR = true := by
  unfold parseAlone at h
  split at h
  · simp [contains, DEFAULT_MARKCHAR]
  · exact absurd h (by simp)

/-- The engine of that language. -/
def aloneEngine : Engine Bool MultiSourceOptions.new.markchar where
  parse _ src _ := parseAlone src
  raise _ code details := ⟨code, [], details⟩
  actionError code message := ⟨code, message, []⟩
  float := ⟨fun _ => ⟨[], 0⟩, fun _ _ => ⟨[], 0⟩⟩
  raise_code _ _ _ := rfl
  raise_bag _ _ _ := rfl
  actionError_code _ _ := rfl
  marked _ _ _ _ _ h := parseAlone_marked h

end MultiSource
