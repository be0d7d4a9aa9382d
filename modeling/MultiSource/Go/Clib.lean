import Mathlib.Data.BitVec
import MultiSource.Lib.Locks
import MultiSource.Text

/-!
# The C library

The library that the Go module is built into for callers in C. It keeps a table of parsers by
handle, which threads of the caller load, use and free as they like: one lock guards the table and
its counter, and one lock for each parser lets it parse one source at a time.

Accesses to the table and the counter are single operations here, so the programs below run in any
interleaving of them. What foreign code does, building an engine and parsing, is the host's.
-/

namespace MultiSource.Clib

open Interaction

/-- The end of a call of foreign code: a value, an error, or a panic, which carries the text of an
error or string and nothing of anything else. -/
inductive Outcome (Err α : Type) : Type
  | returned (a : α)
  | failed (err : Err)
  | panicked (text : Option Str)

/-- An error of a call: one that was returned, or a panic that was contained. -/
inductive Failure (Err : Type) : Type
  | error (err : Err)
  | panicErr (text : Option Str)

/-- `safeNew` and `safeParse`. -/
def Outcome.contained {Err α : Type} : Outcome Err α → Except (Failure Err) α
  | .returned a => .ok a
  | .failed err => .error (.error err)
  | .panicked text => .error (.panicErr text)

/-- What the library is linked with: the engine's packages and the JSON encoder. `marshal` is that
of an error, and `codeIn` reads the `code` of a JSON text. -/
structure Host where
  Err : Type
  Spec : Type
  Tabnas : Type
  Value : Type
  text : Err → Str
  marshal : Err → Option Str
  codeIn : Str → Option Str
  tabnasError : Str → Str → Err
  grammarSpecFromJSON : Str → Outcome Err Spec
  grammar : Spec → Outcome Err Tabnas
  ruleStart : Tabnas → Str
  hasRule : Tabnas → Str → Bool
  use : Tabnas → Outcome Err Tabnas
  parse : Tabnas → Str → Outcome Err Value → Prop
  jsonUnsafe : Value → Str
  encode : Value → Except Err Str
  /-- An engine that is asked to parse comes to an end. -/
  parse_total : ∀ tn src, ∃ r, parse tn src r

/-- A reply, as the document that is marshalled. -/
inductive Doc (Handle : Type) : Type
  | handle (id : Handle)
  | fail (code message : Str)
  | rejected (payload : Except Str Str)
  | accepted (value : Except Str Str)
  | void

abbrev Handle : Type := BitVec 64

namespace Host

variable (host : Host)

/-! ## Building a parser -/

def newParser (opts : Str) : Outcome host.Err host.Tabnas :=
  match host.grammarSpecFromJSON opts with
  | .panicked text => .panicked text
  | .failed err =>
    .failed (host.tabnasError "grammar".toList ("unreadable spec: ".toList ++ host.text err))
  | .returned gs =>
    match host.grammar gs with
    | .panicked text => .panicked text
    | .failed err => .failed err
    | .returned tn =>
      let start := if host.ruleStart tn = [] then "val".toList else host.ruleStart tn
      if host.hasRule tn start then host.use tn
      else .failed (host.tabnasError "grammar".toList ("spec installs no start rule ".toList ++
        start ++ ", so no input could be validated against it".toList))

/-! ## Replies -/

def firstLine (s : Str) : Str := s.takeWhile (· ≠ '\n')

/-- The `Error` of a failure. -/
def errorText : Failure host.Err → Str
  | .error err => host.text err
  | .panicErr text => text.getD "internal panic".toList

/-- A structured diagnostic where the error has one (`.ok`), else a message. -/
def errPayload (err : host.Err) : Except Str Str :=
  match host.marshal err with
  | some b =>
    if 2 < b.length ∧ b.head? = some '{' then .ok b else .error (firstLine (host.text err))
  | none => .error (firstLine (host.text err))

def isInternal (err : host.Err) : Bool :=
  (host.marshal err).bind host.codeIn = some "internal".toList

def acceptDoc (val : host.Value) : Doc Handle :=
  let why := host.jsonUnsafe val
  if why ≠ [] then
    .accepted (.error ("value contains ".toList ++ why ++
      "; retrieve it via a native tabnas runtime".toList))
  else
    match host.encode val with
    | .ok b => .accepted (.ok b)
    | .error err => .accepted (.error (firstLine (host.text err)))

/-- The reply to a parse that ended. -/
def conclude : Except (Failure host.Err) host.Value → Doc Handle
  | .ok val => host.acceptDoc val
  | .error (.panicErr text) =>
    .fail "internal".toList (firstLine (host.errorText (.panicErr text)))
  | .error (.error err) =>
    if host.isInternal err then .fail "internal".toList (firstLine (host.text err))
    else .rejected (host.errPayload err)

/-! ## Programs -/

/-- The lock of the table, and that of a parser by its address. -/
inductive Lock : Type
  | reg
  | mu (g : ℕ)
  deriving DecidableEq

/-- What a call does one step at a time. -/
inductive Op : Type
  | newParser (opts : Str)
  | lock (l : Lock) (m : Mode)
  | unlock (l : Lock) (m : Mode)
  | getNext
  | setNext (id : Handle)
  | alloc (parse : host.Tabnas)
  | store (id : Handle) (g : ℕ)
  | find (id : Handle)
  | delete (id : Handle)
  | parse (g : ℕ) (src : Str)

@[reducible] def Op.Resp {host : Host} : host.Op → Type
  | .newParser _ => Outcome host.Err host.Tabnas
  | .getNext => Handle
  | .alloc _ => ℕ
  | .find _ => Option ℕ
  | .parse .. => Outcome host.Err host.Value
  | .lock .. | .unlock .. | .setNext _ | .store .. | .delete _ => Unit

/-- The exported calls that reach the table. A text is missing where its pointer or length is
invalid. -/
inductive Call : Type
  | tabnas_grammar (opts : Option Str)
  | tabnas_parse (handle : Handle) (src : Option Str)
  | tabnas_grammar_free (handle : Handle)

abbrev sig : Sig where
  Op := host.Op
  Resp := Op.Resp
  Call := Call
  Ans := Doc Handle

abbrev Program (α : Type) : Type := Prog host.sig α

variable {host} in
def ask (o : host.Op) : host.Program o.Resp := .op o .ret

variable {host} in
@[simp] theorem ask_bind {α : Type} (o : host.Op) (f : o.Resp → host.Program α) :
    (ask o >>= f) = .op o f := rfl

def loadGrammar (optsJSON : Str) : host.Program (Doc Handle) := do
  match (← ask (.newParser optsJSON)).contained with
  | .error err => return .fail "grammar".toList (firstLine (host.errorText err))
  | .ok p => do
    ask (.lock .reg .exclusive)
    let nextID ← ask .getNext
    ask (.setNext (nextID + 1))
    let id ← ask .getNext
    let g ← ask (.alloc p)
    ask (.store id g)
    ask (.unlock .reg .exclusive)
    return .handle id

/-- The part of `parseWith` under the lock of the parser. -/
def parseOn (g : ℕ) (src : Str) : host.Program (Doc Handle) := do
  ask (.lock (.mu g) .exclusive)
  let r ← ask (.parse g src)
  ask (.unlock (.mu g) .exclusive)
  return host.conclude r.contained

def parseWith (handle : Handle) (src : Str) : host.Program (Doc Handle) := do
  ask (.lock .reg .shared)
  let g ← ask (.find handle)
  ask (.unlock .reg .shared)
  match g with
  | none => return .fail "handle".toList "no parser is loaded under that handle".toList
  | some g => host.parseOn g src

def freeGrammar (handle : Handle) : host.Program (Doc Handle) := do
  ask (.lock .reg .exclusive)
  ask (.delete handle)
  ask (.unlock .reg .exclusive)
  return .void

def body : Call → host.Program (Doc Handle)
  | .tabnas_grammar none =>
    return .fail "usage".toList "options pointer or length is invalid".toList
  | .tabnas_grammar (some text) => host.loadGrammar text
  | .tabnas_parse _ none =>
    return .fail "usage".toList "source pointer or length is invalid".toList
  | .tabnas_parse handle (some text) => host.parseWith handle text
  | .tabnas_grammar_free handle => host.freeGrammar handle

/-! ## The state -/

/-- The globals of the library and the parsers it has made, by address. -/
structure Shared where
  locks : Lock → Hold
  nextID : Handle
  loaded : Handle → Option ℕ
  instances : List host.Tabnas

def Shared.init : host.Shared := ⟨fun _ => ⟨0, false⟩, 0, fun _ => none, []⟩

/-- What an operation does to locks. -/
def kind : host.Op → LockOp Lock
  | .newParser _ | .alloc _ => .plain
  | .lock l m => .take l m
  | .unlock l m => .give l m
  | .getNext | .find _ => .touch .reg .shared
  | .setNext _ | .store .. | .delete _ => .touch .reg .exclusive
  | .parse g _ => .touch (.mu g) .exclusive

/-- What each operation answers and does. -/
inductive Handles : Handler host.sig host.Shared
  | newParser (s : host.Shared) (opts : Str) :
      Handles s (.newParser opts) (host.newParser opts) s
  | lock {s : host.Shared} {l : Lock} {m : Mode} {locks : Lock → Hold} :
      LockStep (.take l m) s.locks locks → Handles s (.lock l m) () { s with locks := locks }
  | unlock {s : host.Shared} {l : Lock} {m : Mode} {locks : Lock → Hold} :
      LockStep (.give l m) s.locks locks → Handles s (.unlock l m) () { s with locks := locks }
  | getNext (s : host.Shared) : Handles s .getNext s.nextID s
  | setNext (s : host.Shared) (id : Handle) : Handles s (.setNext id) () { s with nextID := id }
  | alloc (s : host.Shared) (parse : host.Tabnas) :
      Handles s (.alloc parse) s.instances.length { s with instances := s.instances ++ [parse] }
  | store (s : host.Shared) (id : Handle) (g : ℕ) :
      Handles s (.store id g) () { s with loaded := Function.update s.loaded id (some g) }
  | find (s : host.Shared) (id : Handle) : Handles s (.find id) (s.loaded id) s
  | delete (s : host.Shared) (id : Handle) :
      Handles s (.delete id) () { s with loaded := Function.update s.loaded id none }
  | parse {s : host.Shared} {g : ℕ} {src : Str} {tn : host.Tabnas}
      {r : Outcome host.Err host.Value} : s.instances[g]? = some tn → host.parse tn src r →
      Handles s (.parse g src) r s

/-- The library under threads of a caller in C, each of which makes any call. -/
abbrev clib : System host.sig host.Shared where
  body := host.body
  handler := host.Handles
  mayCall _ _ := False
  top _ := True

/-- A thread of the library, and all of them. -/
abbrev Running : Type := Thread (holding (S := host.sig) host.kind)

abbrev Threads : Type := Pool (holding (S := host.sig) host.kind) host.Shared

theorem locked : Locked host.kind host.clib Shared.locks := by
  intro s o r s' h
  cases h with
  | lock h => exact h
  | unlock h => exact h
  | newParser => exact .plain _
  | alloc => exact .plain _
  | _ => exact .touch ..

/-! ## Every call keeps the discipline -/

/-- All locks are on one level: none is taken while another is held. -/
abbrev flat : Lock → ℕ := fun _ => 0

variable {host}

/-- An operation that is allowed, and the rest under the locks held after it. -/
theorem wp_ask {α : Type} {o : host.Op} {k : o.Resp → host.Program α} {n : Held Lock}
    {post : Held Lock → α → Prop} (ha : n.Allows flat (host.kind o))
    (hk : ∀ r, Wp host.clib (discipline host.kind host.clib flat) post (k r)
      (n.after (host.kind o))) :
    Wp host.clib (discipline host.kind host.clib flat) post (.op o k) n :=
  wp_op_of_closed (fun _ h => h) ⟨ha, fun ⟨_, h⟩ => absurd h id⟩ hk

theorem update_none (l : Lock) (m : Option Mode) :
    Function.update (Function.update Held.none l m) l none = Held.none := by
  rw [Function.update_idem]
  exact Function.update_eq_self l Held.none

theorem held_update (l : Lock) (m : Mode) : Function.update Held.none l (some m) l = some m :=
  Function.update_self ..

theorem loadGrammar_wp (opts : Str) : Wp host.clib (discipline host.kind host.clib flat)
    (fun n _ => n = Held.none) (host.loadGrammar opts) Held.none := by
  have hheld := held_update .reg .exclusive
  refine wp_ask trivial fun r => ?_
  cases r with
  | failed err => exact rfl
  | panicked text => exact rfl
  | returned p =>
    refine wp_ask (fun l h => absurd rfl h) fun _ => ?_
    refine wp_ask (fun h => by cases hheld.symm.trans h) fun next => ?_
    refine wp_ask hheld fun _ => ?_
    refine wp_ask (fun h => by cases hheld.symm.trans h) fun id => ?_
    refine wp_ask trivial fun g => ?_
    refine wp_ask hheld fun _ => ?_
    refine wp_ask hheld fun _ => ?_
    exact update_none .reg (some .exclusive)

theorem parseOn_wp (g : ℕ) (src : Str) {n : Held Lock} (hn : n = Held.none) :
    Wp host.clib (discipline host.kind host.clib flat) (fun n _ => n = Held.none)
      (host.parseOn g src) n := by
  subst hn
  refine wp_ask (fun l h => absurd rfl h) fun _ => ?_
  refine wp_ask (held_update (.mu g) .exclusive) fun r => ?_
  refine wp_ask (held_update (.mu g) .exclusive) fun _ => ?_
  exact update_none (.mu g) (some .exclusive)

theorem parseWith_wp (handle : Handle) (src : Str) :
    Wp host.clib (discipline host.kind host.clib flat) (fun n _ => n = Held.none)
      (host.parseWith handle src) Held.none := by
  have hheld := held_update .reg .shared
  have hnone := update_none .reg (some .shared)
  refine wp_ask (fun l h => absurd rfl h) fun _ => ?_
  refine wp_ask (fun h => by cases hheld.symm.trans h) fun g => ?_
  refine wp_ask hheld fun _ => ?_
  cases g with
  | none => exact hnone
  | some g => exact parseOn_wp g src hnone

theorem freeGrammar_wp (handle : Handle) :
    Wp host.clib (discipline host.kind host.clib flat) (fun n _ => n = Held.none)
      (host.freeGrammar handle) Held.none := by
  have hheld := held_update .reg .exclusive
  refine wp_ask (fun l h => absurd rfl h) fun _ => ?_
  refine wp_ask hheld fun _ => ?_
  refine wp_ask hheld fun _ => ?_
  exact update_none .reg (some .exclusive)

theorem body_wp (c : Call) : Wp host.clib (discipline host.kind host.clib flat)
    (fun n _ => n = Held.none) (host.body c) Held.none := by
  cases c with
  | tabnas_grammar opts =>
    cases opts with
    | none => exact rfl
    | some text => exact loadGrammar_wp text
  | tabnas_parse handle src =>
    cases src with
    | none => exact rfl
    | some text => exact parseWith_wp handle text
  | tabnas_grammar_free handle => exact freeGrammar_wp handle

theorem guarded : Guarded host.clib (discipline host.kind host.clib flat) where
  top c _ := body_wp c
  call _ c _ := body_wp c
  foreign _ _ _ _ h := absurd h id

end Host

end MultiSource.Clib
