import Mathlib.Logic.Relation
import Mathlib.Data.List.Basic

/-!
# Programs that ask and call

A program is a tree of requests. It asks its environment for operations, each with a response of
its own type, and it calls procedures, whose bodies are programs again. Bodies are looked up by
the call, so a program may call itself through them without bound.

Two readings are given here. `Evals` is the big-step one, with the events in order; `Exec` adds a
state that every operation steps. `Halts` says that no choice of responses and answers leads to
an unbounded run, and `Alike` that two environments cannot be told apart.
-/

namespace Interaction

/-- The operations a program may ask for, with their responses, and the calls it may make, which
all answer in one type. -/
structure Sig where
  Op : Type
  Resp : Op → Type
  Call : Type
  Ans : Type

/-- A program over `S` with result in `α`. -/
inductive Prog (S : Sig) (α : Type) : Type
  | ret (a : α)
  | op (o : S.Op) (k : S.Resp o → Prog S α)
  | call (c : S.Call) (k : S.Ans → Prog S α)

namespace Prog

variable {S : Sig} {α β γ : Type}

protected def bind : Prog S α → (α → Prog S β) → Prog S β
  | .ret a, f => f a
  | .op o k, f => .op o fun r => (k r).bind f
  | .call c k, f => .call c fun a => (k a).bind f

instance : Monad (Prog S) where
  pure := .ret
  bind := Prog.bind

@[simp] theorem pure_eq (a : α) : (pure a : Prog S α) = .ret a := rfl

@[simp] theorem ret_bind (a : α) (f : α → Prog S β) : (Prog.ret a >>= f) = f a := rfl

@[simp] theorem op_bind (o : S.Op) (k : S.Resp o → Prog S α) (f : α → Prog S β) :
    (Prog.op o k >>= f) = .op o fun r => k r >>= f := rfl

@[simp] theorem call_bind (c : S.Call) (k : S.Ans → Prog S α) (f : α → Prog S β) :
    (Prog.call c k >>= f) = .call c fun a => k a >>= f := rfl

theorem bind_ret (p : Prog S α) : (p >>= .ret) = p := by
  induction p with
  | ret a => rfl
  | op o k ih => exact congrArg (Prog.op o) (funext ih)
  | call c k ih => exact congrArg (Prog.call c) (funext ih)

end Prog

/-- An operation with the response it got. -/
abbrev Event (S : Sig) : Type := Σ o : S.Op, S.Resp o

section BigStep

variable {S : Sig} (body : S.Call → Prog S S.Ans)

/-- `p` runs to `a`, and the events of the run, those of the called bodies included, are `tr`. -/
inductive Evals : {α : Type} → Prog S α → List (Event S) → α → Prop
  | ret {α : Type} (a : α) : Evals (.ret a) [] a
  | op {α : Type} {o : S.Op} {k : S.Resp o → Prog S α} (r : S.Resp o) {tr : List (Event S)}
      {a : α} : Evals (k r) tr a → Evals (.op o k) (⟨o, r⟩ :: tr) a
  | call {α : Type} {c : S.Call} {k : S.Ans → Prog S α} {tr₁ tr₂ : List (Event S)} {b : S.Ans}
      {a : α} : Evals (body c) tr₁ b → Evals (k b) tr₂ a → Evals (.call c k) (tr₁ ++ tr₂) a

variable {body} {α β : Type}

theorem evals_ret {a b : α} {tr : List (Event S)} :
    Evals body (.ret a) tr b ↔ tr = [] ∧ b = a := by
  constructor
  · rintro ⟨⟩
    exact ⟨rfl, rfl⟩
  · rintro ⟨rfl, rfl⟩
    exact .ret _

theorem evals_op {o : S.Op} {k : S.Resp o → Prog S α} {tr : List (Event S)} {a : α} :
    Evals body (.op o k) tr a ↔ ∃ r tr', tr = ⟨o, r⟩ :: tr' ∧ Evals body (k r) tr' a := by
  constructor
  · rintro ⟨⟩
    exact ⟨_, _, rfl, ‹_›⟩
  · rintro ⟨r, tr', rfl, h⟩
    exact .op r h

theorem evals_call {c : S.Call} {k : S.Ans → Prog S α} {tr : List (Event S)} {a : α} :
    Evals body (.call c k) tr a ↔
      ∃ tr₁ b tr₂, tr = tr₁ ++ tr₂ ∧ Evals body (body c) tr₁ b ∧ Evals body (k b) tr₂ a := by
  constructor
  · rintro ⟨⟩
    exact ⟨_, _, _, rfl, ‹_›, ‹_›⟩
  · rintro ⟨tr₁, b, tr₂, rfl, h₁, h₂⟩
    exact .call h₁ h₂

theorem evals_bind {p : Prog S α} {f : α → Prog S β} {tr : List (Event S)} {b : β} :
    Evals body (p >>= f) tr b ↔
      ∃ tr₁ a tr₂, tr = tr₁ ++ tr₂ ∧ Evals body p tr₁ a ∧ Evals body (f a) tr₂ b := by
  induction p generalizing tr with
  | ret a =>
    rw [Prog.ret_bind]
    constructor
    · intro h
      exact ⟨[], a, tr, rfl, .ret a, h⟩
    · rintro ⟨tr₁, a', tr₂, rfl, h₁, h₂⟩
      obtain ⟨rfl, rfl⟩ := evals_ret.mp h₁
      exact h₂
  | op o k ih =>
    rw [Prog.op_bind, evals_op]
    constructor
    · rintro ⟨r, tr', rfl, h⟩
      obtain ⟨tr₁, a, tr₂, rfl, h₁, h₂⟩ := (ih r).mp h
      exact ⟨⟨o, r⟩ :: tr₁, a, tr₂, rfl, .op r h₁, h₂⟩
    · rintro ⟨tr₁, a, tr₂, rfl, h₁, h₂⟩
      obtain ⟨r, tr', rfl, h⟩ := evals_op.mp h₁
      exact ⟨r, tr' ++ tr₂, rfl, (ih r).mpr ⟨tr', a, tr₂, rfl, h, h₂⟩⟩
  | call c k ih =>
    rw [Prog.call_bind, evals_call]
    constructor
    · rintro ⟨tr₀, a₀, tr', rfl, h₀, h⟩
      obtain ⟨tr₁, a, tr₂, rfl, h₁, h₂⟩ := (ih a₀).mp h
      exact ⟨tr₀ ++ tr₁, a, tr₂, (List.append_assoc ..).symm, .call h₀ h₁, h₂⟩
    · rintro ⟨tr₁, a, tr₂, rfl, h₁, h₂⟩
      obtain ⟨tr₀, a₀, tr', rfl, h₀, h⟩ := evals_call.mp h₁
      exact ⟨tr₀, a₀, tr' ++ tr₂, List.append_assoc .., h₀, (ih a₀).mpr ⟨tr', a, tr₂, rfl, h, h₂⟩⟩

end BigStep

section State

variable {S : Sig} {σ : Type}

/-- What one operation may answer in a state, and the state it leaves. -/
abbrev Handler (S : Sig) (σ : Type) : Type := σ → (o : S.Op) → S.Resp o → σ → Prop

/-- The events `tr` take state `s` to `s'`. -/
inductive Runs (H : Handler S σ) : σ → List (Event S) → σ → Prop
  | nil (s : σ) : Runs H s [] s
  | cons {s s₁ s₂ : σ} {o : S.Op} {r : S.Resp o} {tr : List (Event S)} :
      H s o r s₁ → Runs H s₁ tr s₂ → Runs H s (⟨o, r⟩ :: tr) s₂

variable {H : Handler S σ}

theorem runs_append {s s' : σ} {tr₁ tr₂ : List (Event S)} :
    Runs H s (tr₁ ++ tr₂) s' ↔ ∃ s₁, Runs H s tr₁ s₁ ∧ Runs H s₁ tr₂ s' := by
  induction tr₁ generalizing s with
  | nil =>
    constructor
    · intro h
      exact ⟨s, .nil s, h⟩
    · rintro ⟨_, ⟨⟩, h⟩
      exact h
  | cons e tr₁ ih =>
    constructor
    · rintro (_ | ⟨h, ht⟩)
      obtain ⟨s₂, h₁, h₂⟩ := ih.mp ht
      exact ⟨s₂, .cons h h₁, h₂⟩
    · rintro ⟨s₂, _ | ⟨h, h₁⟩, h₂⟩
      exact .cons h (ih.mpr ⟨s₂, h₁, h₂⟩)

theorem Runs.snoc {s s₁ s₂ : σ} {tr : List (Event S)} {o : S.Op} {r : S.Resp o}
    (h : Runs H s tr s₁) (hs : H s₁ o r s₂) : Runs H s (tr ++ [⟨o, r⟩]) s₂ :=
  runs_append.mpr ⟨s₁, h, .cons hs (.nil s₂)⟩

/-- `p`, started in state `s`, runs to `a` and leaves `s'`. -/
def Exec (H : Handler S σ) (body : S.Call → Prog S S.Ans) {α : Type} (s : σ) (p : Prog S α)
    (a : α) (s' : σ) : Prop :=
  ∃ tr, Evals body p tr a ∧ Runs H s tr s'

variable {body : S.Call → Prog S S.Ans} {α β : Type} {s s' : σ}

theorem exec_ret {a b : α} : Exec H body s (.ret a) b s' ↔ b = a ∧ s' = s := by
  constructor
  · rintro ⟨tr, h, hr⟩
    obtain ⟨rfl, rfl⟩ := evals_ret.mp h
    cases hr
    exact ⟨rfl, rfl⟩
  · rintro ⟨rfl, rfl⟩
    exact ⟨[], .ret _, .nil _⟩

theorem exec_op {o : S.Op} {k : S.Resp o → Prog S α} {a : α} :
    Exec H body s (.op o k) a s' ↔ ∃ r s₁, H s o r s₁ ∧ Exec H body s₁ (k r) a s' := by
  constructor
  · rintro ⟨tr, h, hr⟩
    obtain ⟨r, tr', rfl, he⟩ := evals_op.mp h
    cases hr with
    | cons ho hr => exact ⟨r, _, ho, tr', he, hr⟩
  · rintro ⟨r, s₁, ho, tr, h, hr⟩
    exact ⟨_, .op r h, .cons ho hr⟩

theorem exec_call {c : S.Call} {k : S.Ans → Prog S α} {a : α} :
    Exec H body s (.call c k) a s' ↔
      ∃ b s₁, Exec H body s (body c) b s₁ ∧ Exec H body s₁ (k b) a s' := by
  constructor
  · rintro ⟨tr, h, hr⟩
    obtain ⟨tr₁, b, tr₂, rfl, h₁, h₂⟩ := evals_call.mp h
    obtain ⟨s₁, hr₁, hr₂⟩ := runs_append.mp hr
    exact ⟨b, s₁, ⟨tr₁, h₁, hr₁⟩, tr₂, h₂, hr₂⟩
  · rintro ⟨b, s₁, ⟨tr₁, h₁, hr₁⟩, tr₂, h₂, hr₂⟩
    exact ⟨_, .call h₁ h₂, runs_append.mpr ⟨s₁, hr₁, hr₂⟩⟩

theorem exec_bind {p : Prog S α} {f : α → Prog S β} {b : β} :
    Exec H body s (p >>= f) b s' ↔ ∃ a s₁, Exec H body s p a s₁ ∧ Exec H body s₁ (f a) b s' := by
  constructor
  · rintro ⟨tr, h, hr⟩
    obtain ⟨tr₁, a, tr₂, rfl, h₁, h₂⟩ := evals_bind.mp h
    obtain ⟨s₁, hr₁, hr₂⟩ := runs_append.mp hr
    exact ⟨a, s₁, ⟨tr₁, h₁, hr₁⟩, tr₂, h₂, hr₂⟩
  · rintro ⟨a, s₁, ⟨tr₁, h₁, hr₁⟩, tr₂, h₂, hr₂⟩
    exact ⟨tr₁ ++ tr₂, evals_bind.mpr ⟨tr₁, a, tr₂, rfl, h₁, h₂⟩, runs_append.mpr ⟨s₁, hr₁, hr₂⟩⟩

/-- Weakening the handler keeps the executions. -/
theorem Exec.mono {H' : Handler S σ} (hH : ∀ s o r s', H s o r s' → H' s o r s')
    {p : Prog S α} {a : α} (h : Exec H body s p a s') : Exec H' body s p a s' := by
  obtain ⟨tr, he, hr⟩ := h
  refine ⟨tr, he, ?_⟩
  clear he
  induction hr with
  | nil s => exact .nil s
  | cons ho _ ih => exact .cons (hH _ _ _ _ ho) ih

end State

section Collecting

variable {S : Sig} {β : Type} (P : Event S → Prop) (f : Event S → Option β)

theorem filterMap_cons_toList {α : Type} (g : α → Option β) (a : α) (l : List α) :
    (a :: l).filterMap g = (g a).toList ++ l.filterMap g := by
  rw [List.filterMap_cons]
  cases g a <;> rfl

/-- Operations by what they add to a list, where every event meets `P`. -/
def collecting : Handler S (List β) := fun s o r s' => P ⟨o, r⟩ ∧ s' = s ++ (f ⟨o, r⟩).toList

variable {P f}

theorem runs_collecting {tr : List (Event S)} (h : ∀ e ∈ tr, P e) (s : List β) :
    Runs (collecting P f) s tr (s ++ tr.filterMap f) := by
  induction tr generalizing s with
  | nil =>
    rw [List.filterMap_nil, List.append_nil]
    exact .nil s
  | cons e tr ih =>
    rw [filterMap_cons_toList, ← List.append_assoc]
    exact .cons ⟨h e (List.mem_cons_self ..), rfl⟩
      (ih (fun x hx => h x (List.mem_cons_of_mem _ hx)) _)

/-- A run collects from its events. -/
theorem Evals.collects {body : S.Call → Prog S S.Ans} {α : Type} {p : Prog S α}
    {tr : List (Event S)} {a : α} (h : Evals body p tr a) (hP : ∀ e ∈ tr, P e) :
    Exec (collecting P f) body [] p a (tr.filterMap f) :=
  ⟨tr, h, runs_collecting hP []⟩

end Collecting

section Interpreter

variable {S : Sig} {σ : Type} (F : σ → (o : S.Op) → S.Resp o × σ) (body : S.Call → Prog S S.Ans)

/-- Run a program where operations answer by `F` and calls by `call`. -/
def interpretWith {α : Type} (call : σ → S.Call → Option (S.Ans × σ)) :
    σ → Prog S α → Option (α × σ)
  | s, .ret a => some (a, s)
  | s, .op o k => interpretWith call (F s o).2 (k (F s o).1)
  | s, .call c k => (call s c).bind fun r => interpretWith call r.2 (k r.1)

/-- Run a call to a depth of `n` at most. -/
def interpret : ℕ → σ → S.Call → Option (S.Ans × σ)
  | 0, _, _ => none
  | n + 1, s, c => interpretWith F (interpret n) s (body c)

variable {F body} {H : Handler S σ}

theorem exec_of_interpretWith (hF : ∀ s o, H s o (F s o).1 (F s o).2)
    {call : σ → S.Call → Option (S.Ans × σ)}
    (hcall : ∀ s c a s', call s c = some (a, s') → Exec H body s (body c) a s') {α : Type}
    {p : Prog S α} {s s' : σ} {a : α} (h : interpretWith F call s p = some (a, s')) :
    Exec H body s p a s' := by
  induction p generalizing s with
  | ret b =>
    simp only [interpretWith, Option.some.injEq, Prod.mk.injEq] at h
    exact exec_ret.mpr ⟨h.1.symm, h.2.symm⟩
  | op o k ih => exact exec_op.mpr ⟨_, _, hF s o, ih _ h⟩
  | call c k ih =>
    obtain ⟨⟨b, s₁⟩, hb, hk⟩ := Option.bind_eq_some_iff.mp h
    exact exec_call.mpr ⟨b, s₁, hcall _ _ _ _ hb, ih _ hk⟩

theorem exec_of_interpret (hF : ∀ s o, H s o (F s o).1 (F s o).2) {n : ℕ} :
    ∀ s c a s', interpret F body n s c = some (a, s') → Exec H body s (body c) a s' := by
  induction n with
  | zero => exact fun _ _ _ _ h => absurd h (by simp [interpret])
  | succ n ih => exact fun _ _ _ _ h => exec_of_interpretWith hF ih h

end Interpreter

section Halting

variable {S : Sig} (body : S.Call → Prog S S.Ans)

/-- Every run of `p` ends, whatever its operations respond and its calls answer. -/
inductive Halts : {α : Type} → Prog S α → Prop
  | ret {α : Type} (a : α) : Halts (.ret a)
  | op {α : Type} {o : S.Op} {k : S.Resp o → Prog S α} : (∀ r, Halts (k r)) → Halts (.op o k)
  | call {α : Type} {c : S.Call} {k : S.Ans → Prog S α} :
      Halts (body c) → (∀ a, Halts (k a)) → Halts (.call c k)

variable {body} {α β : Type}

theorem Halts.bind {p : Prog S α} {f : α → Prog S β} (hp : Halts body p)
    (hf : ∀ a, Halts body (f a)) : Halts body (p >>= f) := by
  induction hp with
  | ret a => exact hf a
  | op _ ih => exact .op fun r => ih r hf
  | call hc _ _ ih => exact .call hc fun a => ih a hf

/-- A halting program has a result wherever the environment always has a response. -/
theorem Halts.exec {σ : Type} {H : Handler S σ} (hH : ∀ s o, ∃ r s', H s o r s')
    {p : Prog S α} (hp : Halts body p) : ∀ s, ∃ a s', Exec H body s p a s' := by
  induction hp with
  | ret a => exact fun s => ⟨a, s, exec_ret.mpr ⟨rfl, rfl⟩⟩
  | @op _ o k _ ih =>
    intro s
    obtain ⟨r, s₁, hr⟩ := hH s o
    obtain ⟨a, s', h⟩ := ih r s₁
    exact ⟨a, s', exec_op.mpr ⟨r, s₁, hr, h⟩⟩
  | call _ _ ihc ih =>
    intro s
    obtain ⟨b, s₁, hb⟩ := ihc s
    obtain ⟨a, s', h⟩ := ih b s₁
    exact ⟨a, s', exec_call.mpr ⟨b, s₁, hb, h⟩⟩

end Halting

section Nesting

variable {S : Sig} {α β : Type}

/-- Some run of `p` makes the call `c` itself, whatever the responses and answers before it. -/
inductive Makes : {α : Type} → Prog S α → S.Call → Prop
  | op {α : Type} {o : S.Op} {k : S.Resp o → Prog S α} {c : S.Call} (r : S.Resp o) :
      Makes (k r) c → Makes (.op o k) c
  | call {α : Type} {c : S.Call} {k : S.Ans → Prog S α} : Makes (.call c k) c
  | after {α : Type} {c d : S.Call} {k : S.Ans → Prog S α} (a : S.Ans) :
      Makes (k a) c → Makes (.call d k) c

theorem not_makes_ret {a : α} {c : S.Call} : ¬ Makes (.ret a : Prog S α) c := by
  rintro ⟨⟩

theorem makes_bind {p : Prog S α} {f : α → Prog S β} {c : S.Call} (h : Makes (p >>= f) c) :
    Makes p c ∨ ∃ a, Makes (f a) c := by
  induction p with
  | ret a => exact .inr ⟨a, h⟩
  | op o k ih =>
    rw [Prog.op_bind] at h
    cases h with
    | op r h => exact (ih r h).imp_left (.op r)
  | call d k ih =>
    rw [Prog.call_bind] at h
    cases h with
    | call => exact .inl .call
    | after a h => exact (ih a h).imp_left (.after a)

/-- The calls under way at some point of some run from `root`, the innermost first. -/
inductive Stack (body : S.Call → Prog S S.Ans) (root : S.Call) : List S.Call → Prop
  | root : Stack body root [root]
  | call {c d : S.Call} {cs : List S.Call} : Stack body root (c :: cs) → Makes (body c) d →
      Stack body root (d :: c :: cs)

/-- What holds of the first call and is kept by every call holds of all calls under way. -/
theorem Stack.holds {body : S.Call → Prog S S.Ans} {root : S.Call}
    {P : S.Call → List S.Call → Prop} (hroot : P root [])
    (hcall : ∀ {c d : S.Call} {cs : List S.Call}, P c cs → Makes (body c) d → P d (c :: cs))
    {c : S.Call} {cs : List S.Call} (h : Stack body root (c :: cs)) : P c cs := by
  generalize hl : c :: cs = calls at h
  induction h generalizing c cs with
  | root =>
    obtain ⟨rfl, rfl⟩ := List.cons.inj hl
    exact hroot
  | call _ hm ih =>
    obtain ⟨rfl, rfl⟩ := List.cons.inj hl
    exact hcall (ih rfl) hm

/-- A program runs to its end if every call it makes does. -/
theorem interpretWith_isSome {σ : Type} {F : σ → (o : S.Op) → S.Resp o × σ}
    {call : σ → S.Call → Option (S.Ans × σ)} {p : Prog S α}
    (h : ∀ c, Makes p c → ∀ s, (call s c).isSome = true) (s : σ) :
    (interpretWith F call s p).isSome = true := by
  induction p generalizing s with
  | ret a => rfl
  | op o k ih => exact ih _ (fun c hc => h c (.op _ hc)) _
  | call c k ih =>
    obtain ⟨r, hr⟩ := Option.isSome_iff_exists.mp (h c .call s)
    rw [interpretWith, hr]
    exact ih _ (fun d hd => h d (.after _ hd)) _

/-- Where every operation has one response, a program has one result. -/
theorem Evals.unique {body : S.Call → Prog S S.Ans} (hresp : ∀ o, Subsingleton (S.Resp o))
    {p : Prog S α} {tr tr' : List (Event S)} {a a' : α} (h : Evals body p tr a)
    (h' : Evals body p tr' a') : a = a' := by
  induction h generalizing tr' with
  | ret a => exact (evals_ret.mp h').2.symm
  | op r _ ih =>
    obtain ⟨r', tr'', -, h'⟩ := evals_op.mp h'
    obtain rfl := (hresp _).elim r r'
    exact ih h'
  | call _ _ ihc ih =>
    obtain ⟨tr₁, b, tr₂, -, h₁, h₂⟩ := evals_call.mp h'
    obtain rfl := ihc h₁
    exact ih h₂

/-- There it has one run. -/
theorem Evals.unique_events {body : S.Call → Prog S S.Ans}
    (hresp : ∀ o, Subsingleton (S.Resp o)) {p : Prog S α} {tr tr' : List (Event S)} {a a' : α}
    (h : Evals body p tr a) (h' : Evals body p tr' a') : tr = tr' ∧ a = a' := by
  induction h generalizing tr' with
  | ret a =>
    obtain ⟨rfl, rfl⟩ := evals_ret.mp h'
    exact ⟨rfl, rfl⟩
  | op r _ ih =>
    obtain ⟨r', tr'', rfl, hk⟩ := evals_op.mp h'
    obtain rfl := (hresp _).elim r r'
    obtain ⟨rfl, rfl⟩ := ih hk
    exact ⟨rfl, rfl⟩
  | call _ _ ihc ih =>
    obtain ⟨tr₁, b, tr₂, rfl, hc, hk⟩ := evals_call.mp h'
    obtain ⟨rfl, rfl⟩ := ihc hc
    obtain ⟨rfl, rfl⟩ := ih hk
    exact ⟨rfl, rfl⟩

end Nesting

section Agreement

variable {S : Sig} {σ : Type} (H H' : Handler S σ) (Q : S.Call → Prop)

/-- Every operation a run of `p` under `H` asks for is one both handlers step alike, and every call
it makes meets `Q`. -/
def Alike {α : Type} : Prog S α → Prop
  | .ret _ => True
  | .op o k => (∀ s r s', H s o r s' ↔ H' s o r s') ∧ ∀ r, (∃ s s', H s o r s') → Alike (k r)
  | .call c k => Q c ∧ ∀ a, Alike (k a)

variable {H H' Q} {α β : Type}

theorem Alike.bind {p : Prog S α} {f : α → Prog S β} (hp : Alike H H' Q p)
    (hf : ∀ a, Alike H H' Q (f a)) : Alike H H' Q (p >>= f) := by
  induction p with
  | ret a => exact hf a
  | op o k ih => exact ⟨hp.1, fun r hr => ih r (hp.2 r hr)⟩
  | call c k ih => exact ⟨hp.1, fun a => ih a (hp.2 a)⟩

variable {body : S.Call → Prog S S.Ans}

/-- The events of such a run take both handlers through the same states. -/
theorem Evals.runs_iff (hbody : ∀ c, Q c → Alike H H' Q (body c)) {p : Prog S α}
    {tr : List (Event S)} {a : α} (he : Evals body p tr a) (hp : Alike H H' Q p) (s s' : σ) :
    Runs H s tr s' ↔ Runs H' s tr s' := by
  induction he generalizing s s' with
  | ret a =>
    constructor
    · rintro ⟨⟩
      exact .nil s
    · rintro ⟨⟩
      exact .nil s
  | op r _ ih =>
    constructor
    · rintro (_ | ⟨ho, hr⟩)
      exact .cons ((hp.1 _ _ _).mp ho) ((ih (hp.2 r ⟨_, _, ho⟩) _ _).mp hr)
    · rintro (_ | ⟨ho, hr⟩)
      have ho := (hp.1 _ _ _).mpr ho
      exact .cons ho ((ih (hp.2 r ⟨_, _, ho⟩) _ _).mpr hr)
  | call _ _ ih₁ ih₂ =>
    rw [runs_append, runs_append]
    constructor
    · rintro ⟨s₁, h₁, h₂⟩
      exact ⟨s₁, (ih₁ (hbody _ hp.1) _ _).mp h₁, (ih₂ (hp.2 _) _ _).mp h₂⟩
    · rintro ⟨s₁, h₁, h₂⟩
      exact ⟨s₁, (ih₁ (hbody _ hp.1) _ _).mpr h₁, (ih₂ (hp.2 _) _ _).mpr h₂⟩

/-- Such a program has the same executions under both handlers. -/
theorem Alike.exec_iff (hbody : ∀ c, Q c → Alike H H' Q (body c)) {p : Prog S α}
    (hp : Alike H H' Q p) {s s' : σ} {a : α} : Exec H body s p a s' ↔ Exec H' body s p a s' := by
  constructor
  · rintro ⟨tr, he, hr⟩
    exact ⟨tr, he, (he.runs_iff hbody hp s s').mp hr⟩
  · rintro ⟨tr, he, hr⟩
    exact ⟨tr, he, (he.runs_iff hbody hp s s').mpr hr⟩

end Agreement

end Interaction
