import MultiSource.Lib.Program

/-!
# Pools of threads

Any number of threads run programs against one shared state, one operation at a time and in any
order. A thread is a stack of frames: the frame on top runs, each frame below waits for the answer
of the one above it. While an operation of foreign code is pending (a callback), that code may
itself make calls.

Every frame carries a note, which the programs cannot read: `enter` writes it, `mark` updates it
at each operation of the frame, `tell` at each operation of the frame it waits for. Notes are what
statements about runs speak of. `Wp` checks a program against the notes it will carry, and
`Reached.typed` makes that check hold in every state of every thread.
-/

namespace Interaction

/-- The notes kept on frames. -/
structure Instrument (S : Sig) where
  Note : Type
  enter : Option Note → S.Call → Note
  mark : Note → (o : S.Op) → S.Resp o → Note
  tell : Note → (o : S.Op) → S.Resp o → Note

variable {S : Sig}

/-- `m` is `n` after some operations of the frames above it. -/
def Instrument.Tells (I : Instrument S) : I.Note → I.Note → Prop :=
  Relation.ReflTransGen fun n m => ∃ o r, m = I.tell n o r

/-- A thread: the call it was started with, the running frame, the waiting frames from the top
down, and its operations so far with the notes they were made under. -/
structure Thread (I : Instrument S) where
  root : S.Call
  note : I.Note
  prog : Prog S S.Ans
  callers : List (I.Note × (S.Ans → Prog S S.Ans))
  trace : List (I.Note × Event S)

namespace Thread

variable {I : Instrument S}

/-- The notes of all frames, from the top down. -/
def notes (t : Thread I) : List I.Note := t.note :: t.callers.map Prod.fst

/-- The thread has ended with answer `a`. -/
def Done (t : Thread I) (a : S.Ans) : Prop := t.prog = .ret a ∧ t.callers = []

def ended (t : Thread I) : Bool :=
  match t.prog, t.callers with
  | .ret _, [] => true
  | _, _ => false

/-- The operations of the thread, in order. -/
def events (t : Thread I) : List (Event S) := t.trace.map Prod.snd

theorem filterMap_events_snoc {β : Type} (f : Event S → Option β) (t : Thread I) {t' : Thread I}
    {n : I.Note} {e : Event S} (h : t'.trace = t.trace ++ [(n, e)]) :
    t'.events.filterMap f = t.events.filterMap f ++ (f e).toList := by
  rw [events, h, List.map_append, List.filterMap_append, List.map_cons, List.map_nil,
    filterMap_cons_toList, List.filterMap_nil, List.append_nil]
  rfl

end Thread

/-- What a pool runs: the bodies, the handler of the shared state, the calls foreign code may make
while an operation is pending, and the calls a thread may start with. -/
structure System (S : Sig) (σ : Type) where
  body : S.Call → Prog S S.Ans
  handler : Handler S σ
  mayCall : S.Op → S.Call → Prop
  top : S.Call → Prop

variable {I : Instrument S} {σ : Type}

/-- A waiting stack hears of an operation of the running frame. -/
def hear (o : S.Op) (r : S.Resp o) :
    List (I.Note × (S.Ans → Prog S S.Ans)) → List (I.Note × (S.Ans → Prog S S.Ans))
  | [] => []
  | (m, k) :: cs => (I.tell m o r, k) :: cs

@[simp] theorem hear_map_snd (o : S.Op) (r : S.Resp o)
    (cs : List (I.Note × (S.Ans → Prog S S.Ans))) :
    (hear o r cs).map Prod.snd = cs.map Prod.snd := by
  cases cs <;> rfl

variable (M : System S σ)

/-- One step of one thread. -/
inductive Moves : σ → Thread I → σ → Thread I → Prop
  | op {s s' : σ} {c : S.Call} {n : I.Note} {o : S.Op} {k : S.Resp o → Prog S S.Ans}
      {cs : List (I.Note × (S.Ans → Prog S S.Ans))} {tr : List (I.Note × Event S)}
      {r : S.Resp o} : M.handler s o r s' →
      Moves s ⟨c, n, .op o k, cs, tr⟩ s' ⟨c, I.mark n o r, k r, hear o r cs, tr ++ [(n, ⟨o, r⟩)]⟩
  | call {s : σ} {c d : S.Call} {n : I.Note} {k : S.Ans → Prog S S.Ans}
      {cs : List (I.Note × (S.Ans → Prog S S.Ans))} {tr : List (I.Note × Event S)} :
      Moves s ⟨c, n, .call d k, cs, tr⟩ s ⟨c, I.enter (some n) d, M.body d, (n, k) :: cs, tr⟩
  | reenter {s : σ} {c d : S.Call} {n : I.Note} {o : S.Op} {k : S.Resp o → Prog S S.Ans}
      {cs : List (I.Note × (S.Ans → Prog S S.Ans))} {tr : List (I.Note × Event S)} :
      M.mayCall o d →
      Moves s ⟨c, n, .op o k, cs, tr⟩ s
        ⟨c, I.enter (some n) d, M.body d, (n, fun _ => .op o k) :: cs, tr⟩
  | ret {s : σ} {c : S.Call} {n m : I.Note} {a : S.Ans} {k : S.Ans → Prog S S.Ans}
      {cs : List (I.Note × (S.Ans → Prog S S.Ans))} {tr : List (I.Note × Event S)} :
      Moves s ⟨c, n, .ret a, (m, k) :: cs, tr⟩ s ⟨c, m, k a, cs, tr⟩

/-- The thread a top-level call starts. -/
def Thread.start (I : Instrument S) (c : S.Call) : Thread I :=
  ⟨c, I.enter none c, M.body c, [], []⟩

/-- The states of a thread, whatever happens to the shared state between its steps. -/
inductive Thread.Reached : Thread I → Prop
  | start {c : S.Call} : M.top c → Reached (Thread.start M I c)
  | moves {s s' : σ} {t t' : Thread I} : Reached t → Moves M s t s' t' → Reached t'

/-- The shared state with the threads started so far, the ended ones included. -/
structure Pool (I : Instrument S) (σ : Type) where
  shared : σ
  threads : List (Thread I)

/-- One step of a pool: a thread starts, or one takes a step. -/
inductive Pool.Step : Pool I σ → Pool I σ → Prop
  | start {s : σ} {ts : List (Thread I)} {c : S.Call} : M.top c →
      Step ⟨s, ts⟩ ⟨s, ts ++ [Thread.start M I c]⟩
  | run {s s' : σ} {ts₁ ts₂ : List (Thread I)} {t t' : Thread I} : Moves M s t s' t' →
      Step ⟨s, ts₁ ++ t :: ts₂⟩ ⟨s', ts₁ ++ t' :: ts₂⟩

/-- The states of the runs from `s₀` whose steps all meet `C`. -/
inductive Pool.ReachableBy (C : Pool I σ → Pool I σ → Prop) (s₀ : σ) : Pool I σ → Prop
  | init : ReachableBy C s₀ ⟨s₀, []⟩
  | step {p q : Pool I σ} : ReachableBy C s₀ p → Pool.Step M p q → C p q → ReachableBy C s₀ q

/-- The states of all runs from `s₀`. -/
abbrev Pool.Reachable (s₀ : σ) : Pool I σ → Prop := Pool.ReachableBy M (fun _ _ => True) s₀

/-! ## Checking programs against notes -/

/-- What a frame may do under a note, and the notes it may end under. -/
structure Guard (I : Instrument S) where
  allow : I.Note → S.Op → Prop
  allowCall : I.Note → S.Call → Prop
  final : I.Note → Prop

/-- The notes a frame can carry when its pending operation `o` is answered: foreign code may have
made calls in between. -/
def Heard (o : S.Op) (n m : I.Note) : Prop := m = n ∨ (∃ c, M.mayCall o c) ∧ I.Tells n m

variable {M} in
theorem Heard.refl (o : S.Op) (n : I.Note) : Heard M o n n := .inl rfl

/-- Under note `n`, everything `p` does is allowed, and it ends in `post`. -/
def Wp (G : Guard I) {α : Type} (post : I.Note → α → Prop) : Prog S α → I.Note → Prop
  | .ret a, n => post n a
  | .op o k, n => ∀ m, Heard M o n m → G.allow m o ∧ ∀ r, Wp G post (k r) (I.mark m o r)
  | .call c k, n => G.allowCall n c ∧ ∀ a m, I.Tells n m → Wp G post (k a) m

section Rules

variable {M} {G : Guard I} {α β : Type}

@[simp] theorem wp_ret {post : I.Note → α → Prop} {a : α} {n : I.Note} :
    Wp M G post (.ret a) n ↔ post n a := Iff.rfl

theorem wp_op {post : I.Note → α → Prop} {o : S.Op} {k : S.Resp o → Prog S α} {n : I.Note} :
    Wp M G post (.op o k) n ↔
      ∀ m, Heard M o n m → G.allow m o ∧ ∀ r, Wp M G post (k r) (I.mark m o r) := Iff.rfl

theorem wp_call {post : I.Note → α → Prop} {c : S.Call} {k : S.Ans → Prog S α} {n : I.Note} :
    Wp M G post (.call c k) n ↔
      G.allowCall n c ∧ ∀ a m, I.Tells n m → Wp M G post (k a) m := Iff.rfl

theorem wp_bind {post : I.Note → β → Prop} {p : Prog S α} {f : α → Prog S β} {n : I.Note} :
    Wp M G post (p >>= f) n ↔ Wp M G (fun m a => Wp M G post (f a) m) p n := by
  induction p generalizing n with
  | ret a => exact Iff.rfl
  | op o k ih =>
    rw [Prog.op_bind, wp_op, wp_op]
    simp only [ih]
  | call c k ih =>
    rw [Prog.call_bind, wp_call, wp_call]
    simp only [ih]

theorem Wp.mono {post post' : I.Note → α → Prop} {p : Prog S α} {n : I.Note}
    (h : Wp M G post p n) (hp : ∀ m a, post m a → post' m a) : Wp M G post' p n := by
  induction p generalizing n with
  | ret a => exact hp n a h
  | op o k ih => exact fun m hm => ⟨(h m hm).1, fun r => ih r ((h m hm).2 r)⟩
  | call c k ih => exact ⟨h.1, fun a m hm => ih a (h.2 a m hm)⟩

/-- An operation no foreign code runs under. -/
theorem wp_op_of_closed {post : I.Note → α → Prop} {o : S.Op} {k : S.Resp o → Prog S α}
    {n : I.Note} (ho : ∀ c, ¬ M.mayCall o c) (ha : G.allow n o)
    (hk : ∀ r, Wp M G post (k r) (I.mark n o r)) : Wp M G post (.op o k) n := by
  rintro m (rfl | ⟨⟨c, hc⟩, -⟩)
  · exact ⟨ha, hk⟩
  · exact absurd hc (ho c)

end Rules

/-- Every body keeps to the guard under the note it is entered with. -/
structure Guarded (G : Guard I) : Prop where
  top : ∀ c, M.top c → Wp M G (fun n _ => G.final n) (M.body c) (I.enter none c)
  call : ∀ n c, G.allowCall n c → Wp M G (fun n _ => G.final n) (M.body c) (I.enter (some n) c)
  foreign : ∀ n o c, G.allow n o → M.mayCall o c →
    Wp M G (fun n _ => G.final n) (M.body c) (I.enter (some n) c)

/-- All frames of a thread keep to the guard for the rest of their run. -/
structure Typed (G : Guard I) (t : Thread I) : Prop where
  running : Wp M G (fun n _ => G.final n) t.prog t.note
  waiting : ∀ f ∈ t.callers, ∀ a m, I.Tells f.1 m → Wp M G (fun n _ => G.final n) (f.2 a) m

section Typing

variable {M} {G : Guard I}

theorem Typed.start (hG : Guarded M G) {c : S.Call} (hc : M.top c) :
    Typed M G (Thread.start M I c) :=
  ⟨hG.top c hc, fun _ hf => absurd hf List.not_mem_nil⟩

theorem Wp.reenter {o : S.Op} {k : S.Resp o → Prog S S.Ans} {n m : I.Note} {c : S.Call}
    {post : I.Note → S.Ans → Prop} (h : Wp M G post (.op o k) n) (hc : M.mayCall o c)
    (hm : I.Tells n m) : Wp M G post (.op o k) m := by
  rintro m' (rfl | ⟨-, hm'⟩)
  · exact h _ (.inr ⟨⟨c, hc⟩, hm⟩)
  · exact h m' (.inr ⟨⟨c, hc⟩, hm.trans hm'⟩)

theorem Typed.moves (hG : Guarded M G) {s s' : σ} {t t' : Thread I} (h : Moves M s t s' t')
    (ht : Typed M G t) : Typed M G t' := by
  cases h with
  | @op _ c n o k cs tr r _ =>
    refine ⟨(ht.running n (.refl o n)).2 r, ?_⟩
    cases cs with
    | nil => exact fun _ hf => absurd hf List.not_mem_nil
    | cons f cs =>
      intro g hg a m hm
      rcases List.mem_cons.mp hg with rfl | hg
      · exact ht.waiting f (List.mem_cons_self ..) a m (.head ⟨o, r, rfl⟩ hm)
      · exact ht.waiting g (List.mem_cons_of_mem _ hg) a m hm
  | @call c d n k cs tr =>
    refine ⟨hG.call n d ht.running.1, fun g hg => ?_⟩
    rcases List.mem_cons.mp hg with rfl | hg
    · exact ht.running.2
    · exact ht.waiting g hg
  | @reenter c d n o k cs tr hd =>
    refine ⟨hG.foreign n o d (ht.running n (.refl o n)).1 hd, fun g hg => ?_⟩
    rcases List.mem_cons.mp hg with rfl | hg
    · exact fun _ m hm => ht.running.reenter hd hm
    · exact ht.waiting g hg
  | @ret c n m a k cs tr =>
    exact ⟨ht.waiting _ (List.mem_cons_self ..) a m .refl,
      fun g hg => ht.waiting g (List.mem_cons_of_mem _ hg)⟩

theorem mem_replaced {α : Type} {l₁ l₂ : List α} {a b c : α} (h : c ∈ l₁ ++ b :: l₂) :
    c = b ∨ c ∈ l₁ ++ a :: l₂ := by
  rcases List.mem_append.mp h with h | h
  · exact .inr (List.mem_append_left _ h)
  · rcases List.mem_cons.mp h with h | h
    · exact .inl h
    · exact .inr (List.mem_append_right _ (List.mem_cons_of_mem _ h))

theorem Pool.ReachableBy.reached {C : Pool I σ → Pool I σ → Prop} {s₀ : σ} {p : Pool I σ}
    (hp : Pool.ReachableBy M C s₀ p) : ∀ t ∈ p.threads, Thread.Reached M t := by
  induction hp with
  | init => exact fun _ ht => absurd ht List.not_mem_nil
  | step _ hs _ ih =>
    cases hs with
    | start hc =>
      intro t ht
      rcases List.mem_append.mp ht with ht | ht
      · exact ih t ht
      · rw [List.mem_singleton.mp ht]
        exact .start hc
    | run hm =>
      intro t ht
      rcases mem_replaced ht with rfl | ht
      · exact .moves (ih _ (List.mem_append_right _ (List.mem_cons_self ..))) hm
      · exact ih t ht

/-- In every state of a thread, all its frames keep to the guard. -/
theorem Thread.Reached.typed (hG : Guarded M G) {t : Thread I} (ht : Thread.Reached M t) :
    Typed M G t := by
  induction ht with
  | start hc => exact .start hG hc
  | moves _ hm ih => exact ih.moves hG hm

/-- In every state of every run, all frames keep to the guard. -/
theorem Pool.ReachableBy.typed (hG : Guarded M G) {C : Pool I σ → Pool I σ → Prop} {s₀ : σ}
    {p : Pool I σ} (hp : Pool.ReachableBy M C s₀ p) : ∀ t ∈ p.threads, Typed M G t :=
  fun t ht => (hp.reached t ht).typed hG

/-- Every operation was allowed under the note it was made under. -/
theorem Thread.Reached.allowed (hG : Guarded M G) {t : Thread I} (ht : Thread.Reached M t) :
    ∀ e ∈ t.trace, G.allow e.1 e.2.1 := by
  induction ht with
  | start _ => exact fun _ he => absurd he List.not_mem_nil
  | moves ht hm ih =>
    cases hm with
    | @op _ _ n o _ _ _ r _ =>
      intro e he
      rcases List.mem_append.mp he with he | he
      · exact ih e he
      · rw [List.mem_singleton.mp he]
        exact ((ht.typed hG).running n (.refl o n)).1
    | call => exact ih
    | reenter _ => exact ih
    | ret => exact ih

/-- A property of notes that entering, marking and telling keep. -/
structure NoteRule (M : System S σ) (G : Guard I) (P : I.Note → Prop) : Prop where
  top : ∀ c, M.top c → P (I.enter none c)
  call : ∀ n c, P n → G.allowCall n c → P (I.enter (some n) c)
  foreign : ∀ n o c, P n → G.allow n o → M.mayCall o c → P (I.enter (some n) c)
  mark : ∀ n o r, P n → G.allow n o → P (I.mark n o r)
  tell : ∀ n o r, P n → P (I.tell n o r)

theorem mem_hear {o : S.Op} {r : S.Resp o} {cs : List (I.Note × (S.Ans → Prog S S.Ans))}
    {n : I.Note} (hn : n ∈ (hear o r cs).map Prod.fst) :
    n ∈ cs.map Prod.fst ∨ ∃ m ∈ cs.map Prod.fst, n = I.tell m o r := by
  cases cs with
  | nil => exact .inl hn
  | cons f cs =>
    rcases List.mem_cons.mp hn with rfl | hn
    · exact .inr ⟨f.1, List.mem_cons_self .., rfl⟩
    · exact .inl (List.mem_cons_of_mem _ hn)

theorem NoteRule.notes (hG : Guarded M G) {P : I.Note → Prop} (hP : NoteRule M G P)
    {t : Thread I} (ht : Thread.Reached M t) : (∀ n ∈ t.notes, P n) ∧ ∀ e ∈ t.trace, P e.1 := by
  induction ht with
  | start hc =>
    refine ⟨fun n hn => ?_, fun _ he => absurd he List.not_mem_nil⟩
    rw [List.mem_singleton.mp hn]
    exact hP.top _ hc
  | moves ht hm ih =>
    obtain ⟨hn, he⟩ := ih
    have hrunning := (ht.typed hG).running
    cases hm with
    | @op _ _ n o _ cs _ r _ =>
      have hself : P n := hn n (List.mem_cons_self ..)
      refine ⟨fun m hm => ?_, fun e hm => ?_⟩
      · rcases List.mem_cons.mp hm with rfl | hm
        · exact hP.mark n o r hself (hrunning n (.refl o n)).1
        · rcases mem_hear hm with hm' | ⟨m', hm', rfl⟩
          · exact hn m (List.mem_cons_of_mem _ hm')
          · exact hP.tell m' o r (hn m' (List.mem_cons_of_mem _ hm'))
      · rcases List.mem_append.mp hm with hm | hm
        · exact he e hm
        · rw [List.mem_singleton.mp hm]
          exact hself
    | @call _ d n k cs _ =>
      refine ⟨fun m hm => ?_, he⟩
      rcases List.mem_cons.mp hm with rfl | hm
      · exact hP.call n d (hn n (List.mem_cons_self ..)) hrunning.1
      · exact hn m hm
    | @reenter _ d n o k cs _ hd =>
      refine ⟨fun m hm => ?_, he⟩
      rcases List.mem_cons.mp hm with rfl | hm
      · exact hP.foreign n o d (hn n (List.mem_cons_self ..)) (hrunning n (.refl o n)).1 hd
      · exact hn m hm
    | ret => exact ⟨fun m hm => hn m (List.mem_cons_of_mem _ hm), he⟩

/-- A relation between a frame and the one that waits for it. -/
structure StackRule (M : System S σ) (G : Guard I) (R : I.Note → I.Note → Prop) : Prop where
  call : ∀ n c, G.allowCall n c → R (I.enter (some n) c) n
  foreign : ∀ n o c, G.allow n o → M.mayCall o c → R (I.enter (some n) c) n
  op : ∀ n m o r, R n m → R (I.mark n o r) (I.tell m o r)
  below : ∀ m m' o r, R m m' → R (I.tell m o r) m'

theorem StackRule.stacked (hG : Guarded M G) {R : I.Note → I.Note → Prop} (hR : StackRule M G R)
    {t : Thread I} (ht : Thread.Reached M t) : t.notes.IsChain R := by
  induction ht with
  | start _ => exact .singleton _
  | moves ht hm ih =>
    have hrunning := (ht.typed hG).running
    cases hm with
    | @op _ _ n o _ cs _ r _ =>
      cases cs with
      | nil => exact .singleton _
      | cons f cs =>
        obtain ⟨hf, hc⟩ := List.isChain_cons_cons.mp ih
        refine List.isChain_cons_cons.mpr ⟨hR.op _ _ _ _ hf, ?_⟩
        cases cs with
        | nil => exact .singleton _
        | cons g cs =>
          obtain ⟨hg, hc⟩ := List.isChain_cons_cons.mp hc
          exact List.isChain_cons_cons.mpr ⟨hR.below _ _ _ _ hg, hc⟩
    | @call _ d n k cs _ => exact List.isChain_cons_cons.mpr ⟨hR.call n d hrunning.1, ih⟩
    | @reenter _ d n o k cs _ hd =>
      exact List.isChain_cons_cons.mpr ⟨hR.foreign n o d (hrunning n (.refl o n)).1 hd, ih⟩
    | ret => exact (List.isChain_cons_cons.mp ih).2

/-- A property of the note of a thread's first frame. -/
theorem Thread.Reached.bottom {P : I.Note → Prop} (htop : ∀ c, M.top c → P (I.enter none c))
    (hmark : ∀ n o r, P n → P (I.mark n o r)) (htell : ∀ n o r, P n → P (I.tell n o r))
    {t : Thread I} (ht : Thread.Reached M t) : ∀ n ∈ t.notes.getLast?, P n := by
  induction ht with
  | @start c hc =>
    intro n hn
    obtain rfl : I.enter none c = n := by simpa [Thread.start, Thread.notes] using hn
    exact htop c hc
  | moves _ hm ih =>
    cases hm with
    | @op _ _ n o _ cs _ r _ =>
      cases cs with
      | nil =>
        intro m hm
        obtain rfl : I.mark n o r = m := by simpa [hear, Thread.notes] using hm
        exact hmark n o r (ih n rfl)
      | cons f cs =>
        cases cs with
        | nil =>
          intro m hm
          obtain rfl : I.tell f.1 o r = m := by simpa [hear, Thread.notes] using hm
          exact htell f.1 o r (ih f.1 rfl)
        | cons g cs => exact ih
    | call => exact ih
    | reenter _ => exact ih
    | ret => exact ih

/-- A thread keeps the call it was started with. -/
theorem Thread.Reached.top {t : Thread I} (ht : Thread.Reached M t) : M.top t.root := by
  induction ht with
  | start hc => exact hc
  | moves _ hm ih => cases hm <;> exact ih

end Typing

/-! ## What an ended thread ran -/

section Ended

variable {M}

/-- The running program with its waiting frames can end in `a` after the events `tr`. -/
inductive Resumes (body : S.Call → Prog S S.Ans) : Prog S S.Ans →
    List (I.Note × (S.Ans → Prog S S.Ans)) → List (Event S) → S.Ans → Prop
  | last {p : Prog S S.Ans} {tr : List (Event S)} {a : S.Ans} : Evals body p tr a →
      Resumes body p [] tr a
  | up {p : Prog S S.Ans} {m : I.Note} {k : S.Ans → Prog S S.Ans}
      {cs : List (I.Note × (S.Ans → Prog S S.Ans))} {tr₁ tr₂ : List (Event S)} {b a : S.Ans} :
      Evals body p tr₁ b → Resumes body (k b) cs tr₂ a →
      Resumes body p ((m, k) :: cs) (tr₁ ++ tr₂) a

theorem Resumes.op {body : S.Call → Prog S S.Ans} {o : S.Op} {k : S.Resp o → Prog S S.Ans}
    {cs : List (I.Note × (S.Ans → Prog S S.Ans))} {r : S.Resp o} {tr : List (Event S)}
    {a : S.Ans} (h : Resumes body (k r) (hear o r cs) tr a) :
    Resumes body (.op o k) cs (⟨o, r⟩ :: tr) a := by
  cases cs with
  | nil =>
    cases h with
    | last h => exact .last (.op r h)
  | cons f cs =>
    cases h with
    | up h₁ h₂ => exact .up (.op r h₁) h₂

theorem Resumes.call {body : S.Call → Prog S S.Ans} {d : S.Call} {k : S.Ans → Prog S S.Ans}
    {n : I.Note} {cs : List (I.Note × (S.Ans → Prog S S.Ans))} {tr : List (Event S)} {a : S.Ans}
    (h : Resumes body (body d) ((n, k) :: cs) tr a) : Resumes body (.call d k) cs tr a := by
  cases h with
  | up h₁ h₂ =>
    cases h₂ with
    | last h => exact .last (.call h₁ h)
    | up h₃ h₄ =>
      rw [← List.append_assoc]
      exact .up (.call h₁ h₃) h₄

theorem Moves.resumes (hM : ∀ o c, ¬ M.mayCall o c) {s s' : σ} {t t' : Thread I}
    (h : Moves M s t s' t')
    (ht : ∀ tr a, Resumes M.body t.prog t.callers tr a →
      Evals M.body (M.body t.root) (t.events ++ tr) a) :
    ∀ tr a, Resumes M.body t'.prog t'.callers tr a →
      Evals M.body (M.body t'.root) (t'.events ++ tr) a := by
  intro tr a hr
  cases h with
  | op ho =>
    have h := ht _ a hr.op
    simpa [Thread.events] using h
  | call => exact ht tr a hr.call
  | reenter hd => exact absurd hd (hM _ _)
  | ret => exact ht tr a (.up (.ret _) hr)

/-- Where no foreign code makes calls, a thread that has ended ran its root to its answer, and its
events are those of that run. -/
theorem Thread.Reached.evals (hM : ∀ o c, ¬ M.mayCall o c) {t : Thread I}
    (ht : Thread.Reached M t) {a : S.Ans} (ha : t.Done a) :
    Evals M.body (M.body t.root) t.events a := by
  have key : ∀ tr a, Resumes M.body t.prog t.callers tr a →
      Evals M.body (M.body t.root) (t.events ++ tr) a := by
    clear ha
    induction ht with
    | start _ =>
      rintro tr a ⟨h⟩
      exact h
    | moves _ hm ih => exact hm.resumes hM ih
  have h := key [] a (by rw [ha.1, ha.2]; exact .last (.ret a))
  rwa [List.append_nil] at h

/-- A property of single events that the handler gives holds of all events of a thread. -/
theorem Thread.Reached.forall_events {P : Event S → Prop}
    (hP : ∀ s o r s', M.handler s o r s' → P ⟨o, r⟩) {t : Thread I} (ht : Thread.Reached M t) :
    ∀ e ∈ t.events, P e := by
  induction ht with
  | start _ => exact fun _ he => absurd he List.not_mem_nil
  | moves _ hm ih =>
    intro e he
    cases hm with
    | op ho =>
      simp only [Thread.events, List.map_append, List.mem_append] at he
      rcases he with he | he
      · exact ih e he
      · simp only [List.map_cons, List.map_nil, List.mem_singleton] at he
        exact he ▸ hP _ _ _ _ ho
    | call => exact ih e he
    | reenter hd => exact ih e he
    | ret => exact ih e he

end Ended

/-! ## Runs by schedule -/

section Schedule

variable (H : σ → (o : S.Op) → S.Resp o × σ)

/-- The step of a thread where the environment answers by `H`. -/
def Thread.turn (s : σ) : Thread I → Option (σ × Thread I)
  | ⟨c, n, .op o k, cs, tr⟩ =>
    some ((H s o).2, ⟨c, I.mark n o (H s o).1, k (H s o).1, hear o (H s o).1 cs,
      tr ++ [(n, ⟨o, (H s o).1⟩)]⟩)
  | ⟨c, n, .call d k, cs, tr⟩ => some (s, ⟨c, I.enter (some n) d, M.body d, (n, k) :: cs, tr⟩)
  | ⟨c, _, .ret a, (m, k) :: cs, tr⟩ => some (s, ⟨c, m, k a, cs, tr⟩)
  | ⟨_, _, .ret _, [], _⟩ => none

/-- The thread with number `i` takes its step, if it has one. -/
def Pool.turn (p : Pool I σ) (i : ℕ) : Pool I σ :=
  match p.threads[i]? with
  | none => p
  | some t =>
    match Thread.turn M H p.shared t with
    | none => p
    | some (s, t) => ⟨s, p.threads.set i t⟩

variable {M H}

theorem Thread.moves_of_turn (hH : ∀ s o, M.handler s o (H s o).1 (H s o).2) {s s' : σ}
    {t t' : Thread I} (h : Thread.turn M H s t = some (s', t')) : Moves M s t s' t' := by
  obtain ⟨c, n, p, cs, tr⟩ := t
  cases p with
  | ret a =>
    cases cs with
    | nil => simp [Thread.turn] at h
    | cons f cs =>
      simp only [Thread.turn, Option.some.injEq, Prod.mk.injEq] at h
      obtain ⟨rfl, rfl⟩ := h
      exact .ret
  | op o k =>
    simp only [Thread.turn, Option.some.injEq, Prod.mk.injEq] at h
    obtain ⟨rfl, rfl⟩ := h
    exact .op (hH s o)
  | call d k =>
    simp only [Thread.turn, Option.some.injEq, Prod.mk.injEq] at h
    obtain ⟨rfl, rfl⟩ := h
    exact .call

theorem Pool.step_or_eq_turn (hH : ∀ s o, M.handler s o (H s o).1 (H s o).2) (p : Pool I σ)
    (i : ℕ) : Pool.Step M p (Pool.turn M H p i) ∨ Pool.turn M H p i = p := by
  obtain ⟨s, ts⟩ := p
  unfold Pool.turn
  cases hi : ts[i]? with
  | none => exact .inr rfl
  | some t =>
    cases ht : Thread.turn M H s t with
    | none => exact .inr (by simp [ht])
    | some st =>
      obtain ⟨s', t'⟩ := st
      obtain ⟨hlt, he⟩ := List.getElem?_eq_some_iff.mp hi
      have hts : ts = ts.take i ++ t :: ts.drop (i + 1) := by
        rw [← he, List.getElem_cons_drop, List.take_append_drop]
      refine .inl ?_
      simp only [ht, List.set_eq_take_cons_drop _ hlt]
      conv_lhs => rw [hts]
      exact .run (Thread.moves_of_turn hH ht)

variable (M H) in
/-- All turns of a schedule meet `C`. -/
def Pool.Keeps (C : Pool I σ → Pool I σ → Prop) : Pool I σ → List ℕ → Prop
  | _, [] => True
  | p, i :: is => C p (Pool.turn M H p i) ∧ Keeps C (Pool.turn M H p i) is

instance Pool.Keeps.decidable {C : Pool I σ → Pool I σ → Prop} [∀ p q, Decidable (C p q)] :
    ∀ (p : Pool I σ) (schedule : List ℕ), Decidable (Pool.Keeps M H C p schedule)
  | _, [] => inferInstanceAs (Decidable True)
  | p, i :: is =>
    have := Pool.Keeps.decidable (C := C) (Pool.turn M H p i) is
    inferInstanceAs (Decidable (_ ∧ _))

/-- Turns in any order make a run. -/
theorem Pool.ReachableBy.turns (hH : ∀ s o, M.handler s o (H s o).1 (H s o).2) {s₀ : σ}
    {C : Pool I σ → Pool I σ → Prop} {p : Pool I σ} (hp : Pool.ReachableBy M C s₀ p)
    {schedule : List ℕ} (hC : Pool.Keeps M H C p schedule) :
    Pool.ReachableBy M C s₀ (schedule.foldl (Pool.turn M H) p) := by
  induction schedule generalizing p with
  | nil => exact hp
  | cons i schedule ih =>
    refine ih ?_ hC.2
    rcases Pool.step_or_eq_turn hH p i with hs | he
    · exact .step hp hs hC.1
    · rwa [he]

theorem Pool.keeps_trivial (p : Pool I σ) (schedule : List ℕ) :
    Pool.Keeps M H (fun _ _ => True) p schedule := by
  induction schedule generalizing p with
  | nil => exact trivial
  | cons i schedule ih => exact ⟨trivial, ih _⟩

end Schedule

/-! ## Runs of one thread -/

section Single

variable {M} {s₀ s s' : σ} {t : Thread I} {o : S.Op} {k : S.Resp o → Prog S S.Ans}

theorem Pool.ReachableBy.ask (hp : Pool.Reachable M s₀ ⟨s, [t]⟩) (ht : t.prog = .op o k)
    {r : S.Resp o} (ho : M.handler s o r s') :
    Pool.Reachable M s₀ ⟨s', [⟨t.root, I.mark t.note o r, k r, hear o r t.callers,
      t.trace ++ [(t.note, ⟨o, r⟩)]⟩]⟩ := by
  obtain ⟨c, n, p, cs, tr⟩ := t
  obtain rfl : p = .op o k := ht
  have hs : Pool.Step M ⟨s, [] ++ ⟨c, n, .op o k, cs, tr⟩ :: []⟩ _ := .run (.op ho)
  exact .step hp hs trivial

theorem Pool.ReachableBy.reenter (hp : Pool.Reachable M s₀ ⟨s, [t]⟩) (ht : t.prog = .op o k)
    {d : S.Call} (hd : M.mayCall o d) :
    Pool.Reachable M s₀ ⟨s, [⟨t.root, I.enter (some t.note) d, M.body d,
      (t.note, fun _ => .op o k) :: t.callers, t.trace⟩]⟩ := by
  obtain ⟨c, n, p, cs, tr⟩ := t
  obtain rfl : p = .op o k := ht
  have hs : Pool.Step M ⟨s, [] ++ ⟨c, n, .op o k, cs, tr⟩ :: []⟩ _ := .run (.reenter hd)
  exact .step hp hs trivial

end Single

/-! ## Threads whose runs are finite -/

section Finite

variable {M}

/-- One step of a thread, whatever the rest of the pool did to the shared state. -/
def Thread.Next (M : System S σ) (t' t : Thread I) : Prop := ∃ s s', Moves M s t s' t'

/-- No run from `p` over waiting frames `ks` is unbounded. -/
def Bounded (I : Instrument S) (M : System S σ) (ks : List (S.Ans → Prog S S.Ans))
    (p : Prog S S.Ans) : Prop :=
  ∀ (c : S.Call) (n : I.Note) (cs : List (I.Note × (S.Ans → Prog S S.Ans)))
    (tr : List (I.Note × Event S)), cs.map Prod.snd = ks →
      Acc (Thread.Next (I := I) M) ⟨c, n, p, cs, tr⟩

theorem bounded_ret_nil (a : S.Ans) : Bounded I M [] (.ret a) := by
  intro c n cs tr hcs
  rw [List.map_eq_nil_iff] at hcs
  subst hcs
  refine .intro _ fun t' ⟨s, s', h⟩ => ?_
  cases h

theorem bounded_ret_cons {k : S.Ans → Prog S S.Ans} {ks : List (S.Ans → Prog S S.Ans)}
    {a : S.Ans} (h : Bounded I M ks (k a)) : Bounded I M (k :: ks) (.ret a) := by
  intro c n cs tr hcs
  refine .intro _ fun t' ⟨s, s', hm⟩ => ?_
  cases hm with
  | ret =>
    rw [List.map_cons, List.cons.injEq] at hcs
    obtain ⟨rfl, hcs⟩ := hcs
    exact h _ _ _ _ hcs

theorem Halts.bounded (hM : ∀ o c, ¬ M.mayCall o c) {α : Type} {p : Prog S α}
    (hp : Halts M.body p) : ∀ (f : α → Prog S S.Ans) (ks : List (S.Ans → Prog S S.Ans)),
      (∀ a, Bounded I M ks (f a)) → Bounded I M ks (p >>= f) := by
  induction hp with
  | ret a => exact fun f ks hf => hf a
  | op _ ih =>
    intro f ks hf c n cs tr hcs
    refine .intro _ fun t' ⟨s, s', hm⟩ => ?_
    cases hm with
    | op ho => exact ih _ f ks hf _ _ _ _ (by rw [hear_map_snd, hcs])
    | reenter hd => exact absurd hd (hM _ _)
  | @call _ d k _ _ ihc ih =>
    intro f ks hf c n cs tr hcs
    refine .intro _ fun t' ⟨s, s', hm⟩ => ?_
    cases hm with
    | call =>
      have hb := ihc .ret ((fun a => k a >>= f) :: ks)
        fun a => bounded_ret_cons (ih a f ks hf)
      rw [Prog.bind_ret] at hb
      exact hb _ _ _ _ (by rw [List.map_cons, hcs]; rfl)

/-- A thread whose root halts takes finitely many steps, whatever the others do. -/
theorem Halts.finite (hM : ∀ o c, ¬ M.mayCall o c) {c : S.Call} (hc : Halts M.body (M.body c)) :
    ¬ ∃ f : ℕ → Thread I, f 0 = Thread.start M I c ∧ ∀ i, Thread.Next M (f (i + 1)) (f i) := by
  rintro ⟨f, h0, hf⟩
  have hb : Bounded I M [] (M.body c) := by
    have h := hc.bounded (I := I) hM .ret [] bounded_ret_nil
    rwa [Prog.bind_ret] at h
  have hacc : Acc (Thread.Next (I := I) M) (f 0) := h0 ▸ hb _ _ _ _ rfl
  have key : ∀ t, Acc (Thread.Next (I := I) M) t → ∀ i, f i ≠ t := by
    intro t ht
    induction ht with
    | intro t _ ih => exact fun i hi => ih (f (i + 1)) (hi ▸ hf i) (i + 1) rfl
  exact key _ hacc 0 rfl

end Finite

end Interaction
