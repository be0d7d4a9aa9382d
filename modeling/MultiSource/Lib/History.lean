import MultiSource.Lib.Pool

/-!
# Histories

A run of a pool with its operations in the order they were made, each with the number of the thread
that made it. A thread's own operations are its part of the history, and the shared state is what
the history leaves.
-/

namespace Interaction

variable {S : Sig} {I : Instrument S} {σ : Type} (M : System S σ)

/-- A step makes an operation, or none. -/
theorem Moves.events {M : System S σ} {s s' : σ} {t t' : Thread I} (h : Moves M s t s' t') :
    ∃ made, t'.events = t.events ++ made ∧ Runs M.handler s made s' := by
  cases h with
  | @op _ c n o k cs tr r ho =>
    refine ⟨[⟨o, r⟩], ?_, .cons ho (.nil _)⟩
    simp [Thread.events]
  | call => exact ⟨[], (List.append_nil _).symm, .nil _⟩
  | reenter => exact ⟨[], (List.append_nil _).symm, .nil _⟩
  | ret => exact ⟨[], (List.append_nil _).symm, .nil _⟩

/-- The runs from `s₀`, with their operations in order. -/
inductive Pool.History (s₀ : σ) : List (ℕ × Event S) → Pool I σ → Prop
  | init : History s₀ [] ⟨s₀, []⟩
  | start {es : List (ℕ × Event S)} {s : σ} {ts : List (Thread I)} {c : S.Call} :
      History s₀ es ⟨s, ts⟩ → M.top c → History s₀ es ⟨s, ts ++ [Thread.start M I c]⟩
  | run {es : List (ℕ × Event S)} {s s' : σ} {ts₁ ts₂ : List (Thread I)} {t t' : Thread I}
      {made : List (Event S)} : History s₀ es ⟨s, ts₁ ++ t :: ts₂⟩ → Moves M s t s' t' →
      t'.events = t.events ++ made →
      History s₀ (es ++ made.map (Prod.mk ts₁.length)) ⟨s', ts₁ ++ t' :: ts₂⟩

variable {M} {s₀ : σ} {es : List (ℕ × Event S)} {p : Pool I σ}

theorem Pool.History.reachable (h : Pool.History M s₀ es p) : Pool.Reachable M s₀ p := by
  induction h with
  | init => exact .init
  | start _ hc ih => exact .step ih (.start hc) trivial
  | run _ hm _ ih => exact .step ih (.run hm) trivial

theorem Pool.ReachableBy.history (h : Pool.Reachable M s₀ p) : ∃ es, Pool.History M s₀ es p := by
  induction h with
  | init => exact ⟨[], .init⟩
  | step _ hs _ ih =>
    obtain ⟨es, ih⟩ := ih
    cases hs with
    | start hc => exact ⟨es, ih.start hc⟩
    | run hm =>
      obtain ⟨made, hmade, -⟩ := hm.events
      exact ⟨_, ih.run hm hmade⟩

/-- The shared state is what the history leaves. -/
theorem Pool.History.runs (h : Pool.History M s₀ es p) :
    Runs M.handler s₀ (es.map Prod.snd) p.shared := by
  induction h with
  | init => exact .nil _
  | start _ _ ih => exact ih
  | run _ hm hmade ih =>
    obtain ⟨made, hmade', hruns⟩ := hm.events
    rw [List.append_cancel_left (hmade.symm.trans hmade'), List.map_append, List.map_map]
    exact runs_append.mpr ⟨_, ih, (List.map_id made).symm ▸ hruns⟩

/-- The part of a history that one thread made. -/
def partOf (i : ℕ) (es : List (ℕ × Event S)) : List (Event S) :=
  (es.filter fun e => e.1 = i).map Prod.snd

theorem partOf_append (i : ℕ) (es es' : List (ℕ × Event S)) :
    partOf i (es ++ es') = partOf i es ++ partOf i es' := by
  rw [partOf, List.filter_append, List.map_append]
  rfl

theorem partOf_made (i j : ℕ) (made : List (Event S)) :
    partOf i (made.map (Prod.mk j)) = if j = i then made else [] := by
  unfold partOf
  split_ifs with h
  · subst h
    induction made with
    | nil => rfl
    | cons e made ih => simpa using ih
  · rw [List.map_eq_nil_iff, List.filter_eq_nil_iff]
    intro e he
    obtain ⟨e', -, rfl⟩ := List.mem_map.mp he
    exact fun hj => h (of_decide_eq_true hj)

/-- A thread made what the history has under its number, and nothing is under a number that no
thread has. -/
theorem Pool.History.partOf (h : Pool.History M s₀ es p) (i : ℕ) :
    Interaction.partOf i es = (p.threads[i]?.map Thread.events).getD [] := by
  induction h with
  | init => rfl
  | @start es s ts c _ _ ih =>
    rw [ih]
    rcases Nat.lt_trichotomy i ts.length with hi | rfl | hi
    · rw [List.getElem?_append_left hi]
    · simp [Thread.start, Thread.events]
    · rw [List.getElem?_eq_none (Nat.le_of_lt hi),
        List.getElem?_eq_none (by simpa using Nat.succ_le_of_lt hi)]
  | @run es s s' ts₁ ts₂ t t' made _ _ hmade ih =>
    rw [partOf_append, partOf_made, ih]
    rcases Nat.lt_trichotomy i ts₁.length with hi | rfl | hi
    · rw [List.getElem?_append_left hi, List.getElem?_append_left hi, if_neg (by omega),
        List.append_nil]
    · simp [hmade]
    · have hcons {u : Thread I} : (ts₁ ++ u :: ts₂)[i]? = ts₂[i - ts₁.length - 1]? := by
        rw [List.getElem?_append_right (Nat.le_of_lt hi), List.getElem?_cons, if_neg (by omega)]
      rw [hcons, hcons, if_neg (by omega), List.append_nil]

/-! ## Programs that call nothing -/

/-- A program that makes no calls. -/
def Prog.Plain {α : Type} : Prog S α → Prop
  | .ret _ => True
  | .op _ k => ∀ r, (k r).Plain
  | .call _ _ => False

/-- What is left of a program after some events. -/
inductive Prog.Follows {α : Type} : Prog S α → List (Event S) → Prog S α → Prop
  | nil (p : Prog S α) : Follows p [] p
  | op {o : S.Op} {k : S.Resp o → Prog S α} {r : S.Resp o} {es : List (Event S)} {q : Prog S α} :
      Follows (k r) es q → Follows (.op o k) (⟨o, r⟩ :: es) q

theorem follows_nil {α : Type} {p q : Prog S α} : p.Follows [] q ↔ q = p := by
  constructor
  · rintro ⟨⟩
    rfl
  · rintro rfl
    exact .nil _

theorem follows_op {α : Type} {o : S.Op} {k : S.Resp o → Prog S α} {r : S.Resp o}
    {es : List (Event S)} {q : Prog S α} :
    (Prog.op o k).Follows (⟨o, r⟩ :: es) q ↔ (k r).Follows es q := by
  constructor
  · rintro ⟨⟩
    assumption
  · exact .op

/-- The operation a program asks for first. -/
def Prog.head {α : Type} : Prog S α → Option S.Op
  | .op o _ => some o
  | _ => none

/-- The operation asked for next. -/
theorem Prog.Follows.head_eq {α : Type} {p : Prog S α} {o o' : S.Op} {k : S.Resp o → Prog S α}
    (h : p.Follows [] (.op o k)) (hp : p.head = some o') : o = o' := by
  obtain rfl := follows_nil.mp h
  exact Option.some.inj hp

theorem Prog.Follows.snoc {α : Type} {p : Prog S α} {es : List (Event S)} {o : S.Op}
    {k : S.Resp o → Prog S α} (h : p.Follows es (.op o k)) (r : S.Resp o) :
    p.Follows (es ++ [⟨o, r⟩]) (k r) := by
  generalize hq : Prog.op o k = q at h
  induction h with
  | nil p =>
    subst hq
    exact .op (.nil _)
  | op _ ih => exact .op (ih hq)

theorem Prog.Follows.plain {α : Type} {p q : Prog S α} {es : List (Event S)}
    (h : p.Follows es q) (hp : p.Plain) : q.Plain := by
  induction h with
  | nil p => exact hp
  | op _ ih => exact ih (hp _)

/-- Where no program calls and no foreign code does, a thread is its first frame all along: it is
at what is left of its body after its events. -/
theorem Thread.Reached.follows (hM : ∀ o c, ¬ M.mayCall o c) (hplain : ∀ c, (M.body c).Plain)
    {t : Thread I} (ht : Thread.Reached M t) :
    t.callers = [] ∧ (M.body t.root).Follows t.events t.prog := by
  induction ht with
  | start _ => exact ⟨rfl, .nil _⟩
  | moves _ hm ih =>
    obtain ⟨hcallers, hfollows⟩ := ih
    cases hm with
    | @op _ c n o k cs tr r ho =>
      obtain rfl : cs = [] := hcallers
      refine ⟨rfl, ?_⟩
      have h := hfollows.snoc r
      simpa [Thread.events] using h
    | call => exact (hfollows.plain (hplain _)).elim
    | reenter hd => exact absurd hd (hM _ _)
    | ret => cases hcallers

/-- The last thread can run to its end while the others rest. -/
theorem Pool.History.finish {t : Thread I} {ts : List (Thread I)} {s s' : σ} {tr : List (Event S)}
    {a : S.Ans} (h : Pool.History M s₀ es ⟨s, ts ++ [t]⟩) (hcallers : t.callers = [])
    (hplain : t.prog.Plain) (he : Evals M.body t.prog tr a) (hr : Runs M.handler s tr s') :
    ∃ t', Pool.History M s₀ (es ++ tr.map (Prod.mk ts.length)) ⟨s', ts ++ [t']⟩ ∧
      t'.root = t.root ∧ t'.Done a := by
  obtain ⟨c, n, p, cs, trace⟩ := t
  obtain rfl : cs = [] := hcallers
  induction tr generalizing s n p trace es with
  | nil =>
    cases hr
    cases p with
    | ret b =>
      obtain ⟨-, rfl⟩ := evals_ret.mp he
      rw [List.map_nil, List.append_nil]
      exact ⟨_, h, rfl, rfl, rfl⟩
    | op o k =>
      obtain ⟨r, tr', htr, -⟩ := evals_op.mp he
      cases htr
    | call d k => exact hplain.elim
  | cons e tr ih =>
    cases p with
    | ret b => cases (evals_ret.mp he).1
    | call d k => exact hplain.elim
    | op o k =>
      obtain ⟨r, tr', htr, he⟩ := evals_op.mp he
      obtain ⟨rfl, rfl⟩ := List.cons.inj htr
      cases hr with
      | cons ho hr =>
        have hstep := Pool.History.run h (.op ho) (show _ = _ ++ [⟨o, r⟩] by simp [Thread.events])
        have hrest := ih hr (I.mark n o r) (k r) (trace ++ [(n, (⟨o, r⟩ : Event S))]) hstep
          (hplain r) he
        simpa using hrest

/-- A call can be made and run to its end while the other threads rest. -/
theorem Pool.History.make {ts : List (Thread I)} {s s' : σ} {c : S.Call} {tr : List (Event S)}
    {a : S.Ans} (h : Pool.History M s₀ es ⟨s, ts⟩) (hc : M.top c) (hplain : (M.body c).Plain)
    (he : Evals M.body (M.body c) tr a) (hr : Runs M.handler s tr s') :
    ∃ t, Pool.History M s₀ (es ++ tr.map (Prod.mk ts.length)) ⟨s', ts ++ [t]⟩ ∧ t.root = c ∧
      t.Done a :=
  (h.start hc).finish rfl hplain he hr

end Interaction
