import MultiSource.Lib.Pool
import Mathlib.Data.List.Flatten
import Mathlib.Logic.Function.Basic

/-!
# Locks

Programs that take and give back locks, each shared among readers or held by one frame alone, and
touch what the locks guard. The note of a frame says which locks it holds. Where every operation
that touches something is made under its lock, no two threads are ever about to touch one thing at
once; and where locks are taken in the order of their levels, some thread can always go on.
-/

namespace Interaction

/-- How a lock is held, or what it guards is touched. -/
inductive Mode : Type
  | shared
  | exclusive
  deriving DecidableEq

/-- What an operation does to locks: nothing, take one, give one back, or touch what one guards. -/
inductive LockOp (L : Type) : Type
  | plain
  | take (l : L) (m : Mode)
  | give (l : L) (m : Mode)
  | touch (l : L) (m : Mode)

/-- A lock: how many readers hold it, and whether a writer does. -/
structure Hold where
  readers : ℕ
  writer : Bool
  deriving DecidableEq

variable {S : Sig} {σ L : Type} [DecidableEq L]

/-- The effect of an operation on the locks. It waits for a lock that is held, and there is none
where a lock is given back that is not held. A reader is let in whether or not a writer waits: what
is safe so is safe where it has to wait behind the writer. -/
inductive LockStep : LockOp L → (L → Hold) → (L → Hold) → Prop
  | plain (s : L → Hold) : LockStep .plain s s
  | touch (s : L → Hold) (l : L) (m : Mode) : LockStep (.touch l m) s s
  | takeShared {s : L → Hold} {l : L} {n : ℕ} : s l = ⟨n, false⟩ →
      LockStep (.take l .shared) s (Function.update s l ⟨n + 1, false⟩)
  | takeExclusive {s : L → Hold} {l : L} : s l = ⟨0, false⟩ →
      LockStep (.take l .exclusive) s (Function.update s l ⟨0, true⟩)
  | giveShared {s : L → Hold} {l : L} {n : ℕ} {w : Bool} : s l = ⟨n + 1, w⟩ →
      LockStep (.give l .shared) s (Function.update s l ⟨n, w⟩)
  | giveExclusive {s : L → Hold} {l : L} {n : ℕ} : s l = ⟨n, true⟩ →
      LockStep (.give l .exclusive) s (Function.update s l ⟨n, false⟩)

/-- A lock that no writer holds after an operation was held by none before, or was given back. -/
theorem LockStep.writer {κ : LockOp L} {s s' : L → Hold} (h : LockStep κ s s') {l : L}
    (hw : (s' l).writer = false) : (s l).writer = false ∨ κ = .give l .exclusive := by
  cases h with
  | plain => exact .inl hw
  | touch => exact .inl hw
  | @takeShared _ l' n hl =>
    by_cases he : l = l'
    · exact .inl (by rw [he, hl])
    · exact .inl (by rwa [Function.update_of_ne he] at hw)
  | @takeExclusive _ l' hl =>
    by_cases he : l = l'
    · exact .inl (by rw [he, hl])
    · exact .inl (by rwa [Function.update_of_ne he] at hw)
  | @giveShared _ l' n w hl =>
    by_cases he : l = l'
    · subst he
      rw [Function.update_self] at hw
      exact .inl (by rw [hl]; exact hw)
    · exact .inl (by rwa [Function.update_of_ne he] at hw)
  | @giveExclusive _ l' n hl =>
    by_cases he : l = l'
    · exact .inr (by rw [he])
    · exact .inl (by rwa [Function.update_of_ne he] at hw)

/-- The locks a frame holds. -/
abbrev Held (L : Type) : Type := L → Option Mode

def Held.none : Held L := fun _ => Option.none

/-- The locks held after an operation. -/
def Held.after (n : Held L) : LockOp L → Held L
  | .take l m => Function.update n l (some m)
  | .give l _ => Function.update n l Option.none
  | _ => n

/-- An operation is made under the locks it needs: what is touched is held, what is given back is
held that way, and a lock is taken only above all that are held. -/
def Held.Allows (level : L → ℕ) (n : Held L) : LockOp L → Prop
  | .plain => True
  | .take l _ => ∀ l', n l' ≠ Option.none → level l' < level l
  | .give l m => n l = some m
  | .touch l .shared => n l ≠ Option.none
  | .touch l .exclusive => n l = some .exclusive

variable (kind : S.Op → LockOp L)

/-- The instrument whose notes are the locks held. -/
abbrev holding : Instrument S where
  Note := Held L
  enter _ _ := Held.none
  mark n o _ := n.after (kind o)
  tell n _ _ := n

variable (M : System S σ) (level : L → ℕ)

/-- Locks guard what is touched, and none is held across a call or at the end. -/
def discipline : Guard (holding kind) where
  allow n o := n.Allows level (kind o) ∧ ((∃ c, M.mayCall o c) → n = Held.none)
  allowCall n _ := n = Held.none
  final n := n = Held.none

/-- The handler moves the locks as their operations say. -/
def Locked (locks : σ → L → Hold) : Prop :=
  ∀ s o r s', M.handler s o r s' → LockStep (kind o) (locks s) (locks s')

/-! ## What is held and by whom -/

section Tally

variable {kind M level} {locks : σ → L → Hold}

/-- How many of the frames hold a lock in one mode. -/
def tally (l : L) (m : Mode) (notes : List (Held L)) : ℕ := notes.countP fun n => n l = some m

omit [DecidableEq L] in
@[simp] theorem tally_nil (l : L) (m : Mode) : tally l m [] = 0 := rfl

omit [DecidableEq L] in
theorem tally_append (l : L) (m : Mode) (ns ns' : List (Held L)) :
    tally l m (ns ++ ns') = tally l m ns + tally l m ns' := List.countP_append

omit [DecidableEq L] in
theorem tally_cons (l : L) (m : Mode) (n : Held L) (ns : List (Held L)) :
    tally l m (n :: ns) = tally l m ns + if n l = some m then 1 else 0 := by
  simp [tally, List.countP_cons]

omit [DecidableEq L] in
@[simp] theorem tally_cons_none (l : L) (m : Mode) (ns : List (Held L)) :
    tally l m (Held.none :: ns) = tally l m ns := by
  simp [tally_cons, Held.none]

omit [DecidableEq L] in
theorem tally_pos {l : L} {m : Mode} {n : Held L} {ns : List (Held L)} (hn : n ∈ ns)
    (h : n l = some m) : 0 < tally l m ns := List.countP_pos_iff.mpr ⟨n, hn, by simpa using h⟩

/-- All frames of a pool. -/
def Pool.notes (p : Pool (holding kind) σ) : List (Held L) := p.threads.flatMap Thread.notes

/-- A lock is held by that many readers and writers, and not by both at once. -/
def Hold.Has (h : Hold) (readers writers : ℕ) : Prop :=
  h.readers = readers ∧ h.writer.toNat = writers ∧ (h.writer = true → h.readers = 0)

/-- The locks are held as the frames say. -/
def Tallied (locks : L → Hold) (notes : List (Held L)) : Prop :=
  ∀ l, (locks l).Has (tally l .shared notes) (tally l .exclusive notes)

theorem hear_notes (o : S.Op) (r : S.Resp o)
    (cs : List ((holding kind).Note × (S.Ans → Prog S S.Ans))) :
    (hear o r cs).map Prod.fst = cs.map Prod.fst := by
  cases cs <;> rfl

omit [DecidableEq L] in
theorem tally_insert (l : L) (m : Mode) (n : Held L) (ns ns' : List (Held L)) :
    tally l m (ns ++ n :: ns') = tally l m (ns ++ ns') + if n l = some m then 1 else 0 := by
  rw [tally_append, tally_append, tally_cons]
  omega

/-- One frame and the lock it changes. -/
theorem Tallied.update {s : L → Hold} {n : Held L} {ns ns' : List (Held L)} {l : L} {h : Hold}
    {m : Option Mode} (hs : Tallied s (ns ++ n :: ns'))
    (hl : h.Has (tally l .shared (ns ++ ns') + if m = some .shared then 1 else 0)
      (tally l .exclusive (ns ++ ns') + if m = some .exclusive then 1 else 0)) :
    Tallied (Function.update s l h) (ns ++ Function.update n l m :: ns') := by
  intro l'
  have hl' := hs l'
  rw [tally_insert, tally_insert] at hl' ⊢
  by_cases he : l' = l
  · subst he
    rw [Function.update_self, Function.update_self]
    exact hl
  · rw [Function.update_of_ne he, Function.update_of_ne he]
    exact hl'

omit [DecidableEq L] in
theorem tallied_insert_none {s : L → Hold} {ns ns' : List (Held L)} :
    Tallied s (ns ++ Held.none :: ns') ↔ Tallied s (ns ++ ns') := by
  unfold Tallied
  simp only [tally_append, tally_cons_none]

/-- An operation made under its locks keeps the tally. -/
theorem Tallied.step {κ : LockOp L} {s s' : L → Hold} {n : Held L} {ns ns' : List (Held L)}
    (h : Tallied s (ns ++ n :: ns')) (ha : n.Allows level κ) (hs : LockStep κ s s') :
    Tallied s' (ns ++ n.after κ :: ns') := by
  have hat (l : L) := h l
  simp only [tally_insert] at hat
  cases hs with
  | plain => exact h
  | touch => exact h
  | @takeShared _ l k hl =>
    have hfree : n l = Option.none := by_contra fun hn => Nat.lt_irrefl _ (ha l hn)
    obtain ⟨h₁, h₂, -⟩ := hat l
    rw [hl, hfree] at h₁ h₂
    have h₁ : k = tally l .shared (ns ++ ns') := h₁
    exact h.update ⟨congrArg (· + 1) h₁, h₂, fun hw => (by cases hw)⟩
  | @takeExclusive _ l hl =>
    have hfree : n l = Option.none := by_contra fun hn => Nat.lt_irrefl _ (ha l hn)
    obtain ⟨h₁, h₂, -⟩ := hat l
    rw [hl, hfree] at h₁ h₂
    have h₂ : 0 = tally l .exclusive (ns ++ ns') := h₂
    exact h.update ⟨h₁, congrArg (· + 1) h₂, fun _ => rfl⟩
  | @giveShared _ l k w hl =>
    have hheld : n l = some .shared := ha
    obtain ⟨h₁, h₂, h₃⟩ := hat l
    rw [hl, hheld] at h₁ h₂
    rw [hl] at h₃
    have h₁ : k + 1 = tally l .shared (ns ++ ns') + 1 := h₁
    exact h.update ⟨Nat.succ.inj h₁, h₂, fun hw => absurd (h₃ hw) (Nat.succ_ne_zero k)⟩
  | @giveExclusive _ l k hl =>
    have hheld : n l = some .exclusive := ha
    obtain ⟨h₁, h₂, -⟩ := hat l
    rw [hl, hheld] at h₁ h₂
    have h₂ : 0 + 1 = tally l .exclusive (ns ++ ns') + 1 := h₂
    exact h.update ⟨h₁, Nat.succ.inj h₂, fun hw => (by cases hw)⟩

omit [DecidableEq L] in
/-- Of two groups of frames, a lock that a frame of one holds alone no frame of the other holds. -/
theorem Tallied.alone {s : L → Hold} {notes ns ns' : List (Held L)} (h : Tallied s notes)
    (hle : ∀ l m, tally l m ns + tally l m ns' ≤ tally l m notes) {n n' : Held L} (hn : n ∈ ns)
    (hn' : n' ∈ ns') {l : L} (he : n l = some .exclusive) : n' l = Option.none := by
  obtain ⟨h₁, h₂, h₃⟩ := h l
  have hone : (s l).writer.toNat ≤ 1 := Bool.toNat_le _
  have hpos := tally_pos hn he
  have hexclusive := hle l .exclusive
  cases hw : (s l).writer with
  | false =>
    rw [hw, Bool.toNat_false] at h₂
    omega
  | true =>
    cases hm : n' l with
    | none => rfl
    | some m =>
      have hpos' := tally_pos hn' hm
      cases m with
      | shared =>
        have hshared := hle l .shared
        have hnone := h₃ hw
        omega
      | exclusive => omega

omit [DecidableEq L] in
/-- A lock that a frame holds alone has a writer. -/
theorem Tallied.writer {s : L → Hold} {notes : List (Held L)} (h : Tallied s notes)
    {n : Held L} (hn : n ∈ notes) {l : L} (hl : n l = some .exclusive) : (s l).writer = true := by
  obtain ⟨-, h₂, -⟩ := h l
  have hpos := tally_pos hn hl
  cases hw : (s l).writer with
  | true => rfl
  | false =>
    rw [hw, Bool.toNat_false] at h₂
    omega

variable (hG : Guarded M (discipline kind M level)) (hlocks : Locked kind M locks)
  {C : Pool (holding kind) σ → Pool (holding kind) σ → Prop} {s₀ : σ}
  {p : Pool (holding kind) σ}

include hG hlocks

/-- **The locks are held as the frames say**, in every state of every run. -/
theorem Pool.ReachableBy.tallied (h₀ : ∀ l, locks s₀ l = ⟨0, false⟩)
    (hp : Pool.ReachableBy M C s₀ p) : Tallied (locks p.shared) p.notes := by
  induction hp with
  | init => exact fun l => by simp [h₀, Hold.Has, Pool.notes]
  | @step p q hp hs _ ih =>
    unfold Pool.notes at ih ⊢
    cases hs with
    | @start s ts c hc =>
      rw [List.flatMap_append, List.flatMap_singleton]
      have hend := (List.append_nil (ts.flatMap Thread.notes)).symm ▸ ih
      exact tallied_insert_none.mpr hend
    | @run s s' ts₁ ts₂ t t' hm =>
      have htyped := hp.typed hG t (List.mem_append_right _ (List.mem_cons_self ..))
      rw [List.flatMap_append, List.flatMap_cons] at ih ⊢
      cases hm with
      | @op _ c n o k cs tr r ho =>
        have ha := (htyped.running n (.refl o n)).1.1
        unfold Thread.notes at ih ⊢
        rw [hear_notes]
        exact ih.step ha (hlocks _ _ _ _ ho)
      | call => exact tallied_insert_none.mpr ih
      | reenter => exact tallied_insert_none.mpr ih
      | @ret c n m a k cs tr =>
        obtain rfl : n = Held.none := htyped.running
        exact tallied_insert_none.mp ih

/-- Two threads of a pool: a lock that one holds alone the other does not hold. -/
theorem Pool.ReachableBy.alone (h₀ : ∀ l, locks s₀ l = ⟨0, false⟩)
    (hp : Pool.ReachableBy M C s₀ p) :
    p.threads.Pairwise fun t t' => ∀ n ∈ t.notes, ∀ n' ∈ t'.notes, ∀ l,
      (n l = some .exclusive → n' l = Option.none) ∧
        (n' l = some .exclusive → n l = Option.none) := by
  refine List.pairwise_iff_forall_sublist.mpr fun {t t'} hsub n hn n' hn' l => ?_
  have htally := hp.tallied hG hlocks h₀
  have hle (l : L) (m : Mode) : tally l m t.notes + tally l m t'.notes ≤ tally l m p.notes := by
    have h := hsub.flatMap Thread.notes
    rw [List.flatMap_cons, List.flatMap_singleton] at h
    rw [← tally_append]
    exact h.countP_le
  exact ⟨htally.alone hle hn hn',
    htally.alone (fun l m => Nat.add_comm (tally l m t'.notes) _ ▸ hle l m) hn' hn⟩

end Tally

/-! ## No races -/

/-- The operation a thread is about to make. -/
def Thread.Pending (t : Thread (holding (S := S) kind)) (o : S.Op) : Prop :=
  ∃ k, t.prog = .op o k

/-- The lock a thread is about to take, and how. -/
def Thread.WantsAs (t : Thread (holding (S := S) kind)) (l : L) (m : Mode) : Prop :=
  ∃ o, t.Pending kind o ∧ kind o = .take l m

def Thread.Wants (t : Thread (holding (S := S) kind)) (l : L) : Prop := ∃ m, t.WantsAs kind l m

/-- A thread is about to read under a lock that another is about to write under: a lock that lets no
reader pass a waiting writer makes it wait. -/
def Pool.Behind (p : Pool (holding (S := S) kind) σ) (t : Thread (holding (S := S) kind)) : Prop :=
  ∃ l, t.WantsAs kind l .shared ∧ ∃ t' ∈ p.threads, t'.WantsAs kind l .exclusive

/-- Two operations touch one thing, and not both to read it. -/
def LockOp.Conflicts : LockOp L → LockOp L → Prop
  | .touch l m, .touch l' m' => l = l' ∧ (m = .exclusive ∨ m' = .exclusive)
  | _, _ => False

/-- No two threads are about to touch one thing at once. -/
def Pool.RaceFree (p : Pool (holding (S := S) kind) σ) : Prop :=
  p.threads.Pairwise fun t t' => ∀ o o', t.Pending kind o → t'.Pending kind o' →
    ¬ (kind o).Conflicts (kind o')

section Safe

variable {kind M level} {locks : σ → L → Hold} (hG : Guarded M (discipline kind M level))
  (hlocks : Locked kind M locks) {C : Pool (holding kind) σ → Pool (holding kind) σ → Prop}
  {s₀ : σ} {p : Pool (holding kind) σ}

theorem Thread.Pending.allows {t : Thread (holding (S := S) kind)} {o : S.Op}
    (ho : t.Pending kind o) (ht : Typed M (discipline kind M level) t) :
    t.note.Allows level (kind o) := by
  obtain ⟨k, hk⟩ := ho
  have h := ht.running
  rw [hk] at h
  exact (h _ (.refl o _)).1.1

theorem Thread.note_mem_notes (t : Thread (holding (S := S) kind)) : t.note ∈ t.notes :=
  List.mem_cons_self ..

include hG hlocks

/-- **No races.** What a lock guards is never about to be touched by two threads at once, unless
both only read it. -/
theorem Pool.ReachableBy.raceFree (h₀ : ∀ l, locks s₀ l = ⟨0, false⟩)
    (hp : Pool.ReachableBy M C s₀ p) : p.RaceFree kind := by
  refine (hp.alone hG hlocks h₀).imp_of_mem fun {t t'} ht ht' halone o o' ho ho' hc => ?_
  have ha := ho.allows (hp.typed hG t ht)
  have ha' := ho'.allows (hp.typed hG t' ht')
  have halone := halone _ t.note_mem_notes _ t'.note_mem_notes
  generalize kind o = κ, kind o' = κ' at ha ha' hc
  cases κ with
  | touch l m =>
    cases κ' with
    | touch l' m' =>
      obtain ⟨rfl, hm⟩ := hc
      have hheld {n : Held L} {m : Mode} (h : n.Allows level (.touch l m)) : n l ≠ Option.none := by
        cases m with
        | shared => exact h
        | exclusive => exact fun hn => by cases hn.symm.trans (h : n l = some .exclusive)
      rcases hm with rfl | rfl
      · exact hheld ha' ((halone l).1 ha)
      · exact hheld ha ((halone l).2 ha')
    | _ => exact hc
  | _ => exact hc

/-! ## Some thread can go on -/

omit hlocks in
/-- A frame that waits for an answer holds nothing. -/
theorem Thread.Reached.waiting_none {t : Thread (holding kind)} (ht : Thread.Reached M t) :
    ∀ n ∈ t.callers.map Prod.fst, n = Held.none := by
  induction ht with
  | start _ => exact fun _ hn => absurd hn List.not_mem_nil
  | moves ht hm ih =>
    have hrunning := (ht.typed hG).running
    cases hm with
    | op _ =>
      rw [hear_notes]
      exact ih
    | call =>
      intro m hm
      rcases List.mem_cons.mp hm with rfl | hm
      · exact hrunning.1
      · exact ih m hm
    | reenter hd =>
      intro m hm
      rcases List.mem_cons.mp hm with rfl | hm
      · exact (hrunning m (.refl _ _)).1.2 ⟨_, hd⟩
      · exact ih m hm
    | ret => exact fun m hm => ih m (List.mem_cons_of_mem _ hm)

omit [DecidableEq L] hG hlocks in
/-- A lock that is not free is held by a frame. -/
theorem Tallied.held {s : L → Hold} {notes : List (Held L)} (h : Tallied s notes) {l : L}
    (hl : s l ≠ ⟨0, false⟩) : ∃ n ∈ notes, n l ≠ Option.none := by
  obtain ⟨h₁, h₂, -⟩ := h l
  have hfound (m : Mode) (hpos : 0 < tally l m notes) : ∃ n ∈ notes, n l ≠ Option.none := by
    obtain ⟨n, hn, hm⟩ := List.countP_pos_iff.mp hpos
    have hm : n l = some m := by simpa using hm
    exact ⟨n, hn, fun hnone => by cases hnone.symm.trans hm⟩
  cases hs : s l with
  | mk readers writer =>
    rw [hs] at h₁ h₂ hl
    cases writer with
    | true => exact hfound .exclusive (Nat.lt_of_lt_of_eq Nat.one_pos h₂)
    | false =>
      refine hfound .shared (Nat.pos_of_ne_zero fun hzero => hl ?_)
      rw [show readers = 0 from h₁.trans hzero]

omit hG hlocks in
/-- An operation made under its locks can be made, unless it takes one that is held. -/
theorem Tallied.enabled {s : L → Hold} {notes : List (Held L)} (h : Tallied s notes) {n : Held L}
    (hn : n ∈ notes) {κ : LockOp L} (ha : n.Allows level κ) :
    (∃ s', LockStep κ s s') ∨ ∃ l m, κ = .take l m ∧ s l ≠ ⟨0, false⟩ := by
  cases κ with
  | plain => exact .inl ⟨s, .plain s⟩
  | touch l m => exact .inl ⟨s, .touch s l m⟩
  | take l m =>
    by_cases hfree : s l = ⟨0, false⟩
    · cases m with
      | shared => exact .inl ⟨_, .takeShared hfree⟩
      | exclusive => exact .inl ⟨_, .takeExclusive hfree⟩
    · exact .inr ⟨l, m, rfl, hfree⟩
  | give l m =>
    obtain ⟨h₁, h₂, -⟩ := h l
    have hpos := tally_pos hn ha
    left
    cases hs : s l with
    | mk readers writer =>
      rw [hs] at h₁ h₂
      cases m with
      | shared =>
        obtain ⟨k, rfl⟩ := Nat.exists_eq_succ_of_ne_zero (h₁.trans_ne (Nat.ne_of_gt hpos))
        exact ⟨_, .giveShared hs⟩
      | exclusive =>
        cases writer with
        | true => exact ⟨_, .giveExclusive hs⟩
        | false => exact absurd h₂.symm (Nat.ne_of_gt hpos)

omit hG hlocks in
theorem exists_bound (level : L → ℕ) (ts : List (Thread (holding (S := S) kind))) :
    ∃ B, ∀ t ∈ ts, ∀ l, t.Wants kind l → level l ≤ B := by
  induction ts with
  | nil => exact ⟨0, fun _ ht => absurd ht List.not_mem_nil⟩
  | cons t ts ih =>
    obtain ⟨B, hB⟩ := ih
    by_cases hw : ∃ l, t.Wants kind l
    · obtain ⟨l, hl⟩ := hw
      refine ⟨max B (level l), fun t' ht' l' hl' => ?_⟩
      rcases List.mem_cons.mp ht' with rfl | ht'
      · obtain ⟨m, o, ⟨k, hk⟩, ho⟩ := hl
        obtain ⟨m', o', ⟨k', hk'⟩, ho'⟩ := hl'
        obtain ⟨rfl, -⟩ := Prog.op.inj (hk.symm.trans hk')
        obtain ⟨rfl, -⟩ := LockOp.take.inj (ho.symm.trans ho')
        exact Nat.le_max_right _ _
      · exact Nat.le_trans (hB t' ht' l' hl') (Nat.le_max_left _ _)
    · refine ⟨B, fun t' ht' l' hl' => ?_⟩
      rcases List.mem_cons.mp ht' with rfl | ht'
      · exact absurd ⟨l', hl'⟩ hw
      · exact hB t' ht' l' hl'

/-- **No deadlock.** Where every operation is answered once the locks allow it, the threads have
all ended or one of them can go on, also where readers wait behind the writers that wait. -/
theorem Pool.ReachableBy.progress (h₀ : ∀ l, locks s₀ l = ⟨0, false⟩)
    (hp : Pool.ReachableBy M C s₀ p)
    (hanswers : ∀ t ∈ p.threads, ∀ o, t.Pending kind o →
      (∃ s', LockStep (kind o) (locks p.shared) s') → ∃ r s', M.handler p.shared o r s') :
    (∀ t ∈ p.threads, ∃ a, t.Done a) ∨
      ∃ t ∈ p.threads, ¬ p.Behind kind t ∧ ∃ s' t', Moves M p.shared t s' t' := by
  by_contra hstuck
  rw [not_or] at hstuck
  obtain ⟨hopen, hstuck⟩ := hstuck
  have htally := hp.tallied hG hlocks h₀
  have hmoves {t : Thread (holding kind)} (ht : t ∈ p.threads) {s' : σ} {t' : Thread (holding kind)}
      (hm : Moves M p.shared t s' t') : p.Behind kind t :=
    by_contra fun hb => hstuck ⟨t, ht, hb, s', t', hm⟩
  -- an operation that the locks allow is a reader's, behind a writer
  have hbehind {t : Thread (holding kind)} (ht : t ∈ p.threads) {o : S.Op}
      (ho : t.Pending kind o) (henabled : ∃ s', LockStep (kind o) (locks p.shared) s') :
      p.Behind kind t := by
    obtain ⟨r, s', hr⟩ := hanswers t ht o ho henabled
    obtain ⟨c, n, prog, cs, tr⟩ := t
    obtain ⟨k, rfl⟩ := ho
    exact hmoves ht (.op hr)
  have hwaits : ∀ t ∈ p.threads, (∃ a, t.Done a) ∨
      ∃ l, t.Wants kind l ∧ locks p.shared l ≠ ⟨0, false⟩ := by
    intro t ht
    have htyped := hp.typed hG t ht
    have hmem : t.note ∈ p.notes := List.mem_flatMap.mpr ⟨t, ht, t.note_mem_notes⟩
    obtain ⟨c, n, prog, cs, tr⟩ := t
    cases prog with
    | ret a =>
      cases cs with
      | nil => exact .inl ⟨a, rfl, rfl⟩
      | cons f cs =>
        obtain ⟨l, ⟨o, ⟨k, hk⟩, -⟩, -⟩ := hmoves ht .ret
        cases hk
    | call d k =>
      obtain ⟨l, ⟨o, ⟨k', hk⟩, -⟩, -⟩ := hmoves ht .call
      cases hk
    | op o k =>
      have hpending : Thread.Pending kind (⟨c, n, .op o k, cs, tr⟩ : Thread (holding kind)) o :=
        ⟨k, rfl⟩
      rcases htally.enabled hmem (hpending.allows htyped) with henabled | ⟨l, m, hκ, hl⟩
      · obtain ⟨l, hw, t', ht', o', ho', hκ'⟩ := hbehind ht hpending henabled
        refine .inr ⟨l, ⟨_, hw⟩, fun hfree => ?_⟩
        -- a lock that is free the writer may take
        have henabled' : ∃ s', LockStep (kind o') (locks p.shared) s' := by
          rw [hκ']
          exact ⟨_, .takeExclusive hfree⟩
        obtain ⟨l', ⟨o'', ⟨k'', hk''⟩, hκ''⟩, -⟩ := hbehind ht' ho' henabled'
        obtain ⟨k', hk'⟩ := ho'
        obtain ⟨rfl, -⟩ := Prog.op.inj (hk'.symm.trans hk'')
        cases hκ'.symm.trans hκ''
      · exact .inr ⟨l, ⟨m, o, hpending, hκ⟩, hl⟩
  have hclimb {l : L} (hl : locks p.shared l ≠ ⟨0, false⟩) : ∃ t ∈ p.threads, ∃ l',
      t.Wants kind l' ∧ locks p.shared l' ≠ ⟨0, false⟩ ∧ level l < level l' := by
    obtain ⟨n, hn, hheld⟩ := htally.held hl
    obtain ⟨t, ht, hn⟩ := List.mem_flatMap.mp hn
    have htyped := hp.typed hG t ht
    have hrunning : n = t.note := by
      rcases List.mem_cons.mp hn with rfl | hn
      · rfl
      · exact absurd (congrFun ((hp.reached t ht).waiting_none hG n hn) l) hheld
    subst hrunning
    rcases hwaits t ht with ⟨a, ha, -⟩ | ⟨l', hw, hl'⟩
    · have hfinal := htyped.running
      rw [ha] at hfinal
      exact absurd (congrFun (hfinal : t.note = Held.none) l) hheld
    · obtain ⟨m, o, ho, hκ⟩ := hw
      have hallows := ho.allows htyped
      rw [hκ] at hallows
      exact ⟨t, ht, l', ⟨m, o, ho, hκ⟩, hl', hallows l hheld⟩
  obtain ⟨B, hB⟩ := exists_bound level p.threads
  -- from a lock that is not free one climbs to one of a higher level, and levels are bounded
  have hall : ∀ d l, locks p.shared l ≠ ⟨0, false⟩ → B < level l + d → False := by
    intro d
    induction d with
    | zero =>
      intro l hl hd
      obtain ⟨t, ht, l', hw, -, hlt⟩ := hclimb hl
      have hle := hB t ht l' hw
      omega
    | succ d ih =>
      intro l hl hd
      obtain ⟨t, ht, l', hw, hl', hlt⟩ := hclimb hl
      exact ih l' hl' (by omega)
  apply hopen
  intro t ht
  rcases hwaits t ht with hdone | ⟨l, -, hl⟩
  · exact hdone
  · exact (hall (B + 1) l hl (by omega)).elim

end Safe

end Interaction
