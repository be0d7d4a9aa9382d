import Mathlib.Data.List.Basic
import Mathlib.Data.List.Infix

/-!
# Segments

A list over an alphabet with one separator read as its segments, and segment lists joined again.
`collapse` runs a stack over segments: some are skipped, some remove the segment before them, the
rest are kept. `joined_prefix_iff` compares two joined lists: one followed by a separator is a
prefix of another exactly when its segments are a proper prefix of the other's.
-/

namespace Segments

variable {α : Type}

/-- Segments joined by the separator. -/
def joined (sep : α) (segs : List (List α)) : List α := [sep].intercalate segs

/-! ## Splitting and joining -/

@[simp] theorem joined_nil (sep : α) : joined sep [] = [] := rfl

@[simp] theorem joined_singleton (sep : α) (l : List α) : joined sep [l] = l := by
  simp [joined, List.intercalate]

@[simp] theorem joined_pair (sep : α) (k l : List α) : joined sep [k, l] = k ++ sep :: l := by
  simp [joined, List.intercalate]

theorem joined_append {sep : α} {as bs : List (List α)} (ha : as ≠ []) (hb : bs ≠ []) :
    joined sep (as ++ bs) = joined sep as ++ sep :: joined sep bs := by
  induction as with
  | nil => exact absurd rfl ha
  | cons a as ih =>
    cases as with
    | nil =>
      obtain ⟨b, bs, rfl⟩ := List.exists_cons_of_ne_nil hb
      simp [joined, List.intercalate]
    | cons a' as =>
      have h := ih (List.cons_ne_nil _ _)
      simp only [joined, List.intercalate, List.cons_append, List.intersperse_cons_cons,
        List.flatten_cons, List.nil_append, List.append_assoc] at h ⊢
      rw [h]

theorem joined_concat_append (sep : α) (as : List (List α)) (a b : List α) :
    joined sep (as ++ [a]) ++ b = joined sep (as ++ [a ++ b]) := by
  by_cases ha : as = []
  · simp [ha]
  · rw [joined_append ha (List.cons_ne_nil _ _), joined_append ha (List.cons_ne_nil _ _)]
    simp

/-- The last segment of one list runs on into the first of the other. -/
theorem joined_append_joined (sep : α) (as bs : List (List α)) (a b : List α) :
    joined sep (as ++ [a]) ++ joined sep (b :: bs) = joined sep (as ++ (a ++ b) :: bs) := by
  by_cases hb : bs = []
  · rw [hb, joined_singleton, joined_concat_append]
  · have hbs : joined sep (b :: bs) = b ++ sep :: joined sep bs := by
      rw [← List.singleton_append, joined_append (List.cons_ne_nil _ _) hb, joined_singleton]
    rw [hbs, ← List.append_assoc, joined_concat_append, ← joined_append (by simp) hb,
      ← List.append_cons]

theorem getLast?_joined {sep : α} {init : List (List α)} {l : List α} (hl : l ≠ []) :
    (joined sep (init ++ [l])).getLast? = l.getLast? := by
  by_cases hi : init = []
  · rw [hi, List.nil_append, joined_singleton]
  · rw [joined_append hi (List.cons_ne_nil _ _), joined_singleton,
      List.getLast?_append_of_ne_nil _ (List.cons_ne_nil _ _), List.getLast?_cons_of_ne_nil hl]

theorem mem_joined {sep x : α} {segs : List (List α)} (h : x ∈ joined sep segs) :
    x = sep ∨ ∃ l ∈ segs, x ∈ l := by
  induction segs with
  | nil => simp at h
  | cons l segs ih =>
    by_cases hs : segs = []
    · subst hs
      rw [joined_singleton] at h
      exact .inr ⟨l, List.mem_singleton_self l, h⟩
    · rw [← List.singleton_append, joined_append (List.cons_ne_nil _ _) hs, joined_singleton,
        List.mem_append, List.mem_cons] at h
      rcases h with h | h | h
      · exact .inr ⟨l, List.mem_cons_self .., h⟩
      · exact .inl h
      · rcases ih h with h | ⟨l', hl, h⟩
        · exact .inl h
        · exact .inr ⟨l', List.mem_cons_of_mem _ hl, h⟩

theorem mem_joined_of_mem {sep x : α} {segs : List (List α)} {l : List α} (hl : l ∈ segs)
    (h : x ∈ l) : x ∈ joined sep segs := by
  induction segs with
  | nil => exact absurd hl List.not_mem_nil
  | cons l' segs ih =>
    by_cases hs : segs = []
    · subst hs
      rw [List.mem_singleton] at hl
      rwa [joined_singleton, ← hl]
    · rw [← List.singleton_append, joined_append (List.cons_ne_nil _ _) hs, joined_singleton]
      rcases List.mem_cons.mp hl with rfl | hl
      · exact List.mem_append_left _ h
      · exact List.mem_append_right _ (List.mem_cons_of_mem _ (ih hl))

section Split

variable [DecidableEq α]

theorem not_mem_of_mem_splitOn {sep : α} {xs l : List α} (h : l ∈ xs.splitOn sep) : sep ∉ l := by
  induction xs generalizing l with
  | nil =>
    rw [List.splitOn_nil, List.mem_singleton] at h
    simp [h]
  | cons x xs ih =>
    rw [List.splitOn_cons_eq_if_modifyHead] at h
    by_cases hx : x = sep
    · rw [if_pos (by simpa using hx)] at h
      rcases List.mem_cons.mp h with rfl | h
      · simp
      · exact ih h
    · rw [if_neg (by simpa using hx)] at h
      obtain ⟨y, ys, hy⟩ : ∃ y ys, xs.splitOn sep = y :: ys :=
        List.exists_cons_of_ne_nil (List.splitOn_ne_nil sep xs)
      rw [hy, List.modifyHead_cons] at h
      rcases List.mem_cons.mp h with rfl | h
      · have := ih (hy ▸ List.mem_cons_self ..)
        simp [this, Ne.symm hx]
      · exact ih (hy ▸ List.mem_cons_of_mem _ h)

theorem splitOn_joined {sep : α} {segs : List (List α)} (h : ∀ l ∈ segs, sep ∉ l)
    (hne : segs ≠ []) : (joined sep segs).splitOn sep = segs :=
  List.splitOn_intercalate sep h hne

theorem joined_splitOn (sep : α) (xs : List α) : joined sep (xs.splitOn sep) = xs :=
  List.intercalate_splitOn sep

/-- The text of `as` and a separator begin the text of `bs` exactly when `bs` is `as` and more. -/
theorem joined_prefix_iff {sep : α} {as bs : List (List α)} (ha : ∀ l ∈ as, sep ∉ l)
    (hb : ∀ l ∈ bs, sep ∉ l) (hae : as ≠ []) (hbe : bs ≠ []) :
    joined sep as ++ [sep] <+: joined sep bs ↔ as <+: bs ∧ as ≠ bs := by
  constructor
  · rintro ⟨t, ht⟩
    have hs : bs = as ++ t.splitOn sep := by
      rw [← splitOn_joined hb hbe, ← ht, List.append_assoc, List.singleton_append,
        List.splitOn_append_cons_self, splitOn_joined ha hae]
    refine ⟨⟨_, hs.symm⟩, fun he => ?_⟩
    rw [he, List.self_eq_append_right] at hs
    exact List.splitOn_ne_nil sep t hs
  · rintro ⟨⟨cs, rfl⟩, hne⟩
    have hc : cs ≠ [] := by
      rintro rfl
      simp at hne
    rw [joined_append hae hc]
    exact ⟨joined sep cs, by simp⟩

end Split

/-! ## The segment stack -/

/-- One segment on the stack, which is kept bottom first. -/
def push (skip up : List α → Bool) (acc : List (List α)) (seg : List α) : List (List α) :=
  if skip seg then acc else if up seg then acc.dropLast else acc ++ [seg]

/-- The segments that stay. -/
def collapse (skip up : List α → Bool) (segs : List (List α)) : List (List α) :=
  segs.foldl (push skip up) []

/-- A segment `collapse` keeps as it is. -/
def Plain (skip up : List α → Bool) (seg : List α) : Prop := skip seg = false ∧ up seg = false

variable {skip up : List α → Bool}

theorem push_of_plain {acc : List (List α)} {seg : List α} (h : Plain skip up seg) :
    push skip up acc seg = acc ++ [seg] := by
  simp [push, h.1, h.2]

theorem mem_push {acc : List (List α)} {seg s : List α} (h : s ∈ push skip up acc seg) :
    s ∈ acc ∨ s = seg ∧ Plain skip up s := by
  unfold push at h
  split_ifs at h with hs hu
  · exact .inl h
  · exact .inl (List.mem_of_mem_dropLast h)
  · rcases List.mem_append.mp h with h | h
    · exact .inl h
    · rw [List.mem_singleton] at h
      subst h
      exact .inr ⟨rfl, by simpa using hs, by simpa using hu⟩

theorem mem_foldl_push {segs acc : List (List α)} {s : List α}
    (h : s ∈ segs.foldl (push skip up) acc) : s ∈ acc ∨ s ∈ segs ∧ Plain skip up s := by
  induction segs generalizing acc with
  | nil => exact .inl h
  | cons seg segs ih =>
    rcases ih h with h | ⟨h, hp⟩
    · rcases mem_push h with h | ⟨rfl, hp⟩
      · exact .inl h
      · exact .inr ⟨List.mem_cons_self .., hp⟩
    · exact .inr ⟨List.mem_cons_of_mem _ h, hp⟩

theorem mem_collapse {segs : List (List α)} {s : List α} (h : s ∈ collapse skip up segs) :
    s ∈ segs ∧ Plain skip up s := by
  rcases mem_foldl_push h with h | h
  · exact absurd h List.not_mem_nil
  · exact h

theorem foldl_push_of_plain {segs : List (List α)} (h : ∀ s ∈ segs, Plain skip up s)
    (acc : List (List α)) : segs.foldl (push skip up) acc = acc ++ segs := by
  induction segs generalizing acc with
  | nil => simp
  | cons seg segs ih =>
    rw [List.foldl_cons, push_of_plain (h seg (List.mem_cons_self ..)),
      ih fun s hs => h s (List.mem_cons_of_mem _ hs)]
    simp

theorem collapse_of_plain {segs : List (List α)} (h : ∀ s ∈ segs, Plain skip up s) :
    collapse skip up segs = segs := by
  rw [collapse, foldl_push_of_plain h, List.nil_append]

theorem collapse_append (as bs : List (List α)) :
    collapse skip up (as ++ bs) = bs.foldl (push skip up) (collapse skip up as) := by
  rw [collapse, List.foldl_append, ← collapse]

/-! ## Steps up past the start -/

/-- One segment on a stack that keeps a step up it has nothing to remove for. -/
def pushUp (skip up : List α → Bool) (acc : List (List α)) (seg : List α) : List (List α) :=
  if skip seg then acc
  else if up seg then
    if acc.getLast?.all up then acc ++ [seg] else acc.dropLast
  else acc ++ [seg]

/-- The segments that stay, after the steps up past the start. -/
def collapseUp (skip up : List α → Bool) (segs : List (List α)) : List (List α) :=
  segs.foldl (pushUp skip up) []

/-- Without steps up there is nothing to keep. -/
theorem collapseUp_of_no_up {segs : List (List α)} (h : ∀ s ∈ segs, up s = false) :
    collapseUp skip up segs = collapse skip up segs := by
  unfold collapseUp collapse
  suffices ∀ acc, segs.foldl (pushUp skip up) acc = segs.foldl (push skip up) acc from this []
  induction segs with
  | nil => exact fun _ => rfl
  | cons seg segs ih =>
    intro acc
    have hseg := h seg (List.mem_cons_self ..)
    have hpush : pushUp skip up acc seg = push skip up acc seg := by
      simp [pushUp, push, hseg]
    rw [List.foldl_cons, List.foldl_cons, hpush, ih fun s hs => h s (List.mem_cons_of_mem _ hs)]

/-! ## Counting the steps -/

/-- How many segments are neither skipped nor a step up. -/
def names (skip up : List α → Bool) (segs : List (List α)) : ℕ :=
  segs.countP fun s => !skip s && !up s

/-- How many segments are a step up. -/
def ups (skip up : List α → Bool) (segs : List (List α)) : ℕ :=
  segs.countP fun s => !skip s && up s

theorem names_concat (segs : List (List α)) (seg : List α) : names skip up (segs ++ [seg]) =
    names skip up segs + if !skip seg && !up seg then 1 else 0 := by
  rw [names, List.countP_append, List.countP_singleton, ← names]

theorem ups_concat (segs : List (List α)) (seg : List α) : ups skip up (segs ++ [seg]) =
    ups skip up segs + if !skip seg && up seg then 1 else 0 := by
  rw [ups, List.countP_append, List.countP_singleton, ← ups]

theorem collapse_concat (segs : List (List α)) (seg : List α) :
    collapse skip up (segs ++ [seg]) = push skip up (collapse skip up segs) seg := by
  rw [collapse_append, List.foldl_cons, List.foldl_nil]

/-- The stack ends no higher than `n` exactly if no end of the list holds more names than steps up
and `n`. -/
theorem length_collapse_le_iff (segs : List (List α)) (n : ℕ) :
    (collapse skip up segs).length ≤ n ↔
      ∀ t, t <:+ segs → names skip up t ≤ ups skip up t + n := by
  induction segs using List.reverseRecOn generalizing n with
  | nil => simp [collapse, names]
  | append_singleton segs seg ih =>
    have hends : (∀ t, t <:+ segs ++ [seg] → names skip up t ≤ ups skip up t + n) ↔
        ∀ t, t <:+ segs → names skip up (t ++ [seg]) ≤ ups skip up (t ++ [seg]) + n := by
      constructor
      · intro h t ht
        exact h _ (List.suffix_concat_iff.mpr (.inr ⟨t, rfl, ht⟩))
      · intro h t ht
        rcases List.suffix_concat_iff.mp ht with rfl | ⟨init, rfl, hinit⟩
        · exact Nat.zero_le _
        · exact h init hinit
    rw [hends, collapse_concat, push]
    simp only [names_concat, ups_concat]
    by_cases hs : skip seg = true
    · simpa [hs] using ih n
    · by_cases hu : up seg = true
      · -- a step up allows the stack before it one more
        simp only [hs, hu, Bool.false_eq_true, if_false, if_true, List.length_dropLast,
          Bool.not_true, Bool.not_false, Bool.and_false, Bool.and_true, Nat.add_zero]
        rw [Nat.sub_le_iff_le_add, ih]
        apply forall_congr'
        intro t
        rw [Nat.add_right_comm, Nat.add_assoc]
      · -- a name needs room for itself
        simp only [hs, hu, Bool.false_eq_true, if_false, if_true, List.length_append,
          List.length_singleton, Bool.not_false, Bool.and_false, Bool.and_true, Nat.add_zero]
        cases n with
        | zero =>
          apply iff_of_false (by omega)
          intro h
          exact absurd (h [] (List.nil_suffix ..)) (by simp [names, ups])
        | succ n =>
          rw [Nat.succ_le_succ_iff, ih]
          apply forall_congr'
          intro t
          rw [← Nat.add_assoc, Nat.succ_le_succ_iff]

/-- One segment on steps up and a stack: the front grows only where the stack is empty, and then by
a step up. -/
theorem pushUp_append {lead acc : List (List α)} (hlead : ∀ u ∈ lead, up u = true)
    (hacc : ∀ s ∈ acc, Plain skip up s) (seg : List α) :
    ∃ lead', (∀ u ∈ lead', up u = true) ∧
      pushUp skip up (lead ++ acc) seg = lead' ++ push skip up acc seg ∧
      ((if !skip seg && !up seg then 1 else 0) + acc.length + lead'.length =
        (if !skip seg && up seg then 1 else 0) + lead.length + (push skip up acc seg).length) ∧
      (lead' = lead ∨ lead' ≠ [] ∧ push skip up acc seg = []) := by
  by_cases hs : skip seg = true
  · refine ⟨lead, hlead, by simp [pushUp, push, hs], ?_, .inl rfl⟩
    simp only [push, hs, if_true, Bool.not_true, Bool.false_and, Bool.false_eq_true, if_false]
    omega
  · by_cases hu : up seg = true
    · by_cases hc : acc = []
      · have hall : lead.getLast?.all up = true := by
          cases hl : lead.getLast? with
          | none => rfl
          | some u => exact hlead u (List.mem_of_getLast? hl)
        subst hc
        refine ⟨lead ++ [seg], ?_, ?_, ?_, .inr ⟨by simp, by simp [push, hs, hu]⟩⟩
        · intro u hmem
          rcases List.mem_append.mp hmem with h | h
          · exact hlead u h
          · rw [List.mem_singleton.mp h]
            exact hu
        · simp [pushUp, push, hs, hu, hall]
        · simp [push, hs, hu, Nat.add_comm]
      · obtain ⟨init, l, rfl⟩ : ∃ init l, acc = init ++ [l] :=
          ⟨_, _, (List.dropLast_append_getLast hc).symm⟩
        have hl := (hacc l (by simp)).2
        refine ⟨lead, hlead, ?_, ?_, .inl rfl⟩
        · rw [← List.append_assoc]
          simp [pushUp, push, hs, hu, hl]
        · simp [push, hs, hu]
          omega
    · refine ⟨lead, hlead, ?_, ?_, .inl rfl⟩
      · simp [pushUp, push, hs, hu]
      · simp [push, hs, hu]
        omega

/-- Steps up past the start stand in front, and there are some exactly if some beginning of the list
holds more steps up than names. -/
theorem collapseUp_spec (skip up : List α → Bool) (segs : List (List α)) :
    ∃ lead, (∀ u ∈ lead, up u = true) ∧
      collapseUp skip up segs = lead ++ collapse skip up segs ∧
      names skip up segs + lead.length = ups skip up segs + (collapse skip up segs).length ∧
      (lead = [] ↔ ∀ pre, pre <+: segs → ups skip up pre ≤ names skip up pre) := by
  induction segs using List.reverseRecOn with
  | nil =>
    refine ⟨[], fun u hu => absurd hu List.not_mem_nil, rfl, rfl, iff_of_true rfl ?_⟩
    intro pre hpre
    rw [List.prefix_nil.mp hpre]
    exact le_rfl
  | append_singleton segs seg ih =>
    obtain ⟨lead, hlead, heq, hcount, hnil⟩ := ih
    have hplain : ∀ s ∈ collapse skip up segs, Plain skip up s := fun s hs => (mem_collapse hs).2
    obtain ⟨lead', hlead', hstep, hgrow, hfront⟩ := pushUp_append hlead hplain seg
    have hbegin : (∀ pre, pre <+: segs ++ [seg] → ups skip up pre ≤ names skip up pre) ↔
        lead = [] ∧ ups skip up (segs ++ [seg]) ≤ names skip up (segs ++ [seg]) := by
      rw [hnil]
      constructor
      · intro h
        exact ⟨fun pre hpre => h pre (hpre.trans (List.prefix_append ..)), h _ List.prefix_rfl⟩
      · rintro ⟨h, hall⟩ pre hpre
        rcases List.prefix_concat_iff.mp hpre with rfl | hpre
        · exact hall
        · exact h pre hpre
    rw [hbegin, collapse_concat, names_concat, ups_concat]
    have hcount' : names skip up segs + (if !skip seg && !up seg then 1 else 0) + lead'.length =
        ups skip up segs + (if !skip seg && up seg then 1 else 0) +
          (push skip up (collapse skip up segs) seg).length := by
      omega
    refine ⟨lead', hlead', ?_, hcount', ?_⟩
    · rw [← hstep, ← heq, collapseUp, List.foldl_append, ← collapseUp]
      rfl
    · rcases hfront with rfl | ⟨hne, hempty⟩
      · constructor
        · intro h
          rw [h, List.length_nil] at hcount'
          exact ⟨h, by omega⟩
        · exact fun h => h.1
      · apply iff_of_false hne
        rintro ⟨-, hle⟩
        rw [hempty, List.length_nil] at hcount'
        have := List.length_pos_of_ne_nil hne
        omega

/-! ## How much stays -/

theorem mem_pushUp {acc : List (List α)} {seg s : List α} (h : s ∈ pushUp skip up acc seg) :
    s ∈ acc ∨ s = seg ∧ skip s = false := by
  unfold pushUp at h
  split_ifs at h with hs hu hall
  · exact .inl h
  · exact (List.mem_append.mp h).imp_right fun h => by
      rw [List.mem_singleton.mp h]
      exact ⟨rfl, by simpa using hs⟩
  · exact .inl (List.mem_of_mem_dropLast h)
  · exact (List.mem_append.mp h).imp_right fun h => by
      rw [List.mem_singleton.mp h]
      exact ⟨rfl, by simpa using hs⟩

theorem collapseUp_concat (segs : List (List α)) (seg : List α) :
    collapseUp skip up (segs ++ [seg]) = pushUp skip up (collapseUp skip up segs) seg := by
  rw [collapseUp, List.foldl_append, ← collapseUp]
  rfl

theorem mem_collapseUp {segs : List (List α)} {s : List α} (h : s ∈ collapseUp skip up segs) :
    s ∈ segs ∧ skip s = false := by
  induction segs using List.reverseRecOn with
  | nil => exact absurd h List.not_mem_nil
  | append_singleton segs seg ih =>
    rw [collapseUp_concat] at h
    rcases mem_pushUp h with h | ⟨rfl, hs⟩
    · exact ⟨List.mem_append_left _ (ih h).1, (ih h).2⟩
    · exact ⟨by simp, hs⟩

theorem length_push_le (skip up : List α → Bool) (acc : List (List α)) (seg : List α) :
    (push skip up acc seg).length ≤ acc.length + 1 := by
  unfold push
  split_ifs
  · exact Nat.le_succ _
  · exact (List.dropLast_sublist acc).length_le.trans (Nat.le_succ _)
  · rw [List.length_append, List.length_singleton]

theorem length_pushUp_le (skip up : List α → Bool) (acc : List (List α)) (seg : List α) :
    (pushUp skip up acc seg).length ≤ acc.length + 1 := by
  unfold pushUp
  split_ifs
  · exact Nat.le_succ _
  · rw [List.length_append, List.length_singleton]
  · exact (List.dropLast_sublist acc).length_le.trans (Nat.le_succ _)
  · rw [List.length_append, List.length_singleton]

/-- A list built by steps that add one at most, and none at a skipped segment, is no longer than
there are others. -/
theorem length_foldl_le {skip : List α → Bool} {step : List (List α) → List α → List (List α)}
    (hle : ∀ acc seg, (step acc seg).length ≤ acc.length + 1)
    (hskip : ∀ acc seg, skip seg = true → step acc seg = acc) (segs : List (List α)) :
    (segs.foldl step []).length ≤ segs.countP fun s => !skip s := by
  induction segs using List.reverseRecOn with
  | nil => exact Nat.le_refl 0
  | append_singleton segs seg ih =>
    rw [List.foldl_append, List.foldl_cons, List.foldl_nil, List.countP_append,
      List.countP_singleton]
    by_cases hs : skip seg = true
    · rw [hskip _ _ hs]
      exact ih.trans (Nat.le_add_right _ _)
    · have := hle (segs.foldl step []) seg
      simp only [hs, Bool.not_false, if_true]
      omega

/-- No more stays than is not skipped. -/
theorem length_collapse_le (skip up : List α → Bool) (segs : List (List α)) :
    (collapse skip up segs).length ≤ segs.countP fun s => !skip s :=
  length_foldl_le (length_push_le skip up) (fun _ _ hs => if_pos hs) segs

theorem length_collapseUp_le (skip up : List α → Bool) (segs : List (List α)) :
    (collapseUp skip up segs).length ≤ segs.countP fun s => !skip s :=
  length_foldl_le (length_pushUp_le skip up) (fun _ _ hs => if_pos hs) segs

end Segments
