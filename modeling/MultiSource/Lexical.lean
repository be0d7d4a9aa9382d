import Mathlib.Data.List.DropRight
import MultiSource.OsPath

/-!
# What a lexical path means

Walking a path component by component moves up at a `..` and stays at the root. `lexical` takes a
kept `..` off again for the next one, so of the steps above the start only their parity is left.
-/

namespace MultiSource

open LinkTree

namespace OsPath

/-- One component from a folder. -/
def walkStep (folder : List Name) : Hop Name → List Name
  | .here => folder
  | .up => folder.dropLast
  | .name n => folder ++ [n]

/-- Where a path leads from the folder `d`, if no component is a link. -/
def walk (d : List Name) (path : OsPath) : List Name :=
  path.hops.foldl walkStep (if path.absolute then [] else d)

/-- One component, with the steps above the start so far and the names after them. -/
def climbStep (state : ℕ × List Name) : Hop Name → ℕ × List Name
  | .here => state
  | .up => if state.2 = [] then (state.1 + 1, []) else (state.1, state.2.dropLast)
  | .name n => (state.1, state.2 ++ [n])

def climbed (hops : List (Hop Name)) : ℕ × List Name := hops.foldl climbStep (0, [])

/-- How many `..` of a path have no name before them left to remove. -/
def climbs (path : OsPath) : ℕ := (climbed path.hops).1

/-- The names left of a path. -/
def remaining (path : OsPath) : List Name := (climbed path.hops).2

theorem climbed_snoc (hops : List (Hop Name)) (hop : Hop Name) :
    climbed (hops ++ [hop]) = climbStep (climbed hops) hop := by
  rw [climbed, List.foldl_append, List.foldl_cons, List.foldl_nil, ← climbed]

/-- The steps above the start that `lexical` keeps. -/
def kept (n : ℕ) : List (Hop Name) := if n % 2 = 1 then [.up] else []

theorem dropLast_rdrop (d : List Name) (n : ℕ) : (d.rdrop n).dropLast = d.rdrop (n + 1) := by
  rw [← List.rdrop_add, List.dropLast_eq_take]
  rfl

theorem walk_hops (d : List Name) (hops : List (Hop Name)) :
    hops.foldl walkStep d = d.rdrop (climbed hops).1 ++ (climbed hops).2 := by
  induction hops using List.reverseRecOn with
  | nil => simp [climbed]
  | append_singleton hops hop ih =>
    rw [List.foldl_append, ih, climbed_snoc]
    generalize climbed hops = state
    obtain ⟨n, names⟩ := state
    cases hop with
    | here => rfl
    | name m => simp [walkStep, climbStep]
    | up =>
      by_cases hn : names = []
      · subst hn
        simp [walkStep, climbStep, dropLast_rdrop]
      · simp [walkStep, climbStep, hn, List.dropLast_append_of_ne_nil]

theorem foldl_lexicalStep_eq (absolute : Bool) (hops : List (Hop Name)) :
    hops.foldl lexicalStep ⟨absolute, []⟩ =
      ⟨absolute, kept (climbed hops).1 ++ (climbed hops).2.map .name⟩ := by
  induction hops using List.reverseRecOn with
  | nil => rfl
  | append_singleton hops hop ih =>
    rw [List.foldl_append, ih, climbed_snoc]
    generalize climbed hops = state
    obtain ⟨n, names⟩ := state
    cases hop with
    | here => rfl
    | name m => simp [lexicalStep, climbStep]
    | up =>
      by_cases hn : names = []
      · subst hn
        rcases Nat.mod_two_eq_zero_or_one n with h | h
        · have hnext : (n + 1) % 2 = 1 := by omega
          simp [lexicalStep, climbStep, climb, kept, h, hnext]
        · have hnext : (n + 1) % 2 = 0 := by omega
          simp [lexicalStep, climbStep, climb, kept, h, hnext]
      · simp [lexicalStep, climbStep, climb, hn, List.dropLast_append_of_ne_nil, List.map_dropLast]

theorem foldl_walkStep_names (d : List Name) (names : List Name) :
    (names.map Hop.name).foldl walkStep d = d ++ names := by
  induction names generalizing d with
  | nil => simp
  | cons n names ih =>
    rw [List.map_cons, List.foldl_cons, ih]
    show d ++ [n] ++ names = d ++ n :: names
    rw [List.append_assoc, List.singleton_append]

theorem foldl_walkStep_kept (d : List Name) (n : ℕ) :
    (kept n).foldl walkStep d = d.rdrop (n % 2) := by
  rcases Nat.mod_two_eq_zero_or_one n with h | h
  · rw [kept, h, if_neg (by decide), List.rdrop_zero]
    rfl
  · rw [kept, h, if_pos rfl, ← Nat.zero_add 1, ← dropLast_rdrop, List.rdrop_zero]
    rfl

theorem absolute_lexical (path : OsPath) : path.lexical.absolute = path.absolute := by
  unfold lexical
  dsimp only
  rw [foldl_lexicalStep_eq]
  split_ifs <;> rfl

/-- Where a path leads: up by its steps above the start, and down its names. -/
theorem walk_eq (d : List Name) (path : OsPath) : walk d path =
    (if path.absolute then [] else d).rdrop path.climbs ++ path.remaining :=
  walk_hops _ path.hops

theorem walk_lexical (d : List Name) (path : OsPath) : walk d path.lexical =
    (if path.absolute then [] else d).rdrop (path.climbs % 2) ++ path.remaining := by
  have hhops : ∀ start : List Name, path.lexical.hops.foldl walkStep start =
      start.rdrop (path.climbs % 2) ++ path.remaining := by
    intro start
    rw [← foldl_walkStep_names, ← foldl_walkStep_kept, ← List.foldl_append]
    unfold lexical
    dsimp only
    rw [foldl_lexicalStep_eq]
    split_ifs with h
    · rw [show kept path.climbs ++ path.remaining.map Hop.name = [] from h.2]
      rfl
    · rfl
  rw [walk, absolute_lexical, hhops]

theorem lexical_of_absolute {path : OsPath} (h : path.absolute = true) :
    path.lexical = ⟨true, kept path.climbs ++ path.remaining.map .name⟩ := by
  unfold lexical
  dsimp only
  rw [foldl_lexicalStep_eq, h, if_neg (by simp)]
  rfl

theorem kept_append_inj {m n : ℕ} {names : List Name} :
    kept m ++ names.map Hop.name = kept n ++ names.map .name ↔ m % 2 = n % 2 := by
  rw [List.append_left_inj]
  unfold kept
  rcases Nat.mod_two_eq_zero_or_one m with hm | hm <;>
    rcases Nat.mod_two_eq_zero_or_one n with hn | hn <;> simp [hm, hn]

end OsPath

open OsPath

/-- The normal form leads where the path leads exactly if the path is absolute, climbs above its
start at most once, or starts too near the root for the difference to show. Two absolute paths that
lead to one place have one normal form exactly if both climb above the root an even, or both an odd,
number of times. -/
theorem lexical_keeps_meaning_iff (d : List Name) (p q : Str) :
    (walk d (parse p).lexical = walk d (parse p) ↔
      (parse p).absolute = true ∨ (parse p).climbs ≤ 1 ∨ d.length ≤ (parse p).climbs % 2) ∧
    ((parse p).absolute = true → (parse q).absolute = true →
      walk [] (parse p) = walk [] (parse q) →
      ((parse p).lexical = (parse q).lexical ↔ (parse p).climbs % 2 = (parse q).climbs % 2)) := by
  constructor
  · rw [walk_lexical, walk_eq, List.append_left_inj]
    cases (parse p).absolute with
    | true => simp
    | false =>
      rw [if_neg Bool.false_ne_true]
      generalize (parse p).climbs = n
      constructor
      · intro h
        have hlen := congrArg List.length h
        simp only [List.rdrop, List.length_take] at hlen
        omega
      · rintro (h | h | h)
        · cases h
        · rw [Nat.mod_eq_of_lt (by omega)]
        · have hn : d.length ≤ n := h.trans (Nat.mod_le n 2)
          rw [List.rdrop, List.rdrop, Nat.sub_eq_zero_of_le h, Nat.sub_eq_zero_of_le hn]
  · intro hp hq h
    rw [walk_eq, walk_eq, hp, hq, if_pos rfl, List.rdrop_nil, List.rdrop_nil, List.nil_append,
      List.nil_append] at h
    rw [lexical_of_absolute hp, lexical_of_absolute hq, h, OsPath.mk.injEq, kept_append_inj]
    exact and_iff_right rfl

/-- Two steps up are none. -/
theorem second_climb_is_lost :
    ¬ ∀ (d : List Name) (p : Str), walk d (parse p).lexical = walk d (parse p) := by
  intro h
  exact absurd (h [⟨"srv".toList, by decide⟩, ⟨"app".toList, by decide⟩] "../../x".toList)
    (by decide)

end MultiSource
