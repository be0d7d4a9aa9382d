import Mathlib.Data.List.Basic
import Mathlib.Data.List.Infix

/-!
# Text

The strings of the source are lists of characters here, so that slices and splits are list
operations. `rsplit` is `rfind` with the two slices around the index it returns.
-/

namespace MultiSource

abbrev Str : Type := List Char

instance : LawfulBEq Str := inferInstance

/-- The two path separators. -/
def isSep (c : Char) : Bool := c = '/' || c = '\\'

/-- The text before and after the last character that satisfies `p`. -/
def rsplit (p : Char → Bool) : Str → Option (Str × Str)
  | [] => none
  | c :: cs =>
    match rsplit p cs with
    | some (a, b) => some (c :: a, b)
    | none => if p c then some ([], cs) else none

theorem rsplit_eq_none {p : Char → Bool} {s : Str} :
    rsplit p s = none ↔ ∀ c ∈ s, p c = false := by
  induction s with
  | nil => simp [rsplit]
  | cons c cs ih =>
    rw [rsplit]
    cases h : rsplit p cs with
    | some ab =>
      have hn : ¬ ∀ c ∈ cs, p c = false := fun hc => by simp [ih.mpr hc] at h
      simp only [reduceCtorEq, List.mem_cons, forall_eq_or_imp, false_iff, not_and]
      exact fun _ => hn
    | none =>
      have hcs := ih.mp h
      by_cases hc : p c = true
      · simp [hc]
      · simpa [hc] using hcs

theorem rsplit_eq_some {p : Char → Bool} {s a b : Str} (h : rsplit p s = some (a, b)) :
    ∃ c, p c = true ∧ s = a ++ c :: b ∧ ∀ d ∈ b, p d = false := by
  induction s generalizing a b with
  | nil => simp [rsplit] at h
  | cons c cs ih =>
    rw [rsplit] at h
    cases hr : rsplit p cs with
    | some ab =>
      obtain ⟨a', b'⟩ := ab
      simp only [hr, Option.some.injEq, Prod.mk.injEq] at h
      obtain ⟨rfl, rfl⟩ := h
      obtain ⟨d, hd, rfl, hb⟩ := ih hr
      exact ⟨d, hd, rfl, hb⟩
    | none =>
      simp only [hr, Option.ite_none_right_eq_some, Option.some.injEq, Prod.mk.injEq] at h
      obtain ⟨hc, rfl, rfl⟩ := h
      exact ⟨c, hc, rfl, rsplit_eq_none.mp hr⟩

theorem rsplit_append_cons {p : Char → Bool} {a b : Str} {c : Char} (hc : p c = true)
    (hb : ∀ d ∈ b, p d = false) : rsplit p (a ++ c :: b) = some (a, b) := by
  induction a with
  | nil => simp [rsplit, rsplit_eq_none.mpr hb, hc]
  | cons d a ih => simp [rsplit, ih]

/-- The text after the last character that satisfies `p`, or all of it. -/
def afterLast (p : Char → Bool) (s : Str) : Str :=
  match rsplit p s with
  | some (_, b) => b
  | none => s

theorem afterLast_of_forall {p : Char → Bool} {s : Str} (h : ∀ c ∈ s, p c = false) :
    afterLast p s = s := by
  rw [afterLast, rsplit_eq_none.mpr h]

theorem afterLast_not_mem (p : Char → Bool) (s : Str) : ∀ c ∈ afterLast p s, p c = false := by
  unfold afterLast
  cases h : rsplit p s with
  | none => exact rsplit_eq_none.mp h
  | some ab =>
    obtain ⟨c, -, -, hb⟩ := rsplit_eq_some h
    exact hb

theorem afterLast_append_cons {p : Char → Bool} {a b : Str} {c : Char} (hc : p c = true)
    (hb : ∀ d ∈ b, p d = false) : afterLast p (a ++ c :: b) = b := by
  rw [afterLast, rsplit_append_cons hc hb]

/-- The text without its trailing characters that satisfy `p`. -/
def trimEnd (p : Char → Bool) (s : Str) : Str := (s.reverse.dropWhile p).reverse

/-- A number in decimal, as `format!` writes it. -/
def decimal (n : ℕ) : Str := Nat.toDigits 10 n

theorem decimal_injective : Function.Injective decimal := by
  intro m n h
  have h' := congrArg (Nat.ofDigitChars 10 · 0) h
  simpa [decimal] using h'

@[simp] theorem decimal_inj {m n : ℕ} : decimal m = decimal n ↔ m = n := decimal_injective.eq_iff

end MultiSource
