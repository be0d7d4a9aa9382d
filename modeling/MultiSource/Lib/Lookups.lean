import Mathlib.Data.List.Infix

/-!
# Searches that list what they look up

A search asks for the values of some keys and keeps a list of those it asked for, which is its
footprint: two tables that agree on the keys in it give the same search.
-/

namespace Lookups

variable {K V α β : Type}

/-- A search over a table: its result and the keys looked up, after those looked up before. -/
abbrev Search (K V α : Type) : Type := (K → V) → List K → α × List K

def done (a : α) : Search K V α := fun _ seen => (a, seen)

/-- Look one key up. -/
def look (k : K) : Search K V V := fun table seen => (table k, seen ++ [k])

/-- One search after another. -/
def andThen (f : Search K V α) (g : α → Search K V β) : Search K V β := fun table seen =>
  g (f table seen).1 table (f table seen).2

/-- The second search where the first finds nothing. -/
def orThen (f g : Search K V (Option α)) : Search K V (Option α) :=
  andThen f fun found => found.elim g fun a => done (some a)

/-- The search only adds to its list, and depends on no key that is not on it in the end. -/
structure Lists (f : Search K V α) : Prop where
  grows : ∀ table seen, seen <+: (f table seen).2
  same : ∀ table table' seen, (∀ k ∈ (f table seen).2, table k = table' k) →
    f table seen = f table' seen

theorem Lists.done (a : α) : Lists (done a : Search K V α) :=
  ⟨fun _ seen => List.prefix_refl seen, fun _ _ _ _ => rfl⟩

theorem Lists.look (k : K) : Lists (look k : Search K V V) where
  grows _ seen := List.prefix_append seen [k]
  same table table' seen h := by
    unfold Lookups.look at h ⊢
    rw [h k (by simp)]

theorem Lists.andThen {f : Search K V α} {g : α → Search K V β} (hf : Lists f)
    (hg : ∀ a, Lists (g a)) : Lists (andThen f g) where
  grows table seen := (hf.grows table seen).trans ((hg _).grows table _)
  same table table' seen h := by
    unfold Lookups.andThen at h ⊢
    have hkeys := ((hg (f table seen).1).grows table (f table seen).2).subset
    rw [← hf.same table table' seen fun k hk => h k (hkeys hk)]
    exact (hg _).same table table' _ h

theorem Lists.orThen {f g : Search K V (Option α)} (hf : Lists f) (hg : Lists g) :
    Lists (orThen f g) := by
  refine hf.andThen fun found => ?_
  cases found with
  | none => exact hg
  | some a => exact .done _

end Lookups
