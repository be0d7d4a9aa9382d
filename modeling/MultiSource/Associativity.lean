import MultiSource.Overlays

/-!
# Splicing in steps

Two values spliced one after the other against the one spliced into the other first. The two agree
unless the value between hides, somewhere, what the last would have been merged into.
-/

namespace MultiSource

open Value

/-! ## Families -/

section Families

variable {a b c : Value}

theorem SameFamily.symm (h : SameFamily a b) : SameFamily b a := h.imp And.symm And.symm

theorem SameFamily.trans (h : SameFamily a b) (h' : SameFamily b c) : SameFamily a c := by
  rcases sameFamily_iff.mp h with ⟨es, os, hes, hos⟩ | ⟨is, os, his, hos⟩
  · rcases sameFamily_iff.mp h' with ⟨es', os', hes', hos'⟩ | ⟨is', os', his', -⟩
    · exact sameFamily_iff.mpr (.inl ⟨es, os', hes, hos'⟩)
    · rw [objectEntries_of_array his'] at hos
      cases hos
  · rcases sameFamily_iff.mp h' with ⟨es', os', hes', -⟩ | ⟨is', os', his', hos'⟩
    · rw [arrayItems_of_object hes'] at hos
      cases hos
    · exact sameFamily_iff.mpr (.inr ⟨is, os', his, hos'⟩)

theorem SameFamily.ne_undefined (h : SameFamily a b) : b ≠ .undefined := by
  rintro rfl
  exact h.not_scalar rfl

/-- A merge of two containers of one family is of that family. -/
theorem SameFamily.base_merged (h : SameFamily a b) : SameFamily a (deepMerge a b) :=
  (h.trans h.symm).trans (h.merged.trans h.symm).symm

end Families

/-! ## One level -/

section Level

variable {es bs cs : Entries Value}

/-- New keys go to the end, in the order in which they come. -/
theorem keys_assoc (hbs : (bs.map Prod.fst).Nodup) (hcs : (cs.map Prod.fst).Nodup) :
    (mergeEntries (mergeEntries es bs) cs).map Prod.fst =
      (mergeEntries es (mergeEntries bs cs)).map Prod.fst := by
  rw [keys_mergeEntries hcs, keys_mergeEntries hbs, keys_mergeEntries (nodup_mergeEntries hbs hcs),
    keys_mergeEntries hcs, List.filter_append, List.filter_filter, ← List.append_assoc]
  congr 1
  apply List.filter_congr
  intro key _
  simp only [List.mem_append, List.mem_filter, Bool.decide_and, decide_not]
  by_cases he : key ∈ es.map Prod.fst <;> by_cases hb : key ∈ bs.map Prod.fst <;>
    by_cases hd : key ∈ DANGEROUS <;> simp [he, hb, hd]

/-- Children that merge in either order come to the same. -/
theorem mergeChild_assoc {a b c : Option Value}
    (h : ∀ x y z, a = some x → b = some y → c = some z →
      deepMerge (deepMerge x y) z = deepMerge x (deepMerge y z)) :
    mergeChild (mergeChild a b) c = mergeChild a (mergeChild b c) := by
  cases c with
  | none => rfl
  | some z =>
    cases b with
    | none => simp [mergeChild]
    | some y =>
      cases a with
      | none => simp [mergeChild]
      | some x => simp [mergeChild, h x y z rfl rfl rfl]

/-- It is the same whether the third is merged last, or into the second first. -/
abbrev Associates (a b c : Value) : Prop :=
  deepMerge (deepMerge a b) c = deepMerge a (deepMerge b c)

theorem entries_assoc (hes : (es.map Prod.fst).Nodup) (hbs : (bs.map Prod.fst).Nodup)
    (hcs : (cs.map Prod.fst).Nodup)
    (h : ∀ key x y z, key ∉ DANGEROUS → es.get key = some x → bs.get key = some y →
      cs.get key = some z → Associates x y z) :
    mergeEntries (mergeEntries es bs) cs = mergeEntries es (mergeEntries bs cs) := by
  apply Entries.eq_of_get (keys_assoc hbs hcs)
    (nodup_mergeEntries (nodup_mergeEntries hes hbs) hcs)
  intro key
  rw [get_mergeEntries hcs, get_mergeEntries hbs, get_mergeEntries (nodup_mergeEntries hbs hcs),
    get_mergeEntries hcs]
  by_cases hd : key ∈ DANGEROUS
  · simp only [if_pos hd]
  · simp only [if_neg hd]
    exact mergeChild_assoc fun x y z => h key x y z hd

theorem items_assoc {is bs cs : List Value}
    (h : ∀ (i : ℕ) x y z, is[i]? = some x → bs[i]? = some y → cs[i]? = some z → Associates x y z) :
    mergeItems (mergeItems is bs) cs = mergeItems is (mergeItems bs cs) := by
  apply List.ext_getElem?
  intro i
  simp only [getElem?_mergeItems]
  exact mergeChild_assoc (h i)

/-- Where all three are containers of one family, it is up to the values inside. -/
theorem associates_of_children {a b c : Value} (ha : a.Keyed) (hb : b.Keyed) (hc : c.Keyed)
    (hab : SameFamily a b) (hbc : SameFamily b c)
    (h : ∀ s x y z, s.Safe → a.child s = some x → b.child s = some y → c.child s = some z →
      Associates x y z) : Associates a b c := by
  rcases sameFamily_iff.mp hab with ⟨es, bs, hes, hbs⟩ | ⟨is, bs, his, hbs⟩
  · obtain ⟨cs, hcs⟩ : ∃ cs, objectEntries c = some cs := by
      rcases sameFamily_iff.mp hbc with ⟨_, cs, -, hcs⟩ | ⟨is, -, his, -⟩
      · exact ⟨cs, hcs⟩
      · rw [arrayItems_of_object hbs] at his
        cases his
    obtain ⟨hm, hf⟩ := deepMerge_object hes hbs
    obtain ⟨hm', hf'⟩ := deepMerge_object hbs hcs
    obtain ⟨hl, hfl⟩ := deepMerge_object hm hcs
    obtain ⟨hr, hfr⟩ := deepMerge_object hes hm'
    have hassoc := entries_assoc (ha.nodup hes) (hb.nodup hbs) (hc.nodup hcs)
      fun key x y z hd hx hy hz => h (.key key) x y z hd (by rw [child_key hes, hx])
        (by rw [child_key hbs, hy]) (by rw [child_key hcs, hz])
    exact eq_of_entries hl (hassoc ▸ hr) ((hfl.trans hf).trans hfr.symm)
  · obtain ⟨cs, hcs⟩ : ∃ cs, arrayItems c = some cs := by
      rcases sameFamily_iff.mp hbc with ⟨es, _, hes, -⟩ | ⟨_, cs, -, hcs⟩
      · rw [objectEntries_of_array hbs] at hes
        cases hes
      · exact ⟨cs, hcs⟩
    obtain ⟨hm, hf⟩ := deepMerge_array his hbs
    obtain ⟨hm', hf'⟩ := deepMerge_array hbs hcs
    obtain ⟨hl, hfl⟩ := deepMerge_array hm hcs
    obtain ⟨hr, hfr⟩ := deepMerge_array his hm'
    have hassoc := items_assoc fun i x y z hx hy hz => h (.index i) x y z trivial
      (by rw [child_index his, hx]) (by rw [child_index hbs, hy]) (by rw [child_index hcs, hz])
    exact eq_of_items hl (hassoc ▸ hr) ((hfl.trans hf).trans hfr.symm)

end Level

/-! ## All levels -/

/-- Somewhere the value between replaces a container of the first that the last would have been
merged into, and would have changed it. -/
def Hides (a b c : Value) : Prop :=
  ∃ path x y z, (∀ s ∈ path, s.Safe) ∧ a.lookup path = some x ∧ b.lookup path = some y ∧
    c.lookup path = some z ∧ SameFamily x z ∧ ¬ SameFamily x y ∧ y ≠ .undefined ∧ deepMerge x z ≠ z

theorem Hides.of_child {a b c x y z : Value} {s : Step} (hs : s.Safe) (ha : a.child s = some x)
    (hb : b.child s = some y) (hc : c.child s = some z) (h : Hides x y z) : Hides a b c := by
  obtain ⟨path, x', y', z', hsafe, hx, hy, hz, hrest⟩ := h
  refine ⟨s :: path, x', y', z', List.forall_mem_cons.mpr ⟨hs, hsafe⟩, ?_, ?_, ?_, hrest⟩
  · rw [lookup_cons, ha, Option.bind_some, hx]
  · rw [lookup_cons, hb, Option.bind_some, hy]
  · rw [lookup_cons, hc, Option.bind_some, hz]

theorem associates_of_not_hides {a b c : Value} (ha : a.Keyed) (hb : b.Keyed) (hc : c.Keyed)
    (h : ¬ Hides a b c) : Associates a b c := by
  induction c using child_induction generalizing a b with
  | _ c ih =>
    by_cases hcu : c = .undefined
    · rw [Associates, hcu, deepMerge_undefined, deepMerge_undefined]
    by_cases hbu : b = .undefined
    · rw [Associates, hbu, deepMerge_undefined, undefined_deepMerge]
    by_cases hbc : SameFamily b c
    · by_cases hab : SameFamily a b
      · exact associates_of_children ha hb hc hab hbc fun s x y z hs hx hy hz =>
          ih s z hz (ha.child hx) (hb.child hy) (hc.child hz) fun hh =>
            h (hh.of_child hs hx hy hz)
      · -- the value between replaces the first, with or without the last merged into it
        have hmerged : ¬ SameFamily a (deepMerge b c) :=
          fun hf => hab (hf.trans hbc.base_merged.symm)
        rw [Associates, deepMerge_replaced hab hbu,
          deepMerge_replaced hmerged hbc.base_merged.ne_undefined]
    · rw [Associates, deepMerge_replaced hbc hcu]
      by_cases hab : SameFamily a b
      · have hmerged : ¬ SameFamily (deepMerge a b) c := fun hf => hbc (hab.merged.symm.trans hf)
        have hac : ¬ SameFamily a c := fun hf => hbc (hab.symm.trans hf)
        rw [deepMerge_replaced hmerged hcu, deepMerge_replaced hac hcu]
      · rw [deepMerge_replaced hab hbu, deepMerge_replaced hbc hcu]
        by_cases hac : SameFamily a c
        · by_contra hne
          exact h ⟨[], a, b, c, by simp, rfl, rfl, rfl, hac, hab, hbu, Ne.symm hne⟩
        · rw [deepMerge_replaced hac hcu]

/-- At the path where something is hidden the two results differ. -/
theorem not_associates_of_hides {a b c : Value} (hb : b.Keyed) (hc : c.Keyed) (h : Hides a b c) :
    ¬ Associates a b c := by
  intro heq
  obtain ⟨path, x, y, z, hsafe, hx, hy, hz, hxz, hxy, hyu, hne⟩ := h
  have hyz : ¬ SameFamily y z := fun hf => hxy (hxz.trans hf.symm)
  have hleft : (deepMerge (deepMerge a b) c).lookup path = some z := by
    rw [lookup_deepMerge hc hsafe hz, lookup_deepMerge hb hsafe hy, hx, Option.getD_some,
      Option.getD_some, deepMerge_replaced hxy hyu, deepMerge_replaced hyz hxz.ne_undefined]
  have hright : (deepMerge a (deepMerge b c)).lookup path = some (deepMerge x z) := by
    have hbc : (deepMerge b c).lookup path = some z := by
      rw [lookup_deepMerge hc hsafe hz, hy, Option.getD_some,
        deepMerge_replaced hyz hxz.ne_undefined]
    rw [lookup_deepMerge (Keyed.deepMerge hb hc) hsafe hbc, hx, Option.getD_some]
  rw [heq, hright] at hleft
  exact hne (Option.some.inj hleft)

end MultiSource
