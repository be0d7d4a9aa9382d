import Mathlib.Data.List.Nodup
import MultiSource.Merge

/-!
# The laws of the deep merge

What the merge leaves at a path. At a path that base and overlay both hold, over steps it does not
skip, the merge holds the merge of the two values there, and all else comes from one of the two.
-/

namespace MultiSource

open Value

variable {base overlay : Value}

/-! ## Along a path -/

theorem lookup_undefined_getD (path : List Step) :
    (Value.undefined.lookup path).getD .undefined = .undefined := by
  cases path with
  | nil => rfl
  | cons s path => cases s <;> rfl

/-- At a path the overlay holds, over steps that are not skipped, there is the merge of what the
base has there, if anything, with what the overlay has. -/
theorem lookup_deepMerge (ho : overlay.Keyed) {path : List Step} (hs : ∀ s ∈ path, s.Safe)
    {ov : Value} (hov : overlay.lookup path = some ov) : (deepMerge base overlay).lookup path =
      some (deepMerge ((base.lookup path).getD .undefined) ov) := by
  induction path generalizing base overlay with
  | nil =>
    obtain rfl := Option.some.inj hov
    rfl
  | cons s path ih =>
    obtain ⟨o, ho', hov⟩ := Option.bind_eq_some_iff.mp hov
    obtain ⟨hsafe, hs⟩ := List.forall_mem_cons.mp hs
    by_cases h : SameFamily base overlay
    · rw [lookup_cons, child_deepMerge h ho hsafe, ho', mergeChild, Option.bind_some,
        ih (ho.child ho') hs hov, lookup_cons]
      cases base.child s with
      | none => rw [Option.getD_none, lookup_undefined_getD, Option.bind_none, Option.getD_none]
      | some b => rfl
    · have hb : base.child s = none := by
        by_contra hb
        obtain ⟨b, hb⟩ := Option.ne_none_iff_exists'.mp hb
        exact h (.of_child hb ho')
      rw [deepMerge_replaced h (by rintro rfl; cases s <;> cases ho'), lookup_cons, ho',
        lookup_cons, hb, Option.bind_none, Option.getD_none, undefined_deepMerge]
      exact hov

/-- The path runs through containers of one family until the overlay holds nothing further on it,
nothing defined, or a key that is skipped. -/
def Spared (base overlay : Value) (path : List Step) : Prop :=
  ∃ q rest bv ov, path = q ++ rest ∧ (∀ s ∈ q, s.Safe) ∧ base.lookup q = some bv ∧
    overlay.lookup q = some ov ∧ (ov = .undefined ∨ SameFamily bv ov ∧
      ∃ s, rest.head? = some s ∧ (ov.child s = none ∨ ¬ s.Safe))

theorem Spared.lookup_deepMerge (ho : overlay.Keyed) {path : List Step}
    (h : Spared base overlay path) :
    (deepMerge base overlay).lookup path = base.lookup path := by
  obtain ⟨q, rest, bv, ov, rfl, hq, hbv, hov, hend⟩ := h
  rw [lookup_append, MultiSource.lookup_deepMerge ho hq hov, lookup_append, hbv,
    Option.bind_some, Option.bind_some, Option.getD_some]
  rcases hend with rfl | ⟨hf, s, hs, hend⟩
  · rw [deepMerge_undefined]
  · obtain ⟨rest, rfl⟩ := List.head?_eq_some_iff.mp hs
    rw [lookup_cons, lookup_cons]
    by_cases hsafe : s.Safe
    · rw [child_deepMerge hf (ho.lookup hov) hsafe, hend.resolve_right (not_not.mpr hsafe)]
      rfl
    · rw [child_deepMerge_of_not_safe hf (ho.lookup hov) hsafe]

/-- A defined value that is no container is what the merge has in its place. -/
theorem lookup_deepMerge_of_scalar (ho : overlay.Keyed) {path : List Step} {v : Value}
    (hs : ∀ s ∈ path, s.Safe) (hv : overlay.lookup path = some v) (hd : v ≠ .undefined)
    (hf : v.frame = none) : (deepMerge base overlay).lookup path = some v := by
  rw [lookup_deepMerge ho hs hv, deepMerge_replaced (fun h => h.not_scalar hf) hd]

/-- Every value of a merge is one of the base, one of the overlay, or the merge of two containers
of one family. -/
theorem lookup_deepMerge_cases (ho : overlay.Keyed) {path : List Step} {v : Value}
    (hv : (deepMerge base overlay).lookup path = some v) :
    base.lookup path = some v ∨ overlay.lookup path = some v ∨
      ∃ bv ov, (∀ s ∈ path, s.Safe) ∧ base.lookup path = some bv ∧
        overlay.lookup path = some ov ∧ SameFamily bv ov ∧ v = deepMerge bv ov := by
  induction path generalizing base overlay with
  | nil =>
    obtain rfl := Option.some.inj hv
    by_cases h : SameFamily base overlay
    · exact .inr (.inr ⟨base, overlay, by simp, rfl, rfl, h, rfl⟩)
    · by_cases hd : overlay = .undefined
      · subst hd
        exact .inl (congrArg some (deepMerge_undefined base).symm)
      · exact .inr (.inl (congrArg some (deepMerge_replaced h hd).symm))
  | cons s path ih =>
    by_cases h : SameFamily base overlay
    · obtain ⟨w, hw, hv⟩ := Option.bind_eq_some_iff.mp hv
      by_cases hs : s.Safe
      · rw [child_deepMerge h ho hs] at hw
        cases ho' : overlay.child s with
        | none =>
          rw [ho'] at hw
          exact .inl (by rw [lookup_cons, show base.child s = some w from hw]; exact hv)
        | some o =>
          cases hb : base.child s with
          | none =>
            rw [ho', hb, mergeChild, Option.getD_none, undefined_deepMerge] at hw
            obtain rfl := Option.some.inj hw
            exact .inr (.inl (by rw [lookup_cons, ho']; exact hv))
          | some b =>
            rw [ho', hb, mergeChild, Option.getD_some] at hw
            obtain rfl := Option.some.inj hw
            simp only [lookup_cons, ho', hb, Option.bind_some, List.forall_mem_cons]
            rcases ih (ho.child ho') hv with h | h | ⟨bv, ov, hp, hrest⟩
            · exact .inl h
            · exact .inr (.inl h)
            · exact .inr (.inr ⟨bv, ov, ⟨hs, hp⟩, hrest⟩)
      · rw [child_deepMerge_of_not_safe h ho hs] at hw
        exact .inl (by rw [lookup_cons, hw]; exact hv)
    · by_cases hd : overlay = .undefined
      · subst hd
        rw [deepMerge_undefined] at hv
        exact .inl hv
      · rw [deepMerge_replaced h hd] at hv
        exact .inr (.inl hv)

/-- A merge of keyed values is keyed. -/
theorem Keyed.deepMerge (hb : base.Keyed) (ho : overlay.Keyed) :
    (deepMerge base overlay).Keyed := by
  intro path w es hw hes
  rcases lookup_deepMerge_cases ho hw with h | h | ⟨bv, ov, -, hbv, hov, hf, rfl⟩
  · exact hb path w es h hes
  · exact ho path w es h hes
  · rcases sameFamily_iff.mp hf with ⟨bs, os, hbs, hos⟩ | ⟨is, os, his, hos⟩
    · rw [(deepMerge_object hbs hos).1, Option.some.injEq] at hes
      subst hes
      have hn := (ho.lookup hov).nodup hos
      rw [keys_mergeEntries hn]
      refine List.nodup_append.mpr ⟨(hb.lookup hbv).nodup hbs, hn.filter _, ?_⟩
      rintro key hk _ hk' rfl
      exact (of_decide_eq_true (List.mem_filter.mp hk').2).1 hk
    · rw [objectEntries_of_array (deepMerge_array his hos).1] at hes
      cases hes

/-- **The deep merge law.** The overlay's scalars are in place, what the overlay does not reach
survives, nothing comes from elsewhere, and where two containers of one family meet the base's keys
come first and its container stays. -/
theorem deep_merge_law (base overlay : Value) (ho : overlay.Keyed) :
    (∀ path v, (∀ s ∈ path, s.Safe) → overlay.lookup path = some v → v ≠ .undefined →
      v.frame = none → (deepMerge base overlay).lookup path = some v) ∧
    (∀ path v, Spared base overlay path → base.lookup path = some v →
      (deepMerge base overlay).lookup path = some v) ∧
    (∀ path v, (deepMerge base overlay).lookup path = some v →
      base.lookup path = some v ∨ overlay.lookup path = some v ∨
        ∃ bv ov, (∀ s ∈ path, s.Safe) ∧ base.lookup path = some bv ∧
          overlay.lookup path = some ov ∧ SameFamily bv ov ∧ v = deepMerge bv ov) ∧
    ∀ path bv ov, (∀ s ∈ path, s.Safe) → base.lookup path = some bv →
      overlay.lookup path = some ov → SameFamily bv ov →
      ∃ v, (deepMerge base overlay).lookup path = some v ∧ v.frame = bv.frame ∧
        ∀ es os, objectEntries bv = some es → objectEntries ov = some os →
          ∃ vs, objectEntries v = some vs ∧ vs.map Prod.fst = es.map Prod.fst ++
            (os.map Prod.fst).filter fun key => key ∉ es.map Prod.fst ∧ key ∉ DANGEROUS := by
  refine ⟨fun path v hs hv hd hf => lookup_deepMerge_of_scalar ho hs hv hd hf,
    fun path v hspared hv => (hspared.lookup_deepMerge ho).trans hv,
    fun path v hv => lookup_deepMerge_cases ho hv, fun path bv ov hs hbv hov hf => ?_⟩
  have hv : (deepMerge base overlay).lookup path = some (deepMerge bv ov) := by
    rw [lookup_deepMerge ho hs hov, hbv, Option.getD_some]
  refine ⟨deepMerge bv ov, hv, hf.frame, fun es os hes hos => ?_⟩
  exact ⟨_, (deepMerge_object hes hos).1, keys_mergeEntries ((ho.lookup hov).nodup hos) es⟩

/-- A map of settings under one key. -/
def nested (outer inner : Str) (v : Value) : Value := .object [(outer, .object [(inner, v)])]

theorem nested_keyed (outer inner : Str) {v : Value} (hv : v.frame = none) :
    (nested outer inner v).Keyed := by
  refine keyed_object (List.nodup_singleton _) fun e he => ?_
  rw [List.mem_singleton.mp he]
  refine keyed_object (List.nodup_singleton _) fun e he => ?_
  rw [List.mem_singleton.mp he]
  exact keyed_of_frame_none hv

/-- A setting the overlay has wins, and one beside it stays. -/
theorem deep_merge_law_settings :
    let base := nested "a".toList "x".toList .null
    let merged := deepMerge base (nested "a".toList "y".toList (.bool true))
    merged.lookup [.key "a".toList, .key "y".toList] = some (.bool true) ∧
      merged.lookup [.key "a".toList, .key "x".toList] = some .null := by
  intro base merged
  obtain ⟨hscalar, hspared, -⟩ := deep_merge_law base (nested "a".toList "y".toList (.bool true))
    (nested_keyed _ _ rfl)
  refine ⟨hscalar _ _ (by decide) rfl Value.noConfusion rfl, hspared _ _ ?_ rfl⟩
  exact ⟨[.key "a".toList], [.key "x".toList], _, _, rfl, by decide, rfl, rfl, .inr
    ⟨by decide, _, rfl, .inl rfl⟩⟩

/-! ## The prototype guard -/

/-- The first step that is skipped. -/
theorem exists_first_unsafe {path : List Step} (h : ∃ s ∈ path, ¬ s.Safe) :
    ∃ q name rest, path = q ++ .key name :: rest ∧ name ∈ DANGEROUS ∧ ∀ s ∈ q, s.Safe := by
  obtain ⟨s, hs, hsafe⟩ := h
  have hfind : (path.find? fun t => ¬ t.Safe).isSome = true :=
    List.find?_isSome.mpr ⟨s, hs, by simpa using hsafe⟩
  obtain ⟨t, ht⟩ := Option.isSome_iff_exists.mp hfind
  obtain ⟨hsafe, q, rest, rfl, hq⟩ := List.find?_eq_some_iff_append.mp ht
  obtain ⟨name, hname, rfl⟩ := Step.not_safe (by simpa using hsafe)
  exact ⟨q, name, rest, rfl, hname, fun u hu => by simpa using hq u hu⟩

/-- An entry at the end of a path is an entry of a map. -/
theorem exists_map_of_lookup {v : Value} {path : List Step} {name : Str}
    (h : (v.lookup (path ++ [.key name])).isSome = true) :
    ∃ w es, v.lookup path = some w ∧ objectEntries w = some es ∧ (es.get name).isSome = true := by
  obtain ⟨u, hu⟩ := Option.isSome_iff_exists.mp h
  rw [lookup_concat] at hu
  obtain ⟨w, hw, hu⟩ := Option.bind_eq_some_iff.mp hu
  obtain ⟨es, hes, hu⟩ := Option.bind_eq_some_iff.mp hu
  exact ⟨w, es, hw, hes, Option.isSome_iff_exists.mpr ⟨u, hu⟩⟩

/-- A map of the overlay lands whole where the base has no map. -/
theorem map_lands (ho : overlay.Keyed) {path : List Step} (hs : ∀ s ∈ path, s.Safe) {ov : Value}
    {os : Entries Value} (hov : overlay.lookup path = some ov) (hos : objectEntries ov = some os)
    (hno : ¬ ∃ bv, base.lookup path = some bv ∧ (objectEntries bv).isSome = true) :
    (deepMerge base overlay).lookup path = some ov := by
  have hbase : objectEntries ((base.lookup path).getD .undefined) = none := by
    cases hb : base.lookup path with
    | none => rfl
    | some bv =>
      cases hes : objectEntries bv with
      | none => exact hes
      | some es => exact absurd ⟨bv, hb, by rw [hes]; rfl⟩ hno
  rw [lookup_deepMerge ho hs hov, deepMerge_of_not_map hbase hos]

/-- **How far the prototype guard reaches.** A merge has a dangerous entry that its base lacks
exactly where the overlay has one, not below another, and the base has no map at the place. -/
theorem prototype_guard_reaches_iff (base overlay : Value) (ho : overlay.Keyed) :
    (∀ path name, name ∈ DANGEROUS →
      ((deepMerge base overlay).lookup (path ++ [.key name])).isSome = true →
      (base.lookup (path ++ [.key name])).isSome = true) ↔
    ∀ path name, name ∈ DANGEROUS → (∀ s ∈ path, s.Safe) →
      (overlay.lookup (path ++ [.key name])).isSome = true →
      ∃ bv, base.lookup path = some bv ∧ (objectEntries bv).isSome = true := by
  constructor
  · intro hguard path name hname hs hov
    obtain ⟨ov, os, hov', hos, hget⟩ := exists_map_of_lookup hov
    by_contra hno
    have hlands := map_lands ho hs hov' hos hno
    have hentry : ((deepMerge base overlay).lookup (path ++ [.key name])).isSome = true := by
      rw [lookup_concat, hlands, Option.bind_some, child_key hos]
      exact hget
    obtain ⟨bv, bs, hbv, hbs, -⟩ := exists_map_of_lookup (hguard path name hname hentry)
    exact hno ⟨bv, hbv, Option.isSome_iff_exists.mpr ⟨bs, hbs⟩⟩
  · intro hmaps path name hname hv
    obtain ⟨v, hv⟩ := Option.isSome_iff_exists.mp hv
    rcases lookup_deepMerge_cases ho hv with h | h | ⟨bv, -, -, hbv, -⟩
    · exact Option.isSome_iff_exists.mpr ⟨v, h⟩
    · -- the first dangerous key on the way is skipped, and the base stands below it
      obtain ⟨q, first, rest, hpath, hfirst, hq⟩ := exists_first_unsafe
        ⟨.key name, List.mem_append_right path (List.mem_singleton_self _), not_not.mpr hname⟩
      rw [hpath, List.append_cons, lookup_append] at h
      obtain ⟨w, hw, -⟩ := Option.bind_eq_some_iff.mp h
      have hw' := Option.isSome_iff_exists.mpr ⟨w, hw⟩
      obtain ⟨ov, os, hov, hos, -⟩ := exists_map_of_lookup hw'
      obtain ⟨bv, hbv, hbs⟩ := hmaps q first hfirst hq hw'
      have hspared : Spared base overlay (path ++ [.key name]) :=
        ⟨q, _, bv, ov, hpath, hq, hbv, hov, .inr
          ⟨.inl ⟨hbs, Option.isSome_iff_exists.mpr ⟨os, hos⟩⟩, _, rfl, .inr (not_not.mpr hfirst)⟩⟩
      rw [← hspared.lookup_deepMerge ho]
      exact Option.isSome_iff_exists.mpr ⟨v, hv⟩
    · exact Option.isSome_iff_exists.mpr ⟨bv, hbv⟩

/-- A dangerous entry of the loaded map itself is not merged. -/
theorem prototype_guard_reaches_iff_top :
    let overlay := Value.object [("__proto__".toList, .null)]
    ¬ ((deepMerge (.object []) overlay).lookup [.key "__proto__".toList]).isSome = true := by
  intro overlay h
  have hkeyed : overlay.Keyed := by
    refine keyed_object (List.nodup_singleton _) fun e he => ?_
    rw [List.mem_singleton.mp he]
    exact keyed_of_frame_none rfl
  refine absurd ((prototype_guard_reaches_iff (.object []) overlay hkeyed).mpr ?_ [] _
    (by decide) h) (by decide)
  intro path name _ _ hname
  obtain ⟨w, es, hw, hes, -⟩ := exists_map_of_lookup hname
  cases path with
  | nil => exact ⟨_, rfl, rfl⟩
  | cons s path =>
    obtain ⟨u, hu, hw⟩ := Option.bind_eq_some_iff.mp ((lookup_cons ..).symm.trans hw)
    cases s with
    | index place => cases hu
    | key k =>
      have hmem : (k, u) ∈ [("__proto__".toList, Value.null)] := Entries.get_mem hu
      obtain rfl : u = .null := congrArg Prod.snd (List.mem_singleton.mp hmem)
      cases path with
      | nil =>
        obtain rfl := Option.some.inj hw
        cases hes
      | cons t path => cases t <;> cases hw

/-- A dangerous entry of a map that lands where the base has nothing is in the merge. -/
theorem prototype_key_lands :
    let merged := deepMerge (.object []) (nested "a".toList "__proto__".toList .null)
    ¬ ∀ path name, name ∈ DANGEROUS →
      (merged.lookup (path ++ [.key name])).isSome = true →
      ((Value.object []).lookup (path ++ [.key name])).isSome = true := by
  intro merged h
  exact absurd (h [.key "a".toList] "__proto__".toList (by decide) (by decide)) (by decide)

end MultiSource
