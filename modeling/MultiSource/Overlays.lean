import MultiSource.Splices

/-!
# Overlays that do not conflict

Two overlays that meet only in maps can be merged in either order: the results have the same values,
and only the order of keys differs.
-/

namespace MultiSource

open Value

/-- Equal up to the order of keys, at every level. -/
inductive UpToOrder : Value → Value → Prop
  | same (v : Value) : UpToOrder v v
  | object {es os : Entries Value} : (es.map Prod.fst).Perm (os.map Prod.fst) →
      (∀ key v w, es.get key = some v → os.get key = some w → UpToOrder v w) →
      UpToOrder (.object es) (.object os)
  | mapRef {es os : Entries Value} (implicit : Bool) (info : List (Str × Value)) :
      (es.map Prod.fst).Perm (os.map Prod.fst) →
      (∀ key v w, es.get key = some v → os.get key = some w → UpToOrder v w) →
      UpToOrder (.mapRef es implicit info) (.mapRef os implicit info)
  | array {is os : List Value} : is.length = os.length →
      (∀ (i : ℕ) v w, is[i]? = some v → os[i]? = some w → UpToOrder v w) →
      UpToOrder (.array is) (.array os)
  | listRef {is os : List Value} (implicit : Bool) (info : List (Str × Value)) :
      is.length = os.length →
      (∀ (i : ℕ) v w, is[i]? = some v → os[i]? = some w → UpToOrder v w) →
      UpToOrder (.listRef is implicit info) (.listRef os implicit info)

/-- No key of the value, at any depth, is one the merge skips. -/
def NoDangerousKeys (v : Value) : Prop :=
  ∀ path name, name ∈ DANGEROUS → v.lookup (path ++ [.key name]) = none

/-- Wherever both have an entry, both entries are plain maps. -/
def MeetInMaps (a b : Value) : Prop :=
  ∀ path v w, a.lookup path = some v → b.lookup path = some w →
    (∃ es, v = .object es) ∧ ∃ os, w = .object os

variable {a b v w : Value} {s : Step}

theorem NoDangerousKeys.child (h : NoDangerousKeys v) (hw : v.child s = some w) :
    NoDangerousKeys w := by
  intro path name hname
  have hp := h (s :: path) name hname
  rwa [List.cons_append, lookup_cons, hw] at hp

theorem NoDangerousKeys.get {es : Entries Value} (h : NoDangerousKeys v)
    (hes : objectEntries v = some es) {key : Str} (hk : key ∈ DANGEROUS) : es.get key = none := by
  rw [← child_key hes]
  have hp := h [] key hk
  rw [List.nil_append, lookup_cons] at hp
  cases hc : v.child (.key key) with
  | none => rfl
  | some u =>
    rw [hc] at hp
    cases hp

theorem MeetInMaps.child (h : MeetInMaps a b) (ha : a.child s = some v)
    (hb : b.child s = some w) : MeetInMaps v w := by
  intro path v' w' hv hw
  apply h (s :: path)
  · rw [lookup_cons, ha]
    exact hv
  · rw [lookup_cons, hb]
    exact hw

/-! ## One level -/

section Level

variable {es as bs os : Entries Value}

/-- Without skipped keys, an entry of the merge is the merge of the entries. -/
theorem get_mergeEntries_of_safe (hos : (os.map Prod.fst).Nodup)
    (hd : ∀ key ∈ DANGEROUS, os.get key = none) (es : Entries Value) (key : Str) :
    (mergeEntries es os).get key = mergeChild (es.get key) (os.get key) := by
  rw [get_mergeEntries hos]
  split_ifs with hk
  · rw [hd key hk]
    rfl
  · rfl

theorem nodup_mergeEntries (hes : (es.map Prod.fst).Nodup) (hos : (os.map Prod.fst).Nodup) :
    ((mergeEntries es os).map Prod.fst).Nodup := by
  rw [keys_mergeEntries hos]
  refine List.nodup_append.mpr ⟨hes, hos.filter _, ?_⟩
  rintro key hk _ hk' rfl
  exact (of_decide_eq_true (List.mem_filter.mp hk').2).1 hk

theorem mem_keys_mergeEntries (hos : (os.map Prod.fst).Nodup)
    (hd : ∀ key ∈ DANGEROUS, os.get key = none) {key : Str} :
    key ∈ (mergeEntries es os).map Prod.fst ↔ key ∈ es.map Prod.fst ∨ key ∈ os.map Prod.fst := by
  have hiff : ∀ {ms : Entries Value}, key ∈ ms.map Prod.fst ↔ ms.get key ≠ none := fun {ms} => by
    rw [ne_eq, Entries.get_eq_none, not_not]
  rw [hiff, hiff, hiff, get_mergeEntries_of_safe hos hd]
  cases os.get key <;> simp [mergeChild]

/-- Both orders give the same keys. -/
theorem perm_keys (hes : (es.map Prod.fst).Nodup) (has : (as.map Prod.fst).Nodup)
    (hbs : (bs.map Prod.fst).Nodup) (hda : ∀ key ∈ DANGEROUS, as.get key = none)
    (hdb : ∀ key ∈ DANGEROUS, bs.get key = none) :
    ((mergeEntries (mergeEntries es as) bs).map Prod.fst).Perm
      ((mergeEntries (mergeEntries es bs) as).map Prod.fst) := by
  apply (List.perm_ext_iff_of_nodup (nodup_mergeEntries (nodup_mergeEntries hes has) hbs)
    (nodup_mergeEntries (nodup_mergeEntries hes hbs) has)).mpr
  intro key
  rw [mem_keys_mergeEntries hbs hdb, mem_keys_mergeEntries has hda,
    mem_keys_mergeEntries has hda, mem_keys_mergeEntries hbs hdb]
  tauto

/-- Merged into nothing, a map without skipped keys is itself. -/
theorem mergeEntries_nil (hos : (os.map Prod.fst).Nodup)
    (hd : ∀ key ∈ DANGEROUS, os.get key = none) : mergeEntries [] os = os := by
  apply Entries.eq_of_get
  · rw [keys_mergeEntries hos, List.map_nil, List.nil_append, List.filter_eq_self]
    intro key hkey
    have hsafe : key ∉ DANGEROUS := fun h => Entries.get_eq_none.mp (hd key h) hkey
    simp [hsafe]
  · exact nodup_mergeEntries List.nodup_nil hos
  · intro key
    rw [get_mergeEntries_of_safe hos hd, Entries.get_nil]
    cases os.get key <;> simp [mergeChild]

/-- The entries both orders give, where both overlays have one only by the two merges of it. -/
theorem upToOrder_entries (has : (as.map Prod.fst).Nodup) (hbs : (bs.map Prod.fst).Nodup)
    (hda : ∀ key ∈ DANGEROUS, as.get key = none) (hdb : ∀ key ∈ DANGEROUS, bs.get key = none)
    (h : ∀ key x y, as.get key = some x → bs.get key = some y →
      let previous := (es.get key).getD .undefined
      UpToOrder (deepMerge (deepMerge previous x) y) (deepMerge (deepMerge previous y) x))
    (key : Str) (v w : Value) (hv : (mergeEntries (mergeEntries es as) bs).get key = some v)
    (hw : (mergeEntries (mergeEntries es bs) as).get key = some w) : UpToOrder v w := by
  rw [get_mergeEntries_of_safe hbs hdb, get_mergeEntries_of_safe has hda] at hv
  rw [get_mergeEntries_of_safe has hda, get_mergeEntries_of_safe hbs hdb] at hw
  cases hx : as.get key with
  | none =>
    rw [hx] at hv hw
    obtain rfl := Option.some.inj (hv.symm.trans hw)
    exact .same _
  | some x =>
    cases hy : bs.get key with
    | none =>
      rw [hx, hy] at hv hw
      obtain rfl := Option.some.inj (hv.symm.trans hw)
      exact .same _
    | some y =>
      rw [hx, hy] at hv hw
      obtain rfl := Option.some.inj hv
      obtain rfl := Option.some.inj hw
      exact h key x y hx hy

end Level

/-! ## Both orders -/

/-- Where both overlays meet in maps, the order of the two merges shows in the order of keys
alone. -/
theorem upToOrder_deepMerge (ha : a.Keyed) (hb : b.Keyed) (hda : NoDangerousKeys a)
    (hdb : NoDangerousKeys b) (h : MeetInMaps a b) {base : Value} (hbase : base.Keyed) :
    UpToOrder (deepMerge (deepMerge base a) b) (deepMerge (deepMerge base b) a) := by
  induction a using child_induction generalizing b base with
  | _ a ih =>
    obtain ⟨⟨as, rfl⟩, bs, rfl⟩ := h [] a b rfl rfl
    have has : (as.map Prod.fst).Nodup := ha.nodup rfl
    have hbs : (bs.map Prod.fst).Nodup := hb.nodup rfl
    have hdas : ∀ key ∈ DANGEROUS, Entries.get key as = none := fun key hk => hda.get rfl hk
    have hdbs : ∀ key ∈ DANGEROUS, Entries.get key bs = none := fun key hk => hdb.get rfl hk
    have hentries : ∀ (es : Entries Value), (∀ key v, es.get key = some v → v.Keyed) →
        ∀ key v w, (mergeEntries (mergeEntries es as) bs).get key = some v →
          (mergeEntries (mergeEntries es bs) as).get key = some w → UpToOrder v w := by
      intro es hes
      apply upToOrder_entries has hbs hdas hdbs
      intro key x y hx hy
      have hcx : (Value.object as).child (.key key) = some x := hx
      have hcy : (Value.object bs).child (.key key) = some y := hy
      apply ih (.key key) x hcx (ha.child hcx) (hb.child hcy) (hda.child hcx) (hdb.child hcy)
        (h.child hcx hcy)
      cases hp : es.get key with
      | none => exact keyed_of_frame_none rfl
      | some p => exact hes key p hp
    cases hes : objectEntries base with
    | some es =>
      have hperm := perm_keys (hbase.nodup hes) has hbs hdas hdbs
      have hkeyed : ∀ key v, es.get key = some v → v.Keyed := by
        intro key v hv
        rw [← child_key hes] at hv
        exact hbase.child hv
      cases base <;> cases hes
      · exact .object hperm (hentries es hkeyed)
      · exact .mapRef _ _ hperm (hentries es hkeyed)
    | none =>
      -- whatever the base is, the first overlay replaces it
      have hreplaced : ∀ os : Entries Value, deepMerge base (.object os) = .object os :=
        fun os => deepMerge_of_not_map hes rfl
      have hnil : (([] : Entries Value).map Prod.fst).Nodup := List.nodup_nil
      have hperm := perm_keys hnil has hbs hdas hdbs
      have hempty := hentries [] (fun key v hv => absurd hv (by simp))
      rw [mergeEntries_nil has hdas, mergeEntries_nil hbs hdbs] at hperm hempty
      rw [hreplaced, hreplaced]
      exact .object hperm hempty

/-- **Overlays that meet only in maps commute.** The two orders of merging them give one value up to
the order of keys, whatever the base holds. -/
theorem overlays_commute (m a b : Entries Value) (hm : (Value.object m).Keyed)
    (ha : (Value.object a).Keyed) (hb : (Value.object b).Keyed)
    (hda : NoDangerousKeys (.object a)) (hdb : NoDangerousKeys (.object b))
    (h : ∀ path v w, path ≠ [] → (Value.object a).lookup path = some v →
      (Value.object b).lookup path = some w → (∃ es, v = .object es) ∧ ∃ os, w = .object os) :
    UpToOrder (deepMerge (deepMerge (.object m) (.object a)) (.object b))
      (deepMerge (deepMerge (.object m) (.object b)) (.object a)) := by
  apply upToOrder_deepMerge ha hb hda hdb _ hm
  intro path v w hv hw
  by_cases hp : path = []
  · subst hp
    exact ⟨⟨a, (Option.some.inj hv).symm⟩, b, (Option.some.inj hw).symm⟩
  · exact h path v w hp hv hw

theorem child_of_frame_none (h : v.frame = none) (s : Step) : v.child s = none := by
  cases v <;> cases h <;> cases s <;> rfl

/-- What there is in a map of settings under one key. -/
theorem nested_lookup {outer inner : Str} {u w : Value} (hu : u.frame = none) {path : List Step}
    (h : (nested outer inner u).lookup path = some w) :
    path = [] ∨ path = [.key outer] ∧ w = .object [(inner, u)] ∨
      path = [.key outer, .key inner] := by
  have single : ∀ {key : Str} {x y : Value} {s : Step},
      (Value.object [(key, x)]).child s = some y → s = .key key ∧ y = x := by
    intro key x y s hs
    cases s with
    | index place => cases hs
    | key name =>
      have hmem : (name, y) ∈ [(key, x)] := Entries.get_mem hs
      obtain ⟨rfl, rfl⟩ := Prod.mk.inj (List.mem_singleton.mp hmem)
      exact ⟨rfl, rfl⟩
  cases path with
  | nil => exact .inl rfl
  | cons s path =>
    rw [lookup_cons] at h
    obtain ⟨x, hx, hinner⟩ := Option.bind_eq_some_iff.mp h
    obtain ⟨rfl, rfl⟩ := single hx
    cases path with
    | nil => exact .inr (.inl ⟨rfl, (Option.some.inj hinner).symm⟩)
    | cons t path =>
      rw [lookup_cons] at hinner
      obtain ⟨y, hy, hend⟩ := Option.bind_eq_some_iff.mp hinner
      obtain ⟨rfl, rfl⟩ := single hy
      cases path with
      | nil => exact .inr (.inr rfl)
      | cons r path =>
        rw [lookup_cons, child_of_frame_none hu] at hend
        cases hend

theorem nested_noDangerousKeys {outer inner : Str} {u : Value} (hu : u.frame = none)
    (ho : outer ∉ DANGEROUS) (hi : inner ∉ DANGEROUS) : NoDangerousKeys (nested outer inner u) := by
  intro path name hname
  rw [Option.eq_none_iff_forall_ne_some]
  intro w hw
  rcases nested_lookup hu hw with h | ⟨h, -⟩ | h
  · simp at h
  · have h : path ++ [.key name] = [] ++ [.key outer] := h
    obtain ⟨-, h⟩ := List.append_inj' h rfl
    simp only [List.cons.injEq, Step.key.injEq, and_true] at h
    exact ho (h ▸ hname)
  · have h : path ++ [.key name] = [.key outer] ++ [.key inner] := h
    obtain ⟨-, h⟩ := List.append_inj' h rfl
    simp only [List.cons.injEq, Step.key.injEq, and_true] at h
    exact hi (h ▸ hname)

/-- Two settings in one group commute over a base that holds a scalar there. -/
theorem overlays_commute_settings :
    let base := Value.object [("a".toList, .null)]
    let x := nested "a".toList "x".toList .null
    let y := nested "a".toList "y".toList .null
    UpToOrder (deepMerge (deepMerge base x) y) (deepMerge (deepMerge base y) x) := by
  apply overlays_commute _ _ _ _ (nested_keyed _ _ rfl) (nested_keyed _ _ rfl)
    (nested_noDangerousKeys rfl (by decide) (by decide))
    (nested_noDangerousKeys rfl (by decide) (by decide))
  · intro path v w hp hv hw
    rcases nested_lookup rfl hv with rfl | ⟨rfl, rfl⟩ | rfl
    · exact absurd rfl hp
    · rcases nested_lookup rfl hw with h | ⟨-, rfl⟩ | h
      · cases h
      · exact ⟨⟨_, rfl⟩, _, rfl⟩
      · cases h
    · cases hw
  · refine keyed_object (List.nodup_singleton _) fun e he => ?_
    rw [List.mem_singleton.mp he]
    exact keyed_of_frame_none rfl

end MultiSource
