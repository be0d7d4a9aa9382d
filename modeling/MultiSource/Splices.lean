import MultiSource.MergeLaws

/-!
# Splicing into the enclosing map

What a processed value does to the map its reference stands in. A second splice of one value finds
what the first left and changes nothing.
-/

namespace MultiSource

open Value

/-! ## Values the merge leaves as they are -/

/-- Two maps of one kind, one metadata and the same entries are the same. -/
theorem eq_of_entries {v w : Value} {es : Entries Value} (hv : objectEntries v = some es)
    (hw : objectEntries w = some es) (hf : v.frame = w.frame) : v = w := by
  cases v <;> cases hv <;> cases w <;> cases hw <;> cases hf <;> rfl

theorem eq_of_items {v w : Value} {is : List Value} (hv : arrayItems v = some is)
    (hw : arrayItems w = some is) (hf : v.frame = w.frame) : v = w := by
  cases v <;> cases hv <;> cases w <;> cases hw <;> cases hf <;> rfl

theorem mergeEntries_eq_self {es os : Entries Value}
    (h : ∀ key value, (key, value) ∈ os → key ∉ DANGEROUS →
      ∃ v, es.get key = some v ∧ deepMerge v value = v) : mergeEntries es os = es := by
  induction os with
  | nil => rw [mergeEntries]
  | cons e os ih =>
    obtain ⟨key, value⟩ := e
    have hrest := ih fun k v hm => h k v (List.mem_cons_of_mem _ hm)
    rw [mergeEntries]
    by_cases hd : key ∈ DANGEROUS
    · rw [if_pos hd, hrest]
    · obtain ⟨v, hv, hmerge⟩ := h key value (List.mem_cons_self ..) hd
      dsimp only
      rw [if_neg hd, hv, Option.getD_some, hmerge, Entries.insert_of_get hv, hrest]

theorem mergeItems_eq_self {is os : List Value}
    (h : ∀ (i : ℕ) value, os[i]? = some value → ∃ v, is[i]? = some v ∧ deepMerge v value = v) :
    mergeItems is os = is := by
  induction os generalizing is with
  | nil => rw [mergeItems]
  | cons o os ih =>
    obtain ⟨v, hv, hmerge⟩ := h 0 o rfl
    cases is with
    | nil => cases hv
    | cons i is =>
      obtain rfl := Option.some.inj hv
      rw [mergeItems, hmerge, ih]
      intro place value hvalue
      exact h (place + 1) value hvalue

/-- A merge changes nothing if it changes nothing one step down. -/
theorem deepMerge_eq_self {base overlay : Value} (hf : SameFamily base overlay)
    (ho : overlay.Keyed) (h : ∀ s w, s.Safe → overlay.child s = some w →
      ∃ v, base.child s = some v ∧ deepMerge v w = v) : deepMerge base overlay = base := by
  rcases sameFamily_iff.mp hf with ⟨es, os, hes, hos⟩ | ⟨is, os, his, hos⟩
  · obtain ⟨hm, hframe⟩ := deepMerge_object hes hos
    rw [mergeEntries_eq_self] at hm
    · exact eq_of_entries hm hes hframe
    · intro key value hmem hkey
      rw [← child_key hes]
      apply h (.key key) value hkey
      rw [child_key hos, Entries.get_of_mem (ho.nodup hos) hmem]
  · obtain ⟨hm, hframe⟩ := deepMerge_array his hos
    rw [mergeItems_eq_self] at hm
    · exact eq_of_items hm his hframe
    · intro place value hvalue
      rw [← child_index his]
      exact h (.index place) value trivial (by rw [child_index hos, hvalue])

/-- A value merged into itself is itself. -/
theorem deepMerge_self {v : Value} (hv : v.Keyed) : deepMerge v v = v := by
  induction v using child_induction with
  | _ v ih =>
    by_cases hf : SameFamily v v
    · apply deepMerge_eq_self hf hv
      intro s w _ hw
      exact ⟨w, hw, ih s w hw (hv.child hw)⟩
    · by_cases hd : v = .undefined
      · rw [hd, deepMerge_undefined]
      · exact deepMerge_replaced hf hd

/-! ## The second splice -/

theorem SameFamily.merged {base overlay : Value} (h : SameFamily base overlay) :
    SameFamily (deepMerge base overlay) overlay := by
  rcases sameFamily_iff.mp h with ⟨es, os, hes, hos⟩ | ⟨is, os, his, hos⟩
  · exact sameFamily_iff.mpr (.inl ⟨_, os, (deepMerge_object hes hos).1, hos⟩)
  · exact sameFamily_iff.mpr (.inr ⟨_, os, (deepMerge_array his hos).1, hos⟩)

theorem deepMerge_again {overlay : Value} (ho : overlay.Keyed) (base : Value) :
    deepMerge (deepMerge base overlay) overlay = deepMerge base overlay := by
  induction overlay using child_induction generalizing base with
  | _ overlay ih =>
    by_cases hf : SameFamily base overlay
    · apply deepMerge_eq_self hf.merged ho
      intro s w hs hw
      refine ⟨_, ?_, ih s w hw (ho.child hw) ((base.child s).getD .undefined)⟩
      rw [child_deepMerge hf ho hs, hw, mergeChild]
    · by_cases hd : overlay = .undefined
      · rw [hd, deepMerge_undefined]
      · rw [deepMerge_replaced hf hd, deepMerge_self ho]

/-- The entries written into a map one after the other. -/
def insertAll (map entries : Entries Value) : Entries Value :=
  entries.foldl (fun map e => Entries.insert e.1 e.2 map) map

/-- `Object.assign`: a shallow overwrite, key by key. What is no map stays as it is. -/
def assign : Value → Entries Value → Value
  | .object map, entries => .object (insertAll map entries)
  | .mapRef map implicit info, entries =>
    .mapRef (insertAll map entries) implicit info
  | node, _ => node

/-- `m` with keys written into it that the overlay has not. -/
inductive WrittenBeside (overlay m : Value) : Value → Prop
  | unwritten : WrittenBeside overlay m m
  | write {v : Value} {key : Str} {value : Value} : WrittenBeside overlay m v →
      overlay.child (.key key) = none → WrittenBeside overlay m (assign v [(key, value)])

theorem objectEntries_assign {v : Value} {es : Entries Value} (h : objectEntries v = some es)
    (entries : Entries Value) : objectEntries (assign v entries) = some (insertAll es entries) := by
  cases v <;> cases h <;> rfl

theorem assign_of_not_map {v : Value} (h : objectEntries v = none) (entries : Entries Value) :
    assign v entries = v := by
  cases v <;> first | rfl | cases h

theorem child_assign_of_ne {v : Value} {key : Str} {value : Value} {s : Step}
    (h : s ≠ .key key) : (assign v [(key, value)]).child s = v.child s := by
  cases hes : objectEntries v with
  | none => rw [assign_of_not_map hes]
  | some es =>
    have ha := objectEntries_assign hes [(key, value)]
    cases s with
    | index place => rw [child_index_of_object hes, child_index_of_object ha]
    | key name =>
      rw [child_key hes, child_key ha]
      apply Entries.get_insert_of_ne
      rintro rfl
      exact h rfl

/-- A value the merge leaves as it is has all of the overlay already. -/
theorem child_of_deepMerge_eq_self {v overlay w : Value} {s : Step} (ho : overlay.Keyed)
    (hf : SameFamily v overlay) (h : deepMerge v overlay = v) (hs : s.Safe)
    (hw : overlay.child s = some w) : ∃ u, v.child s = some u ∧ deepMerge u w = u := by
  have hchild := child_deepMerge hf ho hs
  rw [h, hw, mergeChild] at hchild
  refine ⟨_, hchild, ?_⟩
  rw [hchild, Option.getD_some] at hchild
  exact (Option.some.inj hchild).symm

/-- What merges into a value without a change still does after a write beside it. -/
theorem deepMerge_assign {v overlay : Value} (ho : overlay.Keyed) {key : Str} {value : Value}
    (hkey : overlay.child (.key key) = none) (h : deepMerge v overlay = v) :
    deepMerge (assign v [(key, value)]) overlay = assign v [(key, value)] := by
  by_cases hd : overlay = .undefined
  · rw [hd, deepMerge_undefined]
  cases hes : objectEntries v with
  | none => rw [assign_of_not_map hes, h]
  | some es =>
    cases hos : objectEntries overlay with
    | none =>
      have hf : ¬ SameFamily v overlay := by
        intro hf
        rcases sameFamily_iff.mp hf with ⟨-, os, -, ho'⟩ | ⟨is, -, his, -⟩
        · exact absurd (hos.symm.trans ho') (by simp)
        · exact absurd ((arrayItems_of_object hes).symm.trans his) (by simp)
      rw [deepMerge_replaced hf hd] at h
      rw [h, hes] at hos
      cases hos
    | some os =>
      have hf : SameFamily v overlay := sameFamily_iff.mpr (.inl ⟨es, os, hes, hos⟩)
      have hf' : SameFamily (assign v [(key, value)]) overlay :=
        sameFamily_iff.mpr (.inl ⟨_, os, objectEntries_assign hes _, hos⟩)
      apply deepMerge_eq_self hf' ho
      intro s w hs hw
      have hne : s ≠ .key key := by
        rintro rfl
        exact absurd (hkey.symm.trans hw) (by simp)
      rw [child_assign_of_ne hne]
      exact child_of_deepMerge_eq_self ho hf h hs hw

/-- **A second splice changes nothing.** It finds what the first left, and whatever was written
beside that under keys the overlay has not. -/
theorem second_splice_changes_nothing (base overlay : Value) (ho : overlay.Keyed) :
    deepMerge (deepMerge base overlay) overlay = deepMerge base overlay ∧
      ∀ m, WrittenBeside overlay (deepMerge base overlay) m → deepMerge m overlay = m := by
  refine ⟨deepMerge_again ho base, fun m hm => ?_⟩
  induction hm with
  | unwritten => exact deepMerge_again ho base
  | write hwritten hkey ih => exact deepMerge_assign ho hkey ih

theorem second_splice_changes_nothing_beside :
    let overlay := nested "a".toList "y".toList (.bool true)
    let m := assign (deepMerge (nested "a".toList "x".toList .null) overlay) [("b".toList, .null)]
    deepMerge m overlay = m :=
  (second_splice_changes_nothing _ _ (nested_keyed _ _ rfl)).2 _ (.write .unwritten rfl)

/-! ## The enclosing map -/

/-- The options of the engine's maps. -/
structure MapOptions where
  merge : Option (Value → Value → Value)
  extend : Bool

/-- The enclosing map after a splice: by the merge callback, by a deep merge, or key by key. -/
def spliced (options : MapOptions) (node value : Value) : Value :=
  match options.merge with
  | some merge => merge node value
  | none =>
    if options.extend then deepMerge node value
    else
      match objectEntries value with
      | none => node
      | some entries => assign node entries

/-- Merge a loaded map into the enclosing one: the node of the rule two levels up, if there is such
a rule. -/
def spliceIntoParent (options : MapOptions) (target : Option Value) (value : Value) :
    Option Value :=
  target.map fun node => spliced options node value

/-- The node is still a map, with all that the loaded value does not define, and a value that is no
map left it alone. -/
def KeepsMap (node value node' : Value) : Prop :=
  (objectEntries node').isSome ∧
    (∀ key, value.child (.key key) = none → node'.child (.key key) = node.child (.key key)) ∧
    (objectEntries value = none → node' = node)

theorem get_insertAll {key : Str} {entries : Entries Value} (h : Entries.get key entries = none)
    (map : Entries Value) : (insertAll map entries).get key = map.get key := by
  induction entries generalizing map with
  | nil => rfl
  | cons e entries ih =>
    obtain ⟨k, v⟩ := e
    have hk : k ≠ key := by
      rintro rfl
      rw [Entries.get, if_pos rfl] at h
      cases h
    rw [Entries.get_cons_of_ne hk] at h
    exact (ih h _).trans (Entries.get_insert_of_ne hk v map)

theorem get_mergeEntries_of_none {key : Str} {os : Entries Value} (h : os.get key = none)
    (es : Entries Value) : (mergeEntries es os).get key = es.get key := by
  induction os generalizing es with
  | nil => rw [mergeEntries]
  | cons e os ih =>
    obtain ⟨k, v⟩ := e
    have hk : k ≠ key := by
      rintro rfl
      rw [Entries.get, if_pos rfl] at h
      cases h
    rw [Entries.get_cons_of_ne hk] at h
    rw [mergeEntries]
    split_ifs
    · exact ih h es
    · exact (ih h _).trans (Entries.get_insert_of_ne hk _ es)

section Keeps

variable {node value : Value} {es : Entries Value}

theorem KeepsMap.refl (hn : objectEntries node = some es) : KeepsMap node value node :=
  ⟨by rw [hn]; rfl, fun _ _ => rfl, fun _ => rfl⟩

theorem keepsMap_assign {os : Entries Value} (hn : objectEntries node = some es)
    (hv : objectEntries value = some os) : KeepsMap node value (assign node os) := by
  have ha := objectEntries_assign hn os
  refine ⟨by rw [ha]; rfl, fun key hkey => ?_, fun h => ?_⟩
  · rw [child_key hv] at hkey
    rw [child_key ha, child_key hn, get_insertAll hkey]
  · rw [hv] at h
    cases h

theorem keepsMap_deepMerge {os : Entries Value} (hn : objectEntries node = some es)
    (hv : objectEntries value = some os) : KeepsMap node value (deepMerge node value) := by
  have hm := (deepMerge_object hn hv).1
  refine ⟨by rw [hm]; rfl, fun key hkey => ?_, fun h => ?_⟩
  · rw [child_key hv] at hkey
    rw [child_key hm, child_key hn, get_mergeEntries_of_none hkey]
  · rw [hv] at h
    cases h

/-- The merge replaces a map by what is no map. -/
theorem not_keepsMap_deepMerge (hn : objectEntries node = some es)
    (hv : objectEntries value = none) (hd : value ≠ .undefined) :
    ¬ KeepsMap node value (deepMerge node value) := by
  rintro ⟨hm, -⟩
  have hf : ¬ SameFamily node value := by
    intro hf
    rcases sameFamily_iff.mp hf with ⟨-, os, -, hos⟩ | ⟨is, -, his, -⟩
    · exact absurd (hv.symm.trans hos) (by simp)
    · exact absurd ((arrayItems_of_object hn).symm.trans his) (by simp)
  rw [deepMerge_replaced hf hd, hv] at hm
  cases hm

end Keeps

/-- A splice keeps the enclosing map exactly if it assigns, or the value is a map or undefined. -/
theorem splice_keeps_map_iff (node value : Value) (extend : Bool)
    (hn : (objectEntries node).isSome) :
    (∃ node', spliceIntoParent ⟨none, extend⟩ (some node) value = some node' ∧
      KeepsMap node value node') ↔
      extend = false ∨ value = .undefined ∨ (objectEntries value).isSome := by
  obtain ⟨es, hn⟩ := Option.isSome_iff_exists.mp hn
  have hsome : (∃ node', spliceIntoParent ⟨none, extend⟩ (some node) value = some node' ∧
      KeepsMap node value node') ↔ KeepsMap node value (spliced ⟨none, extend⟩ node value) := by
    simp [spliceIntoParent]
  rw [hsome]
  unfold spliced
  cases hv : objectEntries value with
  | none =>
    cases extend with
    | false => exact iff_of_true (.refl hn) (.inl rfl)
    | true =>
      by_cases hd : value = .undefined
      · subst hd
        refine iff_of_true ?_ (.inr (.inl rfl))
        simpa using KeepsMap.refl hn
      · exact iff_of_false (not_keepsMap_deepMerge hn hv hd) (by simp [hd])
  | some os =>
    refine iff_of_true ?_ (.inr (.inr rfl))
    cases extend with
    | false => exact keepsMap_assign hn hv
    | true => exact keepsMap_deepMerge hn hv

theorem splice_keeps_map_settings :
    ∃ node', spliceIntoParent ⟨none, true⟩ (some (nested "a".toList "x".toList .null))
      (nested "a".toList "y".toList .null) = some node' ∧
        KeepsMap (nested "a".toList "x".toList .null) (nested "a".toList "y".toList .null) node' :=
  (splice_keeps_map_iff _ _ true rfl).mpr (.inr (.inr rfl))

/-- A map that a text is spliced into is lost. -/
theorem text_replaces_map :
    ¬ ∃ node', spliceIntoParent ⟨none, true⟩ (some (.object [("a".toList, .null)]))
      (.string "text".toList) = some node' ∧
        KeepsMap (.object [("a".toList, .null)]) (.string "text".toList) node' := by
  rintro ⟨node', he, hmap, -⟩
  obtain rfl := Option.some.inj he
  exact Bool.false_ne_true hmap

end MultiSource
