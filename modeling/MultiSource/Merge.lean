import MultiSource.Value

/-!
# Deep merge

The merge a loaded map is spliced with. Objects merge by key and arrays by index, the base keeps its
container, and anything else is replaced by the overlay. `Value.lookup` follows a path of keys and
indices, and the lemmas here say what `deepMerge` leaves one step down.
-/

namespace MultiSource

/-- The keys of an overlay that are skipped. -/
def DANGEROUS : List Str := ["__proto__".toList, "constructor".toList, "prototype".toList]

mutual

/-- Merge `overlay` into `base`. -/
def deepMerge : Value → Value → Value
  | base, .undefined => base
  | .object base, .object overlay => .object (mergeEntries base overlay)
  | .object base, .mapRef overlay _ _ => .object (mergeEntries base overlay)
  | .mapRef base implicit info, .object overlay =>
    .mapRef (mergeEntries base overlay) implicit info
  | .mapRef base implicit info, .mapRef overlay _ _ =>
    .mapRef (mergeEntries base overlay) implicit info
  | .array base, .array overlay => .array (mergeItems base overlay)
  | .array base, .listRef overlay _ _ => .array (mergeItems base overlay)
  | .listRef base implicit info, .array overlay => .listRef (mergeItems base overlay) implicit info
  | .listRef base implicit info, .listRef overlay _ _ =>
    .listRef (mergeItems base overlay) implicit info
  | _, overlay => overlay
termination_by structural _ overlay => overlay

def mergeEntries : Entries Value → Entries Value → Entries Value
  | base, [] => base
  | base, (key, value) :: overlay =>
    if key ∈ DANGEROUS then mergeEntries base overlay
    else
      let previous := (base.get key).getD .undefined
      mergeEntries (base.insert key (deepMerge previous value)) overlay
termination_by structural _ overlay => overlay

/-- Item by item. What the overlay has beyond the base is pushed as it is. -/
def mergeItems : List Value → List Value → List Value
  | base, [] => base
  | [], value :: overlay => value :: overlay
  | previous :: base, value :: overlay => deepMerge previous value :: mergeItems base overlay
termination_by structural _ overlay => overlay

end

/-! ## Containers -/

def objectEntries : Value → Option (Entries Value)
  | .object map => some map
  | .mapRef map _ _ => some map
  | _ => none

def arrayItems : Value → Option (List Value)
  | .array items => some items
  | .listRef items _ _ => some items
  | _ => none

namespace Value

/-- The kind of a container and its metadata. -/
inductive Frame : Type
  | array
  | listRef (implicit : Bool) (info : List (Str × Value))
  | object
  | mapRef (implicit : Bool) (info : List (Str × Value))

def frame : Value → Option Frame
  | .array _ => some .array
  | .listRef _ implicit info => some (.listRef implicit info)
  | .object _ => some .object
  | .mapRef _ implicit info => some (.mapRef implicit info)
  | _ => none

/-- One step into a container. -/
inductive Step : Type
  | key (name : Str)
  | index (place : ℕ)
  deriving DecidableEq

def child (v : Value) : Step → Option Value
  | .key name => (objectEntries v).bind (Entries.get name)
  | .index place => (arrayItems v).bind (·[place]?)

/-- The value at a path of keys and indices. -/
def lookup (v : Value) : List Step → Option Value
  | [] => some v
  | s :: path => (v.child s).bind (·.lookup path)

/-- A map has one entry a key, at every depth. -/
def Keyed (v : Value) : Prop :=
  ∀ path w es, v.lookup path = some w → objectEntries w = some es → (es.map Prod.fst).Nodup

/-- A step the merge does not skip. -/
def Step.Safe : Step → Prop
  | .key name => name ∉ DANGEROUS
  | .index _ => True

instance : DecidablePred Step.Safe
  | .key name => inferInstanceAs (Decidable (name ∉ DANGEROUS))
  | .index _ => inferInstanceAs (Decidable True)

theorem Step.not_safe {s : Step} (h : ¬ s.Safe) : ∃ name ∈ DANGEROUS, s = .key name := by
  cases s with
  | key name => exact ⟨name, not_not.mp h, rfl⟩
  | index place => exact absurd trivial h

@[simp] theorem lookup_nil (v : Value) : v.lookup [] = some v := rfl

theorem lookup_cons (v : Value) (s : Step) (path : List Step) :
    v.lookup (s :: path) = (v.child s).bind (·.lookup path) := rfl

theorem lookup_append (v : Value) (p q : List Step) :
    v.lookup (p ++ q) = (v.lookup p).bind (·.lookup q) := by
  induction p generalizing v with
  | nil => rfl
  | cons s p ih =>
    rw [List.cons_append, lookup_cons, lookup_cons]
    cases v.child s with
    | none => rfl
    | some w => exact ih w

theorem lookup_concat (v : Value) (p : List Step) (s : Step) :
    v.lookup (p ++ [s]) = (v.lookup p).bind (·.child s) := by
  rw [lookup_append]
  cases v.lookup p with
  | none => rfl
  | some w =>
    rw [Option.bind_some, Option.bind_some, lookup_cons]
    cases w.child s <;> rfl

theorem sizeOf_child {v w : Value} {s : Step} (h : v.child s = some w) : sizeOf w < sizeOf v := by
  cases s with
  | key name =>
    obtain ⟨es, hes, hw⟩ := Option.bind_eq_some_iff.mp h
    have hmem := List.sizeOf_lt_of_mem (Entries.get_mem hw)
    rw [Prod.mk.sizeOf_spec] at hmem
    cases v <;> cases hes
    · rw [Value.object.sizeOf_spec]
      omega
    · rw [Value.mapRef.sizeOf_spec]
      omega
  | index place =>
    obtain ⟨is, his, hw⟩ := Option.bind_eq_some_iff.mp h
    have hmem := List.sizeOf_lt_of_mem (List.mem_of_getElem? hw)
    cases v <;> cases his
    · rw [Value.array.sizeOf_spec]
      omega
    · rw [Value.listRef.sizeOf_spec]
      omega

/-- What holds of a value if it holds of the values one step down holds of every value. -/
theorem child_induction {P : Value → Prop} (h : ∀ v, (∀ s w, v.child s = some w → P w) → P v)
    (v : Value) : P v := by
  induction hn : sizeOf v using Nat.strong_induction_on generalizing v with
  | _ n ih =>
    subst hn
    apply h
    intro s w hw
    exact ih (sizeOf w) (sizeOf_child hw) w rfl

theorem Keyed.nodup {v : Value} {es : Entries Value} (h : v.Keyed)
    (hes : objectEntries v = some es) : (es.map Prod.fst).Nodup :=
  h [] v es rfl hes

theorem Keyed.lookup {v w : Value} {path : List Step} (h : v.Keyed)
    (hw : v.lookup path = some w) : w.Keyed := fun q u es hu =>
  h (path ++ q) u es (by rw [lookup_append, hw]; exact hu)

theorem Keyed.child {v w : Value} {s : Step} (h : v.Keyed) (hw : v.child s = some w) :
    w.Keyed := fun path u es hu => h (s :: path) u es (by rw [lookup_cons, hw]; exact hu)

theorem keyed_of_frame_none {v : Value} (h : v.frame = none) : v.Keyed := by
  intro path w es hw hes
  cases path with
  | nil =>
    obtain rfl := Option.some.inj hw
    cases v <;> cases hes <;> cases h
  | cons s path =>
    obtain ⟨u, hu, -⟩ := Option.bind_eq_some_iff.mp hw
    cases v <;> cases h <;> cases s <;> cases hu

theorem keyed_object {es : Entries Value} (hn : (es.map Prod.fst).Nodup)
    (h : ∀ e ∈ es, e.2.Keyed) : (Value.object es).Keyed := by
  intro path w ws hw hws
  cases path with
  | nil =>
    obtain rfl := Option.some.inj hw
    obtain rfl := Option.some.inj hws
    exact hn
  | cons s path =>
    rw [lookup_cons] at hw
    obtain ⟨u, hu, hw'⟩ := Option.bind_eq_some_iff.mp hw
    cases s with
    | key name => exact h (name, u) (Entries.get_mem hu) path w ws hw' hws
    | index place => exact absurd hu (by simp [Value.child, arrayItems])

end Value

open Value

/-- Two maps, or two lists. -/
def SameFamily (base overlay : Value) : Prop :=
  ((objectEntries base).isSome ∧ (objectEntries overlay).isSome) ∨
    ((arrayItems base).isSome ∧ (arrayItems overlay).isSome)

instance : DecidableRel SameFamily := fun _ _ => inferInstanceAs (Decidable (_ ∨ _))

theorem sameFamily_iff {base overlay : Value} : SameFamily base overlay ↔
    (∃ es os, objectEntries base = some es ∧ objectEntries overlay = some os) ∨
      ∃ is os, arrayItems base = some is ∧ arrayItems overlay = some os := by
  simp only [SameFamily, Option.isSome_iff_exists]
  constructor
  · rintro (⟨⟨es, he⟩, os, ho⟩ | ⟨⟨is, hi⟩, os, ho⟩)
    · exact .inl ⟨es, os, he, ho⟩
    · exact .inr ⟨is, os, hi, ho⟩
  · rintro (⟨es, os, he, ho⟩ | ⟨is, os, hi, ho⟩)
    · exact .inl ⟨⟨es, he⟩, os, ho⟩
    · exact .inr ⟨⟨is, hi⟩, os, ho⟩

theorem SameFamily.not_scalar {base overlay : Value} (h : SameFamily base overlay) :
    overlay.frame ≠ none := by
  rcases sameFamily_iff.mp h with ⟨es, os, -, ho⟩ | ⟨is, os, -, ho⟩ <;>
    cases overlay <;> cases ho <;> exact Option.some_ne_none _

/-! ## One level of a merge -/

section Level

variable {base overlay : Value}

@[simp] theorem deepMerge_undefined (base : Value) : deepMerge base .undefined = base := by
  simp only [deepMerge]

@[simp] theorem undefined_deepMerge (overlay : Value) :
    deepMerge .undefined overlay = overlay := by
  cases overlay <;> rfl

theorem deepMerge_object {es os : Entries Value} (hb : objectEntries base = some es)
    (ho : objectEntries overlay = some os) :
    objectEntries (deepMerge base overlay) = some (mergeEntries es os) ∧
      (deepMerge base overlay).frame = base.frame := by
  cases base <;> cases hb <;> cases overlay <;> cases ho <;> exact ⟨rfl, rfl⟩

theorem deepMerge_array {is os : List Value} (hb : arrayItems base = some is)
    (ho : arrayItems overlay = some os) :
    arrayItems (deepMerge base overlay) = some (mergeItems is os) ∧
      (deepMerge base overlay).frame = base.frame := by
  cases base <;> cases hb <;> cases overlay <;> cases ho <;> exact ⟨rfl, rfl⟩

theorem deepMerge_replaced (h : ¬ SameFamily base overlay) (hd : overlay ≠ .undefined) :
    deepMerge base overlay = overlay := by
  cases base <;> cases overlay <;>
    first
    | rfl
    | exact absurd rfl hd
    | exact absurd (.inl ⟨rfl, rfl⟩) h
    | exact absurd (.inr ⟨rfl, rfl⟩) h

end Level

/-- A step down, of what is there in the base and in the overlay. -/
def mergeChild : Option Value → Option Value → Option Value
  | previous, none => previous
  | previous, some value => some (deepMerge (previous.getD .undefined) value)

theorem get_mergeEntries {os : Entries Value} (hos : (os.map Prod.fst).Nodup)
    (es : Entries Value) (key : Str) :
    (mergeEntries es os).get key =
      if key ∈ DANGEROUS then es.get key else mergeChild (es.get key) (os.get key) := by
  induction os generalizing es with
  | nil => simp [mergeEntries, mergeChild]
  | cons e os ih =>
    obtain ⟨k, v⟩ := e
    obtain ⟨hk, hos⟩ := List.nodup_cons.mp hos
    rw [mergeEntries]
    by_cases hd : k ∈ DANGEROUS
    · rw [if_pos hd, ih hos]
      by_cases hkey : key ∈ DANGEROUS
      · rw [if_pos hkey, if_pos hkey]
      · rw [if_neg hkey, if_neg hkey,
          Entries.get_cons_of_ne (fun h : k = key => hkey (h ▸ hd))]
    · rw [if_neg hd, ih hos, Entries.get_insert]
      by_cases h : k = key
      · subst h
        rw [if_neg hd, if_neg hd, if_pos rfl, Entries.get_eq_none.mpr hk]
        simp [Entries.get, mergeChild]
      · rw [if_neg h, Entries.get_cons_of_ne h]

/-- The keys of the base keep their order, and the new ones follow in the order of the overlay. -/
theorem keys_mergeEntries {os : Entries Value} (hos : (os.map Prod.fst).Nodup)
    (es : Entries Value) :
    (mergeEntries es os).map Prod.fst = es.map Prod.fst ++
      (os.map Prod.fst).filter fun key => key ∉ es.map Prod.fst ∧ key ∉ DANGEROUS := by
  induction os generalizing es with
  | nil => simp [mergeEntries]
  | cons e os ih =>
    obtain ⟨k, v⟩ := e
    obtain ⟨hk, hos⟩ := List.nodup_cons.mp hos
    rw [mergeEntries, List.map_cons]
    by_cases hd : k ∈ DANGEROUS
    · rw [if_pos hd, ih hos, List.filter_cons_of_neg (by simp [hd])]
    · rw [if_neg hd, ih hos, Entries.keys_insert]
      by_cases h : k ∈ es.map Prod.fst
      · rw [if_pos h, List.filter_cons_of_neg (by simp only [h]; simp)]
      · rw [if_neg h, List.filter_cons_of_pos (by simp only [h, hd]; simp), List.append_assoc,
          List.singleton_append]
        congr 2
        apply List.filter_congr
        intro key hkey
        have hne : key ≠ k := fun he => hk (he ▸ hkey)
        have hmem : key ∈ es.map Prod.fst ++ [k] ↔ key ∈ es.map Prod.fst := by simp [hne]
        simp only [hmem]

theorem getElem?_mergeItems (is os : List Value) (i : ℕ) :
    (mergeItems is os)[i]? = mergeChild is[i]? os[i]? := by
  induction os generalizing is i with
  | nil => cases is <;> simp [mergeItems, mergeChild]
  | cons o os ih =>
    cases is with
    | nil =>
      rw [mergeItems]
      cases h : (o :: os)[i]? <;> simp [mergeChild]
    | cons v is =>
      rw [mergeItems]
      cases i with
      | zero => simp [mergeChild]
      | succ i => simpa using ih is i

section Children

variable {base overlay : Value} {s : Step}

theorem objectEntries_of_array {v : Value} {is : List Value} (h : arrayItems v = some is) :
    objectEntries v = none := by
  cases v <;> cases h <;> rfl

theorem arrayItems_of_object {v : Value} {es : Entries Value} (h : objectEntries v = some es) :
    arrayItems v = none := by
  cases v <;> cases h <;> rfl

/-- A map replaces what is no map. -/
theorem deepMerge_of_not_map {os : Entries Value} (hb : objectEntries base = none)
    (ho : objectEntries overlay = some os) : deepMerge base overlay = overlay := by
  apply deepMerge_replaced
  · intro hf
    rcases sameFamily_iff.mp hf with ⟨es, -, hes, -⟩ | ⟨-, is, -, his⟩
    · exact absurd (hb.symm.trans hes) (by simp)
    · exact absurd ((arrayItems_of_object ho).symm.trans his) (by simp)
  · rintro rfl
    cases ho

theorem child_key {v : Value} {es : Entries Value} (h : objectEntries v = some es) (name : Str) :
    v.child (.key name) = es.get name := by
  rw [Value.child, h, Option.bind_some]

theorem child_index {v : Value} {is : List Value} (h : arrayItems v = some is) (place : ℕ) :
    v.child (.index place) = is[place]? := by
  rw [Value.child, h, Option.bind_some]

theorem child_key_of_array {v : Value} {is : List Value} (h : arrayItems v = some is)
    (name : Str) : v.child (.key name) = none := by
  rw [Value.child, objectEntries_of_array h, Option.bind_none]

theorem child_index_of_object {v : Value} {es : Entries Value} (h : objectEntries v = some es)
    (place : ℕ) : v.child (.index place) = none := by
  rw [Value.child, arrayItems_of_object h, Option.bind_none]

/-- Where two containers of one family meet, the merge goes on below every step it does not
skip. -/
theorem child_deepMerge (h : SameFamily base overlay) (ho : overlay.Keyed) (hs : s.Safe) :
    (deepMerge base overlay).child s = mergeChild (base.child s) (overlay.child s) := by
  rcases sameFamily_iff.mp h with ⟨es, os, he, ho'⟩ | ⟨is, os, hi, ho'⟩
  · have hm := (deepMerge_object he ho').1
    cases s with
    | key name =>
      rw [child_key hm, child_key he, child_key ho', get_mergeEntries (ho.nodup ho'), if_neg hs]
    | index place =>
      rw [child_index_of_object hm, child_index_of_object he, child_index_of_object ho']
      rfl
  · have hm := (deepMerge_array hi ho').1
    cases s with
    | key name =>
      rw [child_key_of_array hm, child_key_of_array hi, child_key_of_array ho']
      rfl
    | index place => rw [child_index hm, child_index hi, child_index ho', getElem?_mergeItems]

/-- Below a step it skips, the merge leaves what the base has. -/
theorem child_deepMerge_of_not_safe (h : SameFamily base overlay) (ho : overlay.Keyed)
    (hs : ¬ s.Safe) : (deepMerge base overlay).child s = base.child s := by
  obtain ⟨name, hd, rfl⟩ := Step.not_safe hs
  rcases sameFamily_iff.mp h with ⟨es, os, he, ho'⟩ | ⟨is, os, hi, ho'⟩
  · rw [child_key (deepMerge_object he ho').1, child_key he, get_mergeEntries (ho.nodup ho'),
      if_pos hd]
  · rw [child_key_of_array (deepMerge_array hi ho').1, child_key_of_array hi]

theorem SameFamily.frame (h : SameFamily base overlay) :
    (deepMerge base overlay).frame = base.frame := by
  rcases sameFamily_iff.mp h with ⟨es, os, he, ho⟩ | ⟨is, os, hi, ho⟩
  · exact (deepMerge_object he ho).2
  · exact (deepMerge_array hi ho).2

/-- Two values with a step down in common are containers of one family. -/
theorem SameFamily.of_child {v w : Value} (hb : base.child s = some v)
    (ho : overlay.child s = some w) : SameFamily base overlay := by
  cases s with
  | key name =>
    obtain ⟨es, he, -⟩ := Option.bind_eq_some_iff.mp hb
    obtain ⟨os, ho, -⟩ := Option.bind_eq_some_iff.mp ho
    exact sameFamily_iff.mpr (.inl ⟨es, os, he, ho⟩)
  | index place =>
    obtain ⟨is, hi, -⟩ := Option.bind_eq_some_iff.mp hb
    obtain ⟨os, ho, -⟩ := Option.bind_eq_some_iff.mp ho
    exact sameFamily_iff.mpr (.inr ⟨is, os, hi, ho⟩)

end Children

end MultiSource
