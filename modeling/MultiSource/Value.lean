import Mathlib.Algebra.Group.Nat.Defs
import MultiSource.Text

/-!
# Engine values

The value type of the parsing engine, as far as the plugin reads and builds it: metadata, directive
bodies and detail bags are values. A map of the source is the list of its entries here, with one
entry a key.
-/

namespace MultiSource

/-- A double, by its bits. -/
structure F64 where
  bits : BitVec 64
  deriving DecidableEq

namespace F64

def biasedExponent (x : F64) : ℕ := x.bits.toNat / 2 ^ 52 % 2 ^ 11

def fraction (x : F64) : ℕ := x.bits.toNat % 2 ^ 52

def isNegative (x : F64) : Bool := x.bits.msb

def isNan (x : F64) : Bool := x.biasedExponent = 2047 ∧ x.fraction ≠ 0

def isInfinite (x : F64) : Bool := x.biasedExponent = 2047 ∧ x.fraction = 0

def isZero (x : F64) : Bool := x.biasedExponent = 0 ∧ x.fraction = 0

def neg (x : F64) : F64 := ⟨x.bits ^^^ BitVec.ofNat 64 (2 ^ 63)⟩

/-- `n as f64`: the nearest double, ties to even. -/
def ofUsize (n : ℕ) : F64 :=
  if n = 0 then ⟨0⟩
  else
    let k := n.log2
    if k ≤ 52 then ⟨BitVec.ofNat 64 ((1023 + k) * 2 ^ 52 + (n * 2 ^ (52 - k) - 2 ^ 52))⟩
    else
      let d := 2 ^ (k - 52)
      let q := n / d
      let r := n % d
      -- a carry out of the fraction moves into the exponent field
      let q := if d < 2 * r ∨ (2 * r = d ∧ q % 2 = 1) then q + 1 else q
      ⟨BitVec.ofNat 64 ((1023 + k) * 2 ^ 52 + (q - 2 ^ 52))⟩

example : ofUsize 64 = ⟨BitVec.ofNat 64 0x4050000000000000⟩ := by decide
example : ofUsize (2 ^ 53 + 3) = ⟨BitVec.ofNat 64 0x4340000000000002⟩ := by decide

end F64

/-- A value of the engine. The `Ref` containers carry whether they were written without brackets,
and a bag of metadata. -/
inductive Value : Type
  | undefined
  | null
  | bool (flag : Bool)
  | number (number : F64)
  | string (text : Str)
  | text (string : Str)
  | array (items : List Value)
  | listRef (value : List Value) (implicit : Bool) (info : List (Str × Value))
  | object (entries : List (Str × Value))
  | mapRef (value : List (Str × Value)) (implicit : Bool) (info : List (Str × Value))

/-! ## Keyed entries -/

/-- A map with text keys, as the list of its entries. -/
abbrev Entries (α : Type) : Type := List (Str × α)

namespace Entries

variable {α : Type}

def get (key : Str) : Entries α → Option α
  | [] => none
  | (k, v) :: es => if k = key then some v else get key es

/-- A present key keeps its place, a new one goes to the end. -/
def insert (key : Str) (value : α) : Entries α → Entries α
  | [] => [(key, value)]
  | (k, v) :: es => if k = key then (k, value) :: es else (k, v) :: insert key value es

def remove (key : Str) (es : Entries α) : Entries α := es.filter fun e => e.1 ≠ key

@[simp] theorem get_nil (key : Str) : get key ([] : Entries α) = none := rfl

@[simp] theorem get_insert_self (key : Str) (value : α) (es : Entries α) :
    get key (insert key value es) = some value := by
  induction es with
  | nil => simp [insert, get]
  | cons e es ih =>
    obtain ⟨k, v⟩ := e
    by_cases h : k = key <;> simp [insert, get, h, ih]

theorem get_insert_of_ne {key key' : Str} (h : key' ≠ key) (value : α) (es : Entries α) :
    get key (insert key' value es) = get key es := by
  induction es with
  | nil => simp [insert, get, h]
  | cons e es ih =>
    obtain ⟨k, v⟩ := e
    by_cases hk : k = key'
    · subst hk
      simp [insert, get, h]
    · by_cases hk' : k = key
      · subst hk'
        simp [insert, get, h.symm]
      · simp [insert, get, hk, hk', ih]

theorem get_insert (key key' : Str) (value : α) (es : Entries α) :
    get key (insert key' value es) = if key' = key then some value else get key es := by
  by_cases h : key' = key
  · subst h
    simp
  · rw [get_insert_of_ne h, if_neg h]

theorem mem_insert {key : Str} {value : α} {es : Entries α} {e : Str × α}
    (h : e ∈ insert key value es) : e = (key, value) ∨ e ∈ es := by
  induction es with
  | nil => exact .inl (List.mem_singleton.mp h)
  | cons d es ih =>
    rw [insert] at h
    split_ifs at h with hk
    · subst hk
      rcases List.mem_cons.mp h with h | h
      · exact .inl h
      · exact .inr (List.mem_cons_of_mem _ h)
    · rcases List.mem_cons.mp h with rfl | h
      · exact .inr (List.mem_cons_self ..)
      · exact (ih h).imp_right (List.mem_cons_of_mem _)

theorem get_remove (key key' : Str) (es : Entries α) :
    get key (remove key' es) = if key' = key then none else get key es := by
  induction es with
  | nil => simp [remove]
  | cons e es ih =>
    obtain ⟨k, v⟩ := e
    by_cases hk : k = key'
    · subst hk
      rw [remove, List.filter_cons_of_neg (by simp), ← remove, ih]
      by_cases h : k = key <;> simp [get, h]
    · rw [remove, List.filter_cons_of_pos (by simpa using hk), ← remove, get, get, ih]
      by_cases h : k = key
      · subst h
        simp [Ne.symm hk]
      · simp [h]

theorem get_filter_key (key : Str) (keep : Str → Bool) (es : Entries α) :
    get key (es.filter fun e => keep e.1) = if keep key then get key es else none := by
  induction es with
  | nil => simp
  | cons e es ih =>
    obtain ⟨k, v⟩ := e
    by_cases hk : k = key
    · subst hk
      cases h : keep k <;> simp [h, get, ih]
    · cases h : keep k <;> simp [h, get, hk, ih]

theorem eq_nil_of_get {es : Entries α} (h : ∀ key, get key es = none) : es = [] := by
  cases es with
  | nil => rfl
  | cons e es => simpa [get] using h e.1

theorem get_eq_none {key : Str} {es : Entries α} :
    get key es = none ↔ key ∉ es.map Prod.fst := by
  induction es with
  | nil => simp
  | cons e es ih =>
    obtain ⟨k, v⟩ := e
    by_cases h : k = key
    · simp [get, h]
    · simp [get, h, Ne.symm h, ih]

theorem get_cons_of_ne {key k : Str} (h : k ≠ key) (v : α) (es : Entries α) :
    get key ((k, v) :: es) = get key es :=
  if_neg h

/-- The keys of a map keep their order, and a new one follows them. -/
theorem keys_insert (key : Str) (value : α) (es : Entries α) :
    (insert key value es).map Prod.fst =
      if key ∈ es.map Prod.fst then es.map Prod.fst else es.map Prod.fst ++ [key] := by
  induction es with
  | nil => rfl
  | cons e es ih =>
    obtain ⟨k, v⟩ := e
    by_cases h : k = key
    · simp [insert, h]
    · rw [insert, if_neg h, List.map_cons, ih, List.map_cons]
      by_cases hk : key ∈ es.map Prod.fst
      · rw [if_pos hk, if_pos (List.mem_cons_of_mem _ hk)]
      · rw [if_neg hk, if_neg (by simpa [Ne.symm h] using hk), List.cons_append]

theorem get_mem {key : Str} {value : α} {es : Entries α} (h : get key es = some value) :
    (key, value) ∈ es := by
  induction es with
  | nil => simp at h
  | cons e es ih =>
    obtain ⟨k, v⟩ := e
    by_cases hk : k = key
    · subst hk
      simp only [get, if_true, Option.some.injEq] at h
      simp [h]
    · simp only [get, if_neg hk] at h
      exact List.mem_cons_of_mem _ (ih h)

theorem get_of_mem {key : Str} {value : α} {es : Entries α} (hn : (es.map Prod.fst).Nodup)
    (h : (key, value) ∈ es) : get key es = some value := by
  induction es with
  | nil => exact absurd h List.not_mem_nil
  | cons e es ih =>
    obtain ⟨k, v⟩ := e
    obtain ⟨hk, hn⟩ := List.nodup_cons.mp hn
    rcases List.mem_cons.mp h with he | h
    · obtain ⟨rfl, rfl⟩ := Prod.mk.inj he
      exact if_pos rfl
    · have hne : k ≠ key := by
        rintro rfl
        exact hk (List.mem_map.mpr ⟨_, h, rfl⟩)
      rw [get_cons_of_ne hne]
      exact ih hn h

/-- A map is given by the order of its keys and what it holds under each. -/
theorem eq_of_get {es os : Entries α} (hk : es.map Prod.fst = os.map Prod.fst)
    (hn : (es.map Prod.fst).Nodup) (h : ∀ key, get key es = get key os) : es = os := by
  induction es generalizing os with
  | nil => exact (List.map_eq_nil_iff.mp hk.symm).symm
  | cons e es ih =>
    obtain ⟨k, v⟩ := e
    obtain ⟨⟨k', v'⟩, os, rfl⟩ : ∃ d rest, os = d :: rest := by
      cases os with
      | nil => cases hk
      | cons d rest => exact ⟨d, rest, rfl⟩
    obtain ⟨rfl, htail⟩ := List.cons.inj hk
    obtain ⟨hfresh, hn⟩ := List.nodup_cons.mp hn
    have hv := h k
    rw [get, if_pos rfl, get, if_pos rfl] at hv
    rw [Option.some.inj hv, ih htail hn]
    intro key
    by_cases hkey : k = key
    · subst hkey
      rw [get_eq_none.mpr hfresh, get_eq_none.mpr (htail ▸ hfresh)]
    · have hrest := h key
      rwa [get_cons_of_ne hkey, get_cons_of_ne hkey] at hrest

/-- Writing what is there changes nothing. -/
theorem insert_of_get {key : Str} {value : α} {es : Entries α} (h : get key es = some value) :
    insert key value es = es := by
  induction es with
  | nil => simp at h
  | cons e es ih =>
    obtain ⟨k, v⟩ := e
    by_cases hk : k = key
    · rw [get, if_pos hk, Option.some.injEq] at h
      rw [insert, if_pos hk, h]
    · rw [get_cons_of_ne hk] at h
      rw [insert, if_neg hk, ih h]

end Entries

/-- The named values a message and a hint are rendered from. -/
abbrev Details : Type := List (Str × Value)

/-- A raised diagnostic: its code and its detail bag. -/
abbrev Report : Type := Str × Details

/-- An error of the engine. An outer level of a parse can read its code and its rendered text; the
bag those were rendered from is the caller's, who gets the rendered hint as well. -/
structure TabnasError where
  code : Str
  detail : Str
  bag : Details

end MultiSource
