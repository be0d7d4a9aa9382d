import Mathlib.Data.List.Sort
import Mathlib.Logic.Relation
import MultiSource.Text

/-!
# What the C library may encode

Before a parsed value goes into a reply it is walked for what the JSON encoder would corrupt or not
come back from: bytes that are not UTF-8, numbers of any precision, and a container in itself.

`jsonUnsafe` is the walk as it runs, over values whose containers stand in memory. It goes over the
parts of a value, which are what the value emits: texts, numbers and containers.
-/

namespace MultiSource.Clib.UnsafeWalk

abbrev Bytes : Type := List UInt8

/-- `utf8.Valid` -/
def Valid (bytes : Bytes) : Prop := (ByteArray.mk bytes.toArray).IsValidUTF8

instance (bytes : Bytes) : Decidable (Valid bytes) :=
  inferInstanceAs (Decidable (ByteArray.IsValidUTF8 _))

/-! ## Values and their memory -/

/-- `reflect.Kind`, as far as the walk tells kinds apart. -/
inductive Kind : Type
  | string
  | uint8
  | interface
  | pointer
  | map
  | slice
  | array
  | struct
  | other
  deriving DecidableEq

structure Field (T : Type) where
  name : Str
  isExported : Bool
  anonymous : Bool
  json : Str
  type : T

/-- What reflection tells of types, and the types the walk knows. `key` is that of a map and `elem`
that of a pointer, a map or a list. -/
structure Types (T : Type) where
  kind : T → Kind
  elem : T → T
  key : T → T
  pkgPath : T → Str
  name : T → Str
  fields : T → List (Field T)
  rawMessageType : T
  bigIntType : T
  bigFloatType : T
  stringsType : T
  valsType : T

/-- `reflect.Value`. A pointer, map or slice is the address of its container, 0 if it is nil, and
the length of a slice. -/
inductive GoValue (T : Type) : Type
  | invalid
  | word (t : T)
  | string (t : T) (bytes : Bytes)
  | interface (t : T) (v : GoValue T)
  | ref (t : T) (addr len : ℕ)
  | array (t : T) (vs : List (GoValue T))
  | struct (t : T) (vs : List (GoValue T))

/-- `v.String()` -/
def GoValue.bytes {T : Type} : GoValue T → Bytes
  | .string _ bytes => bytes
  | _ => []

/-- What an interface holds. -/
def GoValue.concrete {T : Type} : GoValue T → GoValue T
  | .interface _ v => v
  | v => v

structure PathKey (T : Type) where
  addr : ℕ
  n : ℕ
  t : T
  deriving DecidableEq

/-- What a container holds: one value, the entries of a map in the order it iterates in, the
elements of a slice, or those of a slice of bytes. -/
inductive Cell (T : Type) : Type
  | pointee (v : GoValue T)
  | entries (es : List (GoValue T × GoValue T))
  | elems (vs : List (GoValue T))
  | bytes (bytes : Bytes)

abbrev Memory (T : Type) : Type := PathKey T → Cell T

namespace Cell

variable {T : Type}

def asBytes : Cell T → Bytes
  | .bytes bs => bs
  | _ => []

def asEntries : Cell T → List (GoValue T × GoValue T)
  | .entries es => es
  | _ => []

def asElems : Cell T → List (GoValue T)
  | .elems vs => vs
  | _ => []

end Cell

/-- A reason; each completes "value contains …". -/
inductive Reason : Type
  | utf8
  | number
  | cycle
  deriving DecidableEq

def Reason.text : Reason → Str
  | .utf8 => "non-UTF-8 string bytes that JSON encoding would corrupt".toList
  | .number => "arbitrary-precision numbers that JSON encoding would corrupt".toList
  | .cycle => "a reference to itself, which JSON cannot represent".toList

/-- The reason a walk gives, if any, once it ends. -/
abbrev Walk : Type := Option (Option Reason)

/-- `if why != "" { return why }`, and what comes after. -/
def Walk.andThen : Walk → Walk → Walk
  | some none, rest => rest
  | why, _ => why

def enginePkg : Str := "github.com/tabnas/parser/go".toList

section Reflect

variable {T : Type} [DecidableEq T] (τ : Types T) (m : Memory T)

def isBig (t : T) : Prop := t = τ.bigIntType ∨ t = τ.bigFloatType

instance (t : T) : Decidable (isBig τ t) := inferInstanceAs (Decidable (_ ∨ _))

/-- `fields` skips the field. -/
def skips (f : Field T) : Bool :=
  f.json = "-".toList ||
    (!f.isExported &&
      let ft := if τ.kind f.type = .pointer then τ.elem f.type else f.type
      (!f.anonymous || τ.kind ft ≠ .struct))

/-- A pointer, map or slice that encodes as `null`, as `[]` or as base64. -/
def plain (t : T) (addr len : ℕ) : Bool :=
  addr = 0 || (τ.kind t = .slice && (len = 0 || τ.kind (τ.elem t) = .uint8))

def pathKey (t : T) (addr len : ℕ) : PathKey T := ⟨addr, if τ.kind t = .slice then len else 0, t⟩

/-- What is behind a pointer, map or slice. -/
def cellAt (t : T) (addr len : ℕ) : Cell T :=
  if addr = 0 then .bytes [] else m (pathKey τ t addr len)

/-- An exported field by its name, as an interface gives it. -/
def fieldByName (name : Str) (t : T) (vs : List (GoValue T)) : Option (GoValue T) :=
  (((τ.fields t).zip vs).find? fun e => e.1.name = name && e.1.isExported).map (·.2.concrete)

/-- `vals[k]` of a map with string keys. -/
def valueOf (es : List (GoValue T × GoValue T)) (k : Bytes) : GoValue T :=
  ((es.find? fun e => e.1.bytes = k).map (·.2.concrete)).getD .invalid

/-- The keys and entries of the engine's object node behind a pointer. -/
def orderedNode : GoValue T → Option (List Bytes × List (GoValue T × GoValue T))
  | .struct t vs =>
    if τ.pkgPath t = enginePkg ∧ τ.name t = "OrderedMap".toList then
      match fieldByName τ "Keys".toList t vs, fieldByName τ "Vals".toList t vs with
      | some (.ref tk ak lk), some (.ref tv av _) =>
        if tk = τ.stringsType ∧ tv = τ.valsType then
          some ((cellAt τ m tk ak lk).asElems.map GoValue.bytes, (cellAt τ m tv av 0).asEntries)
        else none
      | _, _ => none
    else none
  | _ => none

def strKeys (t : T) : Bool := τ.kind (τ.key t) = .string

/-- `sort.Slice(keys, …)` if they are strings. -/
def sortKeys (t : T) (es : List (GoValue T × GoValue T)) : List (GoValue T × GoValue T) :=
  if strKeys τ t then es.insertionSort fun a b => a.1.bytes ≤ b.1.bytes else es

/-! ## The walk -/

/-- What the type alone decides: a raw fragment, and the numbers. -/
def ofType (t : T) (bytes : Bytes) : Option Walk :=
  if t = τ.rawMessageType then some (some (if Valid bytes then none else some .utf8))
  else if isBig τ t ∨ (τ.kind t = .pointer ∧ isBig τ (τ.elem t)) then some (some (some .number))
  else none

mutual

def value (container : T → ℕ → ℕ → Walk) : GoValue T → Walk
  | .invalid => some none
  | .word t => (ofType τ t []).getD (some none)
  | .string t bytes => (ofType τ t []).getD (some (if Valid bytes then none else some .utf8))
  | .interface t v => (ofType τ t []).getD (value container v)
  | .ref t addr len =>
    (ofType τ t (cellAt τ m t addr len).asBytes).getD (container t addr len)
  | .array t vs => (ofType τ t []).getD (elems container vs)
  | .struct t vs => (ofType τ t []).getD (fields container (τ.fields t) vs)

def elems (container : T → ℕ → ℕ → Walk) : List (GoValue T) → Walk
  | [] => some none
  | v :: vs => (value container v).andThen (elems container vs)

def fields (container : T → ℕ → ℕ → Walk) : List (Field T) → List (GoValue T) → Walk
  | f :: fs, v :: vs =>
    if skips τ f then fields container fs vs
    else (value container v).andThen (fields container fs vs)
  | _, _ => some none

end

def ordered (container : T → ℕ → ℕ → Walk) (vals : List (GoValue T × GoValue T)) :
    List Bytes → Walk
  | [] => some none
  | k :: keys =>
    if Valid k then
      (value τ m container (valueOf vals k)).andThen (ordered container vals keys)
    else some (some .utf8)

def entries (container : T → ℕ → ℕ → Walk) (str : Bool) : List (GoValue T × GoValue T) → Walk
  | [] => some none
  | (k, v) :: es =>
    if str ∧ ¬ Valid k.bytes then some (some .utf8)
    else (value τ m container v).andThen (entries container str es)

/-- What is in a container. -/
def contents (container : T → ℕ → ℕ → Walk) (t : T) : Cell T → Walk
  | .entries es => entries τ m container (strKeys τ t) (sortKeys τ t es)
  | .elems vs => elems τ m container vs
  | .pointee v =>
    match orderedNode τ m v with
    | some (keys, vals) => ordered τ m container vals keys
    | none => value τ m container v
  | .bytes _ => some none

/-- A pointer, map or slice, at most `fuel` of them inside each other. -/
def container : ℕ → List (PathKey T) → T → ℕ → ℕ → Walk
  | fuel, onPath, t, addr, len =>
    let k := pathKey τ t addr len
    if plain τ t addr len then some none
    else if k ∈ onPath then some (some .cycle)
    else
      match fuel with
      | 0 => none
      | fuel + 1 => contents τ m (container fuel (onPath ++ [k])) t (m k)

def jsonUnsafe (fuel : ℕ) (val : GoValue T) : Walk := value τ m (container τ m fuel []) val

/-! ## What is emitted -/

/-- What goes into the encoding, one after the other. -/
inductive Part (T : Type) : Type
  | text (bytes : Bytes)
  | number
  | ref (k : PathKey T)

/-- The reason a part gives by itself. -/
def Part.fault : Part T → Option Reason
  | .text bytes => if Valid bytes then none else some .utf8
  | .number => some .number
  | .ref _ => none

def partsOfType (t : T) (bytes : Bytes) : Option (List (Part T)) :=
  if t = τ.rawMessageType then some [.text bytes]
  else if isBig τ t ∨ (τ.kind t = .pointer ∧ isBig τ (τ.elem t)) then some [.number]
  else none

mutual

/-- The parts of a value, up to its containers. -/
def parts : GoValue T → List (Part T)
  | .invalid => []
  | .word t => (partsOfType τ t []).getD []
  | .string t bytes => (partsOfType τ t []).getD [.text bytes]
  | .interface t v => (partsOfType τ t []).getD (parts v)
  | .ref t addr len =>
    (partsOfType τ t (cellAt τ m t addr len).asBytes).getD
      (if plain τ t addr len then [] else [.ref (pathKey τ t addr len)])
  | .array t vs => (partsOfType τ t []).getD (partsOfElems vs)
  | .struct t vs => (partsOfType τ t []).getD (partsOfFields (τ.fields t) vs)

def partsOfElems : List (GoValue T) → List (Part T)
  | [] => []
  | v :: vs => parts v ++ partsOfElems vs

def partsOfFields : List (Field T) → List (GoValue T) → List (Part T)
  | f :: fs, v :: vs => (if skips τ f then [] else parts v) ++ partsOfFields fs vs
  | _, _ => []

end

/-- The parts of what a container holds. -/
def partsOfCell (t : T) : Cell T → List (Part T)
  | .entries es => (sortKeys τ t es).flatMap fun e =>
      (if strKeys τ t then [.text e.1.bytes] else []) ++ parts τ m e.2
  | .elems vs => partsOfElems τ m vs
  | .pointee v =>
    match orderedNode τ m v with
    | some (keys, vals) => keys.flatMap fun k => .text k :: parts τ m (valueOf vals k)
    | none => parts τ m v
  | .bytes _ => []

def held (k : PathKey T) : List (Part T) := partsOfCell τ m k.t (m k)

/-- One container is in another. -/
def Holds (j k : PathKey T) : Prop := .ref k ∈ held τ m j

/-- The value contains the container. -/
def Reaches (v : GoValue T) (k : PathKey T) : Prop :=
  ∃ j, .ref j ∈ parts τ m v ∧ Relation.ReflTransGen (Holds τ m) j k

/-- The part is of the value or of a container in it. -/
def Emits (v : GoValue T) (part : Part T) : Prop :=
  part ∈ parts τ m v ∨ ∃ k, Reaches τ m v k ∧ part ∈ held τ m k

/-! ## The walk goes over the parts -/

/-- A walk over parts. -/
def scan (visit : PathKey T → Walk) : List (Part T) → Walk
  | [] => some none
  | .ref k :: ps => (visit k).andThen (scan visit ps)
  | .text bytes :: ps => if Valid bytes then scan visit ps else some (some .utf8)
  | .number :: _ => some (some .number)

def visit (fuel : ℕ) (onPath : List (PathKey T)) (k : PathKey T) : Walk :=
  if k ∈ onPath then some (some .cycle)
  else
    match fuel with
    | 0 => none
    | fuel + 1 => contents τ m (container τ m fuel (onPath ++ [k])) k.t (m k)

variable {τ m}

@[simp] theorem Walk.andThen_safe (w : Walk) : Walk.andThen (some none) w = w := rfl

@[simp] theorem Walk.andThen_none (w : Walk) : Walk.andThen none w = none := rfl

@[simp] theorem Walk.andThen_why (r : Reason) (w : Walk) :
    Walk.andThen (some (some r)) w = some (some r) := rfl

theorem Walk.andThen_assoc (u v w : Walk) :
    Walk.andThen (u.andThen v) w = u.andThen (v.andThen w) := by
  rcases u with _ | _ | r <;> rfl

omit [DecidableEq T] in
theorem scan_append (visit : PathKey T → Walk) (ps qs : List (Part T)) :
    scan visit (ps ++ qs) = (scan visit ps).andThen (scan visit qs) := by
  induction ps with
  | nil => rfl
  | cons p ps ih =>
    cases p with
    | text bytes =>
      rw [List.cons_append, scan, scan]
      split_ifs
      · exact ih
      · rfl
    | number => rfl
    | ref k => rw [List.cons_append, scan, scan, ih, Walk.andThen_assoc]

theorem container_eq (fuel : ℕ) (onPath : List (PathKey T)) (t : T) (addr len : ℕ) :
    container τ m fuel onPath t addr len =
      if plain τ t addr len then some none else visit τ m fuel onPath (pathKey τ t addr len) := by
  cases fuel <;> rfl

section Visits

variable {container : T → ℕ → ℕ → Walk} {visit : PathKey T → Walk}

variable (τ) in
/-- A walk of containers that is a visit of each but the plain ones. -/
def Visits (container : T → ℕ → ℕ → Walk) (visit : PathKey T → Walk) : Prop :=
  ∀ t addr len, container t addr len =
    if plain τ t addr len then some none else visit (pathKey τ t addr len)

theorem ofType_getD (visit : PathKey T → Walk) (t : T) (bytes : Bytes) {w : Walk}
    {ps : List (Part T)} (h : w = scan visit ps) :
    (ofType τ t bytes).getD w = scan visit ((partsOfType τ t bytes).getD ps) := by
  unfold ofType partsOfType
  split_ifs with hr hv hb
  · simp [scan, hv]
  · simp [scan, hv]
  · rfl
  · exact h

mutual

theorem value_eq_scan (hc : Visits τ container visit) :
    ∀ v : GoValue T, value τ m container v = scan visit (parts τ m v)
  | .invalid => rfl
  | .word t => ofType_getD visit t [] rfl
  | .string t bytes => ofType_getD visit t [] (by by_cases hb : Valid bytes <;> simp [scan, hb])
  | .interface t v => ofType_getD visit t [] (value_eq_scan hc v)
  | .ref t addr len => by
    refine ofType_getD visit t _ ?_
    rw [hc]
    by_cases hp : plain τ t addr len
    · rw [if_pos hp, if_pos hp]
      rfl
    · rw [if_neg hp, if_neg hp]
      rcases hv : visit (pathKey τ t addr len) with _ | _ | r <;> simp [scan, hv]
  | .array t vs => ofType_getD visit t [] (elems_eq_scan hc vs)
  | .struct t vs => ofType_getD visit t [] (fields_eq_scan hc (τ.fields t) vs)

theorem elems_eq_scan (hc : Visits τ container visit) : ∀ vs : List (GoValue T),
    elems τ m container vs = scan visit (partsOfElems τ m vs)
  | [] => rfl
  | v :: vs => by
    rw [elems, partsOfElems, scan_append, value_eq_scan hc v, elems_eq_scan hc vs]

theorem fields_eq_scan (hc : Visits τ container visit) :
    ∀ (fs : List (Field T)) (vs : List (GoValue T)),
      fields τ m container fs vs = scan visit (partsOfFields τ m fs vs)
  | f :: fs, v :: vs => by
    rw [fields, partsOfFields, scan_append, fields_eq_scan hc fs vs]
    by_cases hf : skips τ f
    · rw [if_pos hf, if_pos hf]
      rfl
    · rw [if_neg hf, if_neg hf, value_eq_scan hc v]
  | [], _ => by simp [fields, partsOfFields, scan]
  | _ :: _, [] => by simp [fields, partsOfFields, scan]

end

theorem ordered_eq_scan (hc : Visits τ container visit) (vals : List (GoValue T × GoValue T))
    (keys : List Bytes) :
    ordered τ m container vals keys =
      scan visit (keys.flatMap fun k => .text k :: parts τ m (valueOf vals k)) := by
  induction keys with
  | nil => rfl
  | cons k keys ih =>
    rw [ordered, List.flatMap_cons, List.cons_append, scan, scan_append, ih, value_eq_scan hc]

theorem entries_eq_scan (hc : Visits τ container visit) (str : Bool)
    (es : List (GoValue T × GoValue T)) :
    entries τ m container str es = scan visit (es.flatMap fun e =>
      (if str then [.text e.1.bytes] else []) ++ parts τ m e.2) := by
  induction es with
  | nil => rfl
  | cons e es ih =>
    rw [entries, List.flatMap_cons, scan_append, scan_append, ih, value_eq_scan hc]
    cases str with
    | false => simp [scan]
    | true => by_cases hk : Valid e.1.bytes <;> simp [scan, hk]

theorem contents_eq_scan (hc : Visits τ container visit) (t : T) (cell : Cell T) :
    contents τ m container t cell = scan visit (partsOfCell τ m t cell) := by
  cases cell with
  | pointee v =>
    rw [contents, partsOfCell]
    cases orderedNode τ m v with
    | some node => exact ordered_eq_scan hc ..
    | none => exact value_eq_scan hc v
  | entries es => exact entries_eq_scan hc ..
  | elems vs => exact elems_eq_scan hc vs
  | bytes bs => rfl

end Visits

theorem visit_of_mem (fuel : ℕ) {onPath : List (PathKey T)} {k : PathKey T} (h : k ∈ onPath) :
    visit τ m fuel onPath k = some (some .cycle) := by
  unfold visit
  rw [if_pos h]

theorem visit_succ (fuel : ℕ) (onPath : List (PathKey T)) (k : PathKey T) :
    visit τ m (fuel + 1) onPath k =
      if k ∈ onPath then some (some .cycle)
      else scan (visit τ m fuel (onPath ++ [k])) (held τ m k) := by
  unfold visit
  split_ifs
  · rfl
  · exact contents_eq_scan (container_eq fuel _) k.t (m k)

theorem jsonUnsafe_eq_scan (fuel : ℕ) (val : GoValue T) :
    jsonUnsafe τ m fuel val = scan (visit τ m fuel []) (parts τ m val) :=
  value_eq_scan (container_eq fuel []) val

/-! ## More fuel -/

omit [DecidableEq T] in
theorem scan_mono {visit visit' : PathKey T → Walk}
    (h : ∀ k w, visit k = some w → visit' k = some w) {ps : List (Part T)} {w : Option Reason}
    (hs : scan visit ps = some w) : scan visit' ps = some w := by
  induction ps generalizing w with
  | nil => exact hs
  | cons p ps ih =>
    cases p with
    | text bytes =>
      rw [scan] at hs ⊢
      split_ifs at hs ⊢
      · exact ih hs
      · exact hs
    | number => exact hs
    | ref k =>
      rw [scan] at hs ⊢
      cases hk : visit k with
      | none =>
        rw [hk] at hs
        cases hs
      | some why =>
        rw [hk] at hs
        rw [h k why hk]
        cases why with
        | none => exact ih hs
        | some r => exact hs

theorem visit_mono {fuel : ℕ} {onPath : List (PathKey T)} {k : PathKey T} {w : Option Reason}
    (h : visit τ m fuel onPath k = some w) : visit τ m (fuel + 1) onPath k = some w := by
  induction fuel generalizing onPath k w with
  | zero =>
    unfold visit at h
    split_ifs at h with hm
    · exact (visit_of_mem _ hm).trans h
  | succ fuel ih =>
    rw [visit_succ] at h ⊢
    split_ifs at h ⊢
    · exact h
    · exact scan_mono (fun _ _ => ih) h

theorem jsonUnsafe_mono {fuel fuel' : ℕ} (hle : fuel ≤ fuel') {val : GoValue T} {w : Option Reason}
    (h : jsonUnsafe τ m fuel val = some w) : jsonUnsafe τ m fuel' val = some w := by
  induction hle with
  | refl => exact h
  | step _ ih =>
    rw [jsonUnsafe_eq_scan] at ih ⊢
    exact scan_mono (fun _ _ => visit_mono) ih

end Reflect

end MultiSource.Clib.UnsafeWalk
