import MultiSource.PathSpec

/-!
# Parse metadata

A nested parse is told where it stands by its metadata alone: the sources around it, its own path,
and the slot its report goes to. `childMeta` builds that, and the lemmas after it say what each
reader gets back.
-/

namespace MultiSource

/-- The rule and directive the plugin installs. -/
def RULE_NAME : Str := "multisource".toList

/-- The key marking metadata the plugin built for a nested parse. -/
def NESTED_MARK : Str := "nested".toList

/-- The key of the slot a nested parse records its report under. -/
def REPORT_TICKET : Str := "report".toList

def metaObject : Value → Option (Entries Value)
  | .object map => some map
  | .mapRef map _ _ => some map
  | _ => none

def metaGet (parseMeta : Value) (key : Str) : Option Value :=
  (metaObject parseMeta).bind (Entries.get key)

def metaMultisourceString (parseMeta : Value) (key : Str) : Option Str :=
  match (metaGet parseMeta RULE_NAME).bind (metaGet · key) with
  | some (.string text) => some text
  | some (.text string) => some string
  | _ => none

/-- Was this metadata built by `childMeta`, rather than handed in by a caller? -/
def isNestedMeta (parseMeta : Value) : Bool :=
  match (metaGet parseMeta RULE_NAME).bind (metaGet · NESTED_MARK) with
  | some (.bool true) => true
  | _ => false

def metaParents (parseMeta : Value) : List Str :=
  match (metaGet parseMeta RULE_NAME).bind (metaGet · "parents".toList) with
  | some (.array items) => items.filterMap fun
    | .string text => some text
    | .text string => some string
    | _ => none
  | _ => []

/-- The full path of the source that contains this reference, when the reference was found inside
another source. -/
def sourcePath (parseMeta : Value) : Option Str := metaMultisourceString parseMeta "path".toList

/-- The chain a source is checked against: the ancestors its parse was given, and then the source
that parse is reading. -/
def metaChain (parseMeta : Value) : List Str :=
  metaParents parseMeta ++ (sourcePath parseMeta).toList

/-- The plugin's own entry of the metadata a nested parse gets. -/
def childEntry (parent : Value) (resolution : Resolution) (parents : List Str) (ticket : Str) :
    Entries Value :=
  let previous : Entries Value := ((metaGet parent RULE_NAME).bind metaObject).getD []
  let entry := Entries.insert "parents".toList (.array (parents.map .string)) previous
  let path : Value := match resolution.spec.full with
    | some full => .string full
    | none => .undefined
  let entry := Entries.insert "path".toList path entry
  let entry := Entries.insert NESTED_MARK (.bool true) entry
  Entries.insert REPORT_TICKET (.string ticket) entry

/-- The metadata a nested parse gets: the parent's, with the plugin's own entry naming this source
and its ancestors. -/
def childMeta (parent : Value) (resolution : Resolution) (parents : List Str)
    (dive : Option Value) (ticket : Str) : Value :=
  let child : Entries Value := (metaObject parent).getD []
  let child :=
    Entries.insert RULE_NAME (.object (childEntry parent resolution parents ticket)) child
  let child := match resolution.spec.path with
    | some path => Entries.insert "fileName".toList (.string path) child
    | none => child
  let child := match dive with
    | some (.array segments) =>
      Entries.insert "path".toList (.object [("base".toList, .array segments)]) child
    | _ => child
  .object child

section ChildMeta

variable (parent : Value) (resolution : Resolution) (parents : List Str) (dive : Option Value)
  (ticket : Str)

theorem metaGet_childMeta : metaGet (childMeta parent resolution parents dive ticket) RULE_NAME =
    some (.object (childEntry parent resolution parents ticket)) := by
  have hf : "fileName".toList ≠ RULE_NAME := by decide
  have hp : "path".toList ≠ RULE_NAME := by decide
  simp only [childMeta, metaGet, metaObject, Option.bind_some]
  split
  · rw [Entries.get_insert_of_ne hp]
    split
    · rw [Entries.get_insert_of_ne hf, Entries.get_insert_self]
    · rw [Entries.get_insert_self]
  · split
    · rw [Entries.get_insert_of_ne hf, Entries.get_insert_self]
    · rw [Entries.get_insert_self]

@[simp] theorem metaParents_childMeta :
    metaParents (childMeta parent resolution parents dive ticket) = parents := by
  rw [metaParents, metaGet_childMeta, Option.bind_some]
  simp only [metaGet, metaObject, Option.bind_some, childEntry]
  rw [Entries.get_insert_of_ne (by decide), Entries.get_insert_of_ne (by decide),
    Entries.get_insert_of_ne (by decide), Entries.get_insert_self]
  simp [List.filterMap_map]

@[simp] theorem sourcePath_childMeta :
    sourcePath (childMeta parent resolution parents dive ticket) = resolution.spec.full := by
  rw [sourcePath, metaMultisourceString, metaGet_childMeta, Option.bind_some]
  simp only [metaGet, metaObject, Option.bind_some, childEntry]
  rw [Entries.get_insert_of_ne (by decide), Entries.get_insert_of_ne (by decide),
    Entries.get_insert_self]
  cases resolution.spec.full <;> rfl

@[simp] theorem isNestedMeta_childMeta :
    isNestedMeta (childMeta parent resolution parents dive ticket) = true := by
  rw [isNestedMeta, metaGet_childMeta, Option.bind_some]
  simp only [metaGet, metaObject, Option.bind_some, childEntry]
  rw [Entries.get_insert_of_ne (by decide), Entries.get_insert_self]

@[simp] theorem metaTicket_childMeta :
    metaMultisourceString (childMeta parent resolution parents dive ticket) REPORT_TICKET =
      some ticket := by
  rw [metaMultisourceString, metaGet_childMeta, Option.bind_some]
  simp only [metaGet, metaObject, Option.bind_some, childEntry]
  rw [Entries.get_insert_self]

theorem metaChain_childMeta :
    metaChain (childMeta parent resolution parents dive ticket) =
      parents ++ resolution.spec.full.toList := by
  rw [metaChain, metaParents_childMeta, sourcePath_childMeta]

end ChildMeta

section Congr

variable {parseMeta parseMeta' : Value}

/-! The readers look at the plugin's own entry and nothing else. -/

theorem metaMultisourceString_congr (h : metaGet parseMeta RULE_NAME = metaGet parseMeta' RULE_NAME)
    (key : Str) : metaMultisourceString parseMeta key = metaMultisourceString parseMeta' key := by
  rw [metaMultisourceString, h, metaMultisourceString]

theorem isNestedMeta_congr (h : metaGet parseMeta RULE_NAME = metaGet parseMeta' RULE_NAME) :
    isNestedMeta parseMeta = isNestedMeta parseMeta' := by
  rw [isNestedMeta, h, isNestedMeta]

theorem metaChain_congr (h : metaGet parseMeta RULE_NAME = metaGet parseMeta' RULE_NAME) :
    metaChain parseMeta = metaChain parseMeta' := by
  rw [metaChain, metaParents, sourcePath, metaMultisourceString_congr h, h, metaChain, metaParents,
    sourcePath]

end Congr

/-- Metadata no load has touched: a top-level parse without multisource metadata. -/
def Unmarked (parseMeta : Value) : Prop := metaGet parseMeta RULE_NAME = none

theorem Unmarked.chain {parseMeta : Value} (h : Unmarked parseMeta) : metaChain parseMeta = [] := by
  simp [metaChain, metaParents, sourcePath, metaMultisourceString, show metaGet _ _ = none from h]

theorem Unmarked.path {parseMeta : Value} (h : Unmarked parseMeta) :
    sourcePath parseMeta = none := by
  simp [sourcePath, metaMultisourceString, show metaGet _ _ = none from h]

theorem Unmarked.ticket {parseMeta : Value} (h : Unmarked parseMeta) :
    metaMultisourceString parseMeta REPORT_TICKET = none := by
  simp [metaMultisourceString, show metaGet _ _ = none from h]

theorem Unmarked.nested {parseMeta : Value} (h : Unmarked parseMeta) :
    isNestedMeta parseMeta = false := by
  simp [isNestedMeta, show metaGet _ _ = none from h]

end MultiSource
