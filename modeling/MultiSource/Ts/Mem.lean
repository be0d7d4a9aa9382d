import MultiSource.Ts.Spec

/-!
# The in-memory resolver of the canonical port

The map is an object that is read by property lookup, so it also answers to the names every object
inherits.
-/

namespace MultiSource.Ts

/-- The properties of `Object.prototype`. -/
def inheritedNames : List Str :=
  ["constructor".toList, "__proto__".toList, "__defineGetter__".toList, "__defineSetter__".toList,
    "__lookupGetter__".toList, "__lookupSetter__".toList, "hasOwnProperty".toList,
    "isPrototypeOf".toList, "propertyIsEnumerable".toList, "toLocaleString".toList,
    "toString".toList, "valueOf".toList]

/-- What a property of the map holds: a text of the map, or what it inherits under a name. -/
inductive Property : Type
  | text (src : Str)
  | inherited (name : Str)
  deriving DecidableEq

namespace MemResolver

/-- `filemap[key]`. -/
def lookup (filemap : Entries Str) (key : Str) : Option Property :=
  match filemap.get key with
  | some src => some (.text src)
  | none => if key ∈ inheritedNames then some (.inherited key) else none

def resolvefolder (filemap : Entries Str) : Option Str → Except Thrown (Option Str)
  | none => .ok none
  | some path =>
    if lookup filemap path = none then .ok (some path)
    else
      let p := trimEnd isSep path
      .ok (some (match rsplit isSep p with
        | none => []
        | some ([], _) => p.take 1
        | some (dir, _) => dir))

def pathjoin (a p : Str) : Str := a ++ '/' :: p

/-- The first path that is a property, with what it holds. -/
def firstProperty (filemap : Entries Str) (paths : List Str) : Option (Str × Property) :=
  paths.findSome? fun path => (lookup filemap path).map fun src => (path, src)

section FirstProperty

variable {filemap : Entries Str} {paths : List Str} {path : Str}

theorem firstProperty_cons (filemap : Entries Str) (path : Str) (paths : List Str) :
    firstProperty filemap (path :: paths) =
      ((lookup filemap path).map fun src => (path, src)).or (firstProperty filemap paths) := by
  unfold firstProperty
  rw [List.findSome?_cons]
  cases lookup filemap path <;> rfl

theorem firstProperty_eq_none :
    firstProperty filemap paths = none ↔ ∀ path ∈ paths, lookup filemap path = none := by
  unfold firstProperty
  rw [List.findSome?_eq_none_iff]
  simp

theorem firstProperty_mem {src : Property}
    (h : firstProperty filemap paths = some (path, src)) :
    path ∈ paths ∧ lookup filemap path = some src := by
  obtain ⟨q, hq, he⟩ := List.exists_of_findSome?_eq_some h
  obtain ⟨src', hl, he⟩ := Option.map_eq_some_iff.mp he
  obtain ⟨rfl, rfl⟩ := Prod.mk.inj he
  exact ⟨hq, hl⟩

end FirstProperty

def resolve (filemap : Entries Str) (objectText : ObjectText) (popts : Options) (ctx : Ctx)
    (spec : Body) : Except Thrown (Resolution Property) := do
  let ps ← resolvePathSpec objectText popts ctx spec (resolvefolder filemap)
  let missing : Resolution Property := { ps with src := none, found := false, search := none }
  match ps.full with
  | none => return missing
  | some full =>
    match lookup filemap full with
    | some src => return { ps with src := some src, found := true, search := none }
    | none =>
      if ps.kind = NONE then
        match firstProperty filemap (buildPotentials ps popts pathjoin) with
        | some (path, src) =>
          return { ps with
            full := some path, kind := extKind (some path), src := some src, found := true
            search := none }
        | none => return missing
      else return missing

end MemResolver

end MultiSource.Ts
