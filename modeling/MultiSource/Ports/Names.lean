import MultiSource.Action
import MultiSource.Ports.MemMap
import MultiSource.Ports.Numbers

/-!
# The reference a body names

Three case analyses over one value type. They part where a body is a bare value, where a path holds
an array or an object, and where a number has two spellings.
-/

namespace MultiSource.Ports

/-! ## What the actions report -/

/-- The code the canonical action marks a reference bad with, when the resolver has answered. -/
def tsCode {α : Type} (res : Ts.Resolution α) : Option Str :=
  if res.found then none else some "multisource_not_found".toList

/-- The code of the Go action for a resolution. -/
def goCode (res : Go.Resolution) : Option Str :=
  if res.found then none else some "multisource_not_found".toList

/-- The code of the Rust action for a resolution. -/
def rustCode (reference : Option Str) (resolution : Resolution) : Option Str :=
  if resolution.found then none else some (notFoundReport reference resolution).1

/-- Over any map and under any options and metadata, all three report a source that was not
found. -/
structure ReportsNotFound (rust go : ExpFormat) (format : Go.DefaultFormat)
    (objectText : Ts.ObjectText) (body : Body) : Prop where
  ts : ∀ files popts ctx,
    (Ts.MemResolver.resolve files objectText popts ctx body).map tsCode = .ok (some NOT_FOUND)
  go : ∀ files opts parseMeta,
    goCode (Go.resolve files opts (Go.pathStr go format body) parseMeta) = some NOT_FOUND
  rust : ∀ files input,
    rustCode (referenceOf rust body.toValue)
      ((MapResolver.mk files).resolve (referenceOf rust body.toValue) input) = some NOT_FOUND

/-- The three ports name the same reference, the empty one standing for none, and report a body that
names none. -/
def SameName (rust go : ExpFormat) (format : Go.DefaultFormat) (objectText : Ts.ObjectText)
    (body : Body) : Prop :=
  ∃ r, Ts.specPath objectText body = .ok r ∧
    (referenceOf rust body.toValue).getD [] = r.getD [] ∧
    Go.pathStr go format body = r.getD [] ∧
    (r.getD [] = [] → ReportsNotFound rust go format objectText body)

/-- A value under the path key with one spelling in every port. -/
def PlainPath : Body → Prop
  | .number number => OneSpelling number
  | .array _ => False
  | .object _ => False
  | _ => True

/-- A body that is a string, an array, or an object with a plain path or none. -/
def PlainBody : Body → Prop
  | .string _ => True
  | .array _ => True
  | .object entries => ∀ value, Entries.get "path".toList entries = some value → PlainPath value
  | _ => False

/-! ## No reference -/

theorem resolvePathSpec_of_empty {reference : Option Str} (h : reference.getD [] = [])
    (base : Str) : (resolvePathSpec reference base).full = none := by
  cases reference with
  | none => rfl
  | some path =>
    obtain rfl : path = [] := h
    rfl

section Empty

variable {rust go : ExpFormat} {format : Go.DefaultFormat} {objectText : Ts.ObjectText}
  {body : Body}

theorem ts_resolve_of_empty {r : Option Str} (hr : Ts.specPath objectText body = .ok r)
    (h : r.getD [] = []) (files : Entries Str) (popts : Ts.Options) (ctx : Ts.Ctx) :
    (Ts.MemResolver.resolve files objectText popts ctx body).map tsCode =
      .ok (some NOT_FOUND) := by
  have hbase : ∃ base, Ts.MemResolver.resolvefolder files (ctx.path <|> popts.path) = .ok base := by
    cases ctx.path <|> popts.path with
    | none => exact ⟨_, rfl⟩
    | some raw => exact ⟨_, resolvefolder_eq files raw⟩
  obtain ⟨base, hbase⟩ := hbase
  unfold Ts.MemResolver.resolve Ts.resolvePathSpec
  rw [hbase, hr]
  cases r with
  | none => rfl
  | some path =>
    obtain rfl : path = [] := h
    rfl

/-- A body that names nothing is not found, by any port. -/
theorem reportsNotFound {r : Option Str} (hr : Ts.specPath objectText body = .ok r)
    (hrust : (referenceOf rust body.toValue).getD [] = r.getD [])
    (hgo : Go.pathStr go format body = r.getD []) (h : r.getD [] = []) :
    ReportsNotFound rust go format objectText body where
  ts := ts_resolve_of_empty hr h
  go files opts parseMeta := by
    rw [hgo, h]
    rfl
  rust files input := by
    have hfull := resolvePathSpec_of_empty (hrust.trans h)
      (baseFor input (fun path => (files.get path).isSome) sourceDir)
    have hmiss : ((MapResolver.mk files).resolve (referenceOf rust body.toValue) input).found =
        false := by
      unfold MapResolver.resolve
      dsimp only
      rw [hfull]
      rfl
    unfold rustCode
    rw [hmiss]
    rfl

theorem sameName_iff : SameName rust go format objectText body ↔
    ∃ r, Ts.specPath objectText body = .ok r ∧
      (referenceOf rust body.toValue).getD [] = r.getD [] ∧
      Go.pathStr go format body = r.getD [] := by
  constructor
  · rintro ⟨r, hr, hrust, hgo, -⟩
    exact ⟨r, hr, hrust, hgo⟩
  · rintro ⟨r, hr, hrust, hgo⟩
    exact ⟨r, hr, hrust, hgo, reportsNotFound hr hrust hgo⟩

end Empty

/-! ## The bodies -/

section Bodies

variable {rust go : ExpFormat} {format : Go.DefaultFormat} {objectText : Ts.ObjectText}

theorem formatNumber_ne_nil (float : ExpFormat) (x : F64) : formatNumber float x ≠ [] := by
  unfold formatNumber
  split_ifs
  · decide
  · decide
  · exact List.cons_ne_nil _ _
  · exact List.cons_ne_nil _ _
  · decide
  · unfold formatPositive
    refine layout_ne_nil ?_ _
    split_ifs with h
    · decide
    · exact h

/-- What an object with a path names, in each port. -/
theorem object_names (rust go : ExpFormat) (format : Go.DefaultFormat)
    (objectText : Ts.ObjectText) {entries : Entries Body} {value : Body}
    (h : Entries.get "path".toList entries = some value) :
    Ts.specPath objectText (.object entries) =
        (if Ts.isNullish value then .ok none else (Ts.coerce objectText value).map some) ∧
      referenceOf rust (Body.object entries).toValue = coerceReference rust value.toValue ∧
      Go.pathStr go format (.object entries) = Go.specPathString go format value := by
  refine ⟨?_, ?_, ?_⟩
  · simp only [Ts.specPath, h]
  · show (Entries.get "path".toList (entriesToValues entries)).bind (coerceReference rust) = _
    rw [get_entriesToValues, show entries.get "path".toList = some value from h]
    rfl
  · simp only [Go.pathStr, h]

/-- An object without a path names none in any port. -/
theorem sameName_of_no_path {entries : Entries Body}
    (h : Entries.get "path".toList entries = none) :
    SameName rust go format objectText (.object entries) := by
  apply sameName_iff.mpr
  refine ⟨none, ?_, ?_, ?_⟩
  · simp only [Ts.specPath, h]
  · show ((Entries.get "path".toList (entriesToValues entries)).bind _).getD [] = []
    rw [get_entriesToValues, show Entries.get "path".toList entries = none from h]
    rfl
  · simp only [Go.pathStr, h, Option.getD_none]

theorem object_agrees_iff (hrust : rust.Correct) (hgo : go.Correct)
    (hmap : ∀ entries, format.orderedMap entries ≠ []) {entries : Entries Body} {value : Body}
    (h : Entries.get "path".toList entries = some value) :
    SameName rust go format objectText (.object entries) ↔ PlainPath value := by
  obtain ⟨hts, hr, hg⟩ := object_names rust go format objectText h
  rw [sameName_iff, hts, hr, hg]
  cases value with
  | absent => exact iff_of_true ⟨none, rfl, rfl, rfl⟩ trivial
  | null => exact iff_of_true ⟨none, rfl, rfl, rfl⟩ trivial
  | bool flag => exact iff_of_true ⟨_, rfl, rfl, rfl⟩ trivial
  | string text => exact iff_of_true ⟨_, rfl, rfl, rfl⟩ trivial
  | number number =>
    show _ ↔ OneSpelling number
    rw [← numbers_agree_iff hrust hgo number]
    constructor
    · rintro ⟨r, hr, h₁, h₂⟩
      obtain rfl := Except.ok.inj hr
      exact ⟨h₁, h₂⟩
    · rintro ⟨h₁, h₂⟩
      exact ⟨_, rfl, h₁, h₂⟩
  | array items =>
    refine iff_of_false ?_ id
    rintro ⟨r, -, h₁, h₂⟩
    exact List.cons_ne_nil _ _ (h₂.trans h₁.symm)
  | object entries =>
    refine iff_of_false ?_ id
    rintro ⟨r, -, h₁, h₂⟩
    exact hmap entries (h₂.trans h₁.symm)

/-- The three ports name the same reference exactly for a plain body. -/
theorem same_name_iff (rust go : ExpFormat) (format : Go.DefaultFormat)
    (objectText : Ts.ObjectText) (body : Body) (hrust : rust.Correct) (hgo : go.Correct)
    (hmap : ∀ entries, format.orderedMap entries ≠ []) :
    SameName rust go format objectText body ↔ PlainBody body := by
  cases body with
  | absent =>
    refine iff_of_false ?_ id
    rintro ⟨r, hr, -⟩
    cases hr
  | null =>
    refine iff_of_false ?_ id
    rintro ⟨r, hr, -⟩
    cases hr
  | bool flag =>
    refine iff_of_false ?_ id
    rintro ⟨r, hr, h, -⟩
    obtain rfl := Except.ok.inj hr
    cases flag <;> cases h
  | number number =>
    refine iff_of_false ?_ id
    rintro ⟨r, hr, h, -⟩
    obtain rfl := Except.ok.inj hr
    exact formatNumber_ne_nil rust number h
  | string text =>
    rw [sameName_iff]
    exact iff_of_true ⟨some text, rfl, rfl, rfl⟩ trivial
  | array items =>
    rw [sameName_iff]
    exact iff_of_true ⟨none, rfl, rfl, rfl⟩ trivial
  | object entries =>
    unfold PlainBody
    cases h : Entries.get "path".toList entries with
    | none =>
      refine iff_of_true (sameName_of_no_path h) ?_
      intro value hv
      rw [h] at hv
      cases hv
    | some value =>
      rw [object_agrees_iff hrust hgo hmap h]
      constructor
      · intro hp value' hv
        rw [h] at hv
        rwa [← Option.some.inj hv]
      · intro hp
        exact hp value h

end Bodies

/-- The default formats of a boolean and of a map. -/
def plainFormat : Go.DefaultFormat := ⟨fun _ => "0".toList, fun _ => "map[]".toList⟩

theorem same_name_bool_path : SameName exactFormat exactFormat plainFormat
    (fun _ => .ok "[object Object]".toList) (.object [("path".toList, .bool true)]) := by
  refine (same_name_iff _ _ _ _ _ exactFormat_correct exactFormat_correct ?_).mpr ?_
  · intro entries
    exact List.cons_ne_nil _ _
  · rintro value ⟨⟩
    trivial

/-- A bare boolean names a source in Rust only. -/
theorem bare_bool_names_a_source : ¬ SameName exactFormat exactFormat plainFormat
    (fun _ => .ok "[object Object]".toList) (.bool true) := by
  rintro ⟨r, hr, h, -⟩
  obtain rfl := Except.ok.inj hr
  cases h

end MultiSource.Ports
