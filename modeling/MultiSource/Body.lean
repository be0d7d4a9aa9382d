import MultiSource.Value

/-!
# Directive bodies

What a document can put in a directive, in the terms the three ports share. `Body.toValue` is the
engine's value for it in Rust.
-/

namespace MultiSource

/-- A directive body, or a value inside one. -/
inductive Body : Type
  | absent
  | null
  | bool (flag : Bool)
  | number (number : F64)
  | string (text : Str)
  | array (items : List Body)
  | object (entries : List (Str × Body))

mutual

def Body.toValue : Body → Value
  | .absent => .undefined
  | .null => .null
  | .bool flag => .bool flag
  | .number number => .number number
  | .string text => .string text
  | .array items => .array (itemsToValues items)
  | .object entries => .object (entriesToValues entries)
termination_by structural body => body

def itemsToValues : List Body → List Value
  | [] => []
  | item :: items => item.toValue :: itemsToValues items
termination_by structural items => items

def entriesToValues : List (Str × Body) → Entries Value
  | [] => []
  | (key, value) :: entries => (key, value.toValue) :: entriesToValues entries
termination_by structural entries => entries

end

theorem get_entriesToValues (key : Str) (entries : Entries Body) :
    (entriesToValues entries).get key = (entries.get key).map Body.toValue := by
  induction entries with
  | nil => rfl
  | cons e entries ih =>
    obtain ⟨k, v⟩ := e
    unfold entriesToValues Entries.get
    split_ifs
    · rfl
    · exact ih

end MultiSource
