import NestedStyles.Json.Numeral

/-!
# JSON values

A JSON text is read as far as it is well formed. Where it is not, the value ends in `Json.broken`,
so that a reader that goes through the value in order meets either the break or an earlier value of
the wrong shape first, as in the text.
-/

namespace NestedStyles

/-- A JSON value, as far as the text is well formed. -/
inductive Json where
  | null
  | bool (b : Bool)
  /-- A number as it is delivered, or nothing if it is out of range. -/
  | number (n : Option Json.Numeric)
  /-- A string, or nothing if it escapes half of a surrogate pair. -/
  | text (s : Option String)
  | list (items : List Json)
  /-- Members in the order of the text, repeated names included. -/
  | object (members : List (Option String × Json))
  /-- The text is not well formed here. -/
  | broken

namespace Json

mutual

/-- The text of the value is well formed. -/
def isIntact : Json → Bool
  | .broken => false
  | .list items => itemsIntact items
  | .object members => membersIntact members
  | _ => true

/-- The texts of all items are well formed. -/
def itemsIntact : List Json → Bool
  | [] => true
  | item :: rest => item.isIntact && itemsIntact rest

/-- The texts of all members are well formed. -/
def membersIntact : List (Option String × Json) → Bool
  | [] => true
  | (_, value) :: rest => value.isIntact && membersIntact rest

end

end Json

end NestedStyles
