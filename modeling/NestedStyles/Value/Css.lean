import NestedStyles.Number.Text
import NestedStyles.Tree.Basic

/-!
# Values in CSS
-/

namespace NestedStyles

/-- An item in CSS. -/
def Item.css : Item → String
  | .text s => s
  | .number n => n.css

/-- A value in CSS. A null has none, and its declaration is left out. -/
def Value.css? : Value → Option String
  | .text s => some s
  | .number n => some n.css
  | .bool b => some (if b then "true" else "false")
  | .null => none
  | .list items => some (" ".intercalate (items.map Item.css))
  | .reference css _ => some css

end NestedStyles
