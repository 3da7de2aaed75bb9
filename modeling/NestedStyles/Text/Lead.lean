/-!
# How a text begins
-/

namespace NestedStyles.Text

/-- `s` begins with `lead`. -/
def beginsWith (lead s : String) : Bool := lead.toList.isPrefixOf s.toList

/-- `s` without `lead`, if it begins with it. -/
def without? (lead s : String) : Option String :=
  if beginsWith lead s then some (String.ofList (s.toList.drop lead.toList.length)) else none

/-- The key of an at-rule begins with `@`. -/
def isAtKey (key : String) : Bool := beginsWith "@" key

end NestedStyles.Text
