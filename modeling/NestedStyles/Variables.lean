import NestedStyles.Diagnostic
import NestedStyles.Layout
import NestedStyles.Value.Css

/-!
# Custom properties of a theme

Every leaf of a theme declares a custom property that is named by the keys on the way to it.
-/

namespace NestedStyles

/-- Custom properties with their values, in the order of the theme. -/
abbrev CustomProperties := List (String × String)

namespace CustomProperties

/-- The name of the custom property at a path of keys: the keys that are not empty, with hyphens
for underscores and between them. -/
def name (path : List String) : String :=
  let hyphenated (key : String) : String :=
    String.ofList (key.toList.map fun c => if c == '_' then '-' else c)
  "--" ++ "-".intercalate ((path.filter (· != "")).map hyphenated)

/-- The declaration of a leaf. A null declares nothing. -/
def declare (path : List String) (value : Value) : Except CompileError CustomProperties :=
  match value.nonFinite? with
  | some number => .error (.nonFinite path number)
  | none => .ok (value.css?.toList.map (name path, ·))

mutual

/-- The custom properties of a node. -/
def ofNode (path : List String) : Node → Except CompileError CustomProperties
  | .leaf value => declare path value
  | .tree entries =>
    match StyleTree.reference? entries with
    | some value => declare path value
    | none => ofEntries path entries

/-- The custom properties of the entries below the keys `above`. -/
def ofEntries (above : List String) : List (String × Node) → Except CompileError CustomProperties
  | [] => .ok []
  | (key, node) :: rest => do
    let first ← ofNode (above ++ [key]) node
    let others ← ofEntries above rest
    return first ++ others

end

/-- The custom properties of a theme. The group, if one is given, begins every name. -/
def ofTheme (group : Option String) (theme : StyleTree) : Except CompileError CustomProperties :=
  ofEntries group.toList theme

/-- One declaration on each line. -/
def lines (properties : CustomProperties) : String :=
  "\n".intercalate (properties.map fun (name, value) => name ++ ": " ++ value ++ ";")

/-- The custom properties as a rule for a selector, or nothing if there are none. -/
def rule (selector : String) (properties : CustomProperties) : String :=
  if properties.isEmpty then "" else Layout.block selector properties.lines

end CustomProperties

end NestedStyles
