import NestedStyles.Json.Shape
import NestedStyles.Tree.Basic

/-!
# Style trees in JSON

A style tree is an object. Strings, numbers, truth values and null are values, and so is a list of
strings and numbers. An object below the top is a tree, or a reference to a custom property if it
has the form of one.
-/

namespace NestedStyles

namespace StyleTree

/-- How many lists and objects may stand inside each other. -/
def maxNesting : Nat := 127

/-- What may be read inside a list or object when `room` more of them may be open. -/
def enter {α : Type} (room : Nat) (inside : Nat → Except Json.Fault α) : Except Json.Fault α :=
  match room with
  | 0 => .error .malformed
  | room + 1 => inside room

/-- The value expected in a list. -/
def itemExpected : String := "a string or a number inside a value array"

/-- An item of a list value. -/
def readItem (room : Nat) : Json → Except Json.Fault Item
  | .text (some s) => .ok (.text s)
  | .number (some n) => .ok (.number n.number)
  | .list items => enter room fun _ => (Json.list items).mismatch itemExpected
  | .object members => enter room fun _ => (Json.object members).mismatch itemExpected
  | value => value.mismatch itemExpected

mutual

/-- A node of a tree. -/
def readNode (room : Nat) : Json → Except Json.Fault Node
  | .null => .ok (.leaf .null)
  | .bool b => .ok (.leaf (.bool b))
  | .number (some n) => .ok (.leaf (.number n.number))
  | .number none => .error .malformed
  | .text (some s) => .ok (.leaf (.text s))
  | .text none => .error .malformed
  | .list items =>
    enter room fun room => (items.mapM (readItem room)).map (.leaf <| .list ·)
  | .object members =>
    enter room fun room => (readMembers room [] members).map fun tree =>
      match reference? tree with
      | some value => .leaf value
      | none => .tree tree
  | .broken => .error .malformed

/-- The members of an object, written over the tree that was read before them. -/
def readMembers (room : Nat) (before : StyleTree) :
    List (Option String × Json) → Except Json.Fault StyleTree
  | [] => .ok before
  | (name, value) :: rest => do
    let name ← Json.nameOf name
    let node ← readNode room value
    readMembers room (before.insert name node) rest

end

/-- A style tree. -/
def ofJson : Json → Except Json.Fault StyleTree
  | .object members => enter maxNesting fun room => readMembers room [] members
  | value => value.mismatch "a map"

/-- Reads the text of a style tree. -/
def ofText (text : String) : Except Json.Fault StyleTree := Json.Document.read ofJson text

end StyleTree

end NestedStyles
