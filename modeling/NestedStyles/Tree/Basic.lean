import NestedStyles.Entries
import NestedStyles.Number.Basic

/-!
# Style trees

A style tree maps keys to values and to trees below them. A key names a selector, a property or an
at-rule, and the order of the keys is the order of the document.

A reference to a custom property is a value. It may also be given as a tree that holds a text `var`
and at most a text `name`; such a tree is a leaf as well. `Node.value?` reads the value of a leaf in
either form and `Node.block?` the entries of a node that is no leaf: a node has the one or the
other.
-/

namespace NestedStyles

/-- An item of a list value. -/
inductive Item where
  | text (s : String)
  | number (n : Number)
deriving DecidableEq

/-- The value of a declaration. -/
inductive Value where
  | text (s : String)
  | number (n : Number)
  | bool (b : Bool)
  | null
  /-- Items that a space separates. -/
  | list (items : List Item)
  /-- A reference to a custom property, written as it is given. -/
  | reference (css : String) (name : Option String)
deriving DecidableEq

/-- A value or a tree below a key. -/
inductive Node where
  | leaf (value : Value)
  | tree (entries : List (String × Node))

/-- Keys with values and trees, in the order of the document. -/
abbrev StyleTree := Entries Node

/-- The number of an item that is neither finite nor a text. -/
def Item.nonFinite? : Item → Option Number
  | .number n => if n.isFinite then none else some n
  | .text _ => none

/-- The first number in a value that is not finite. -/
def Value.nonFinite? : Value → Option Number
  | .number n => (Item.number n).nonFinite?
  | .list items => items.findSome? Item.nonFinite?
  | _ => none

/-- The reference to a custom property that a tree stands for: a text `var`, at most a text `name`
and nothing else. -/
def StyleTree.reference? (tree : StyleTree) : Option Value :=
  match tree.get? "var", tree.get? "name" with
  | some (.leaf (.text css)), none =>
    if tree.keys.all (· == "var") then some (.reference css none) else none
  | some (.leaf (.text css)), some (.leaf (.text name)) =>
    if tree.keys.all fun key => key == "var" || key == "name" then
      some (.reference css (some name))
    else none
  | _, _ => none

namespace Node

/-- The value of a leaf, a tree that stands for a reference being one. -/
def value? : Node → Option Value
  | .leaf value => some value
  | .tree entries => StyleTree.reference? entries

/-- A leaf has nothing below it. -/
def isLeaf (node : Node) : Bool := node.value?.isSome

/-- The entries of a node that is no leaf. -/
def block? : Node → Option StyleTree
  | .leaf _ => none
  | .tree entries => if (StyleTree.reference? entries).isSome then none else some entries

/-- The entries below a node, whether or not it is a leaf. -/
def entries : Node → StyleTree
  | .leaf _ => []
  | .tree entries => entries

/-- A node is a leaf or has a block. -/
theorem block?_eq_none_iff (node : Node) : node.block? = none ↔ node.isLeaf = true := by
  cases node with
  | leaf value => simp [block?, isLeaf, value?]
  | tree entries => cases h : StyleTree.reference? entries <;> simp [block?, isLeaf, value?, h]

end Node

end NestedStyles
