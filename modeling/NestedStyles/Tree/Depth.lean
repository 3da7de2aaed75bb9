import NestedStyles.Text.Lead
import NestedStyles.Tree.Basic

/-!
# At-rules along a path

The depth of a tree is the largest number of `@` keys on a path from its root.
-/

namespace NestedStyles

namespace StyleTree

mutual

/-- The largest number of `@` keys on a path down from a node. -/
def nodeAtDepth : Node → Nat
  | .leaf _ => 0
  | .tree entries => atDepth entries

/-- The largest number of `@` keys on a path from the root of a tree. -/
def atDepth : StyleTree → Nat
  | [] => 0
  | (key, node) :: rest =>
    max ((if Text.isAtKey key then 1 else 0) + nodeAtDepth node) (atDepth rest)

end

end StyleTree

end NestedStyles
