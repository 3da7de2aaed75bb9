import NestedStyles.Tree.Basic

/-!
# Nesting and merging trees

`StyleTree.nest` wraps a block in scopes, and `StyleTree.merge` writes one tree over another: two
trees at one key are merged, and otherwise the later node takes the place of the earlier one.
-/

namespace NestedStyles

namespace StyleTree

/-- The block below the given keys, the first key outermost. -/
def nest (segments : List String) (block : StyleTree) : StyleTree :=
  segments.foldr (fun segment inner => [(segment, .tree inner)]) block

@[simp] theorem nest_nil (block : StyleTree) : nest [] block = block := rfl

@[simp] theorem nest_cons (segment : String) (segments : List String) (block : StyleTree) :
    nest (segment :: segments) block = [(segment, .tree (nest segments block))] := rfl

theorem nest_append (outer inner : List String) (block : StyleTree) :
    nest (outer ++ inner) block = nest outer (nest inner block) := by
  simp [nest, List.foldr_append]

mutual

/-- What stands at a key after `new` is written where `old` stood. -/
def mergeNode (old : Option Node) : Node → Node
  | .leaf value => .leaf value
  | .tree entries =>
    match old with
    | some (.tree existing) => .tree (merge existing entries)
    | _ => .tree entries

/-- `target` with the entries of the second tree written over it, one after another. -/
def merge (target : StyleTree) : StyleTree → StyleTree
  | [] => target
  | (key, node) :: rest => merge (target.upsert key fun old => mergeNode old node) rest

end

end StyleTree

end NestedStyles
