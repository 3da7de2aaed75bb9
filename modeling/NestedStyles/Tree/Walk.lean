import NestedStyles.Text.Lead
import NestedStyles.Tree.Basic

/-!
# Walking a tree

A walk visits every node of a tree that is not below a leaf, children before their parent and
siblings in order, and stops at the first visit that fails. `StyleTree.visits` lists the visits;
`walk_eq_foldlM` says that a walk makes them one after another. `Visit.role` is what a node means
to the compiler.
-/

namespace NestedStyles

/-- A node and the keys that lead to it from the root, its own key last. -/
structure Visit where
  path : List String
  node : Node

/-- What a node means to the compiler. -/
inductive Role where
  /-- An `@layer` key with a text or nothing: the names of layers. -/
  | layerStatement
  /-- An `@layer` key with a block. -/
  | layerBlock
  /-- A `@container` key with a block. -/
  | containerBlock
  /-- The key `@media` at the root: blocks by media expression. -/
  | mediaMap
  /-- A property with its value. -/
  | declaration
  /-- Any other `@` key: the name of a mode or of a media query, or a media query in full. -/
  | reference
  /-- A selector with a block. -/
  | scope
deriving DecidableEq

namespace Visit

/-- The node's own key; the root has none. -/
def key (visit : Visit) : String := visit.path.getLast?.getD ""

/-- The keys above the node. -/
def parents (visit : Visit) : List String := visit.path.dropLast

/-- Some key above the node is that of an at-rule. -/
def inAtRule (visit : Visit) : Bool := visit.parents.any Text.isAtKey

/-- The node's role, the first that fits. -/
def role (visit : Visit) : Role :=
  let layer := Text.beginsWith "@layer" visit.key
  match visit.node with
  | .leaf (.text _) | .leaf .null =>
    if layer then .layerStatement
    else if Text.isAtKey visit.key then .reference else .declaration
  | node =>
    if node.isLeaf then
      if Text.isAtKey visit.key then .reference else .declaration
    else if layer then .layerBlock
    else if Text.beginsWith "@container" visit.key then .containerBlock
    else if visit.path = ["@media"] then .mediaMap
    else if Text.isAtKey visit.key then .reference else .scope

end Visit

namespace StyleTree

universe u v

variable {ε : Type u} {σ : Type v}

mutual

/-- Walks what is below a node and then visits the node. -/
def walkNode (visit : σ → Visit → Except ε σ) (path : List String) (state : σ) :
    Node → Except ε σ
  | .leaf value => visit state ⟨path, .leaf value⟩
  | .tree entries =>
    if (reference? entries).isSome then visit state ⟨path, .tree entries⟩
    else (walkBelow visit path state entries).bind (visit · ⟨path, .tree entries⟩)

/-- Walks the entries below the keys `above`, threading the state through the visits. -/
def walkBelow (visit : σ → Visit → Except ε σ) (above : List String) (state : σ) :
    List (String × Node) → Except ε σ
  | [] => .ok state
  | (key, node) :: rest =>
    (walkNode visit (above ++ [key]) state node).bind (walkBelow visit above · rest)

end

/-- Walks a whole tree. -/
def walk (visit : σ → Visit → Except ε σ) (state : σ) (tree : StyleTree) : Except ε σ :=
  walkBelow visit [] state tree

mutual

/-- The visits to a node and to what is below it. -/
def visitsNode (path : List String) : Node → List Visit
  | .leaf value => [⟨path, .leaf value⟩]
  | .tree entries =>
    if (reference? entries).isSome then [⟨path, .tree entries⟩]
    else visitsBelow path entries ++ [⟨path, .tree entries⟩]

/-- The visits to the entries below the keys `above`. -/
def visitsBelow (above : List String) : List (String × Node) → List Visit
  | [] => []
  | (key, node) :: rest => visitsNode (above ++ [key]) node ++ visitsBelow above rest

end

/-- All visits of a walk that no visit stops, in order. -/
def visits (tree : StyleTree) : List Visit := visitsBelow [] tree

mutual

theorem walkNode_eq_foldlM (visit : σ → Visit → Except ε σ) (path : List String) (state : σ) :
    ∀ node : Node, walkNode visit path state node = (visitsNode path node).foldlM visit state
  | .leaf value => by
    simp only [walkNode, visitsNode, List.foldlM_cons, List.foldlM_nil, bind_pure]
  | .tree entries => by
    rw [walkNode, visitsNode]
    split
    · simp only [List.foldlM_cons, List.foldlM_nil, bind_pure]
    · rw [walkBelow_eq_foldlM visit path state entries, List.foldlM_append]
      simp only [List.foldlM_cons, List.foldlM_nil, bind_pure]
      rfl

theorem walkBelow_eq_foldlM (visit : σ → Visit → Except ε σ) (above : List String) (state : σ) :
    ∀ entries : List (String × Node),
      walkBelow visit above state entries = (visitsBelow above entries).foldlM visit state
  | [] => rfl
  | (key, node) :: rest => by
    rw [walkBelow, visitsBelow, List.foldlM_append, walkNode_eq_foldlM visit (above ++ [key])]
    congr 1
    funext state
    exact walkBelow_eq_foldlM visit above state rest

end

/-- A walk makes its visits one after another and stops at the first that fails. -/
theorem walk_eq_foldlM (visit : σ → Visit → Except ε σ) (state : σ) (tree : StyleTree) :
    walk visit state tree = (visits tree).foldlM visit state :=
  walkBelow_eq_foldlM visit [] state tree

end StyleTree

end NestedStyles
