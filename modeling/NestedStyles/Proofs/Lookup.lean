import NestedStyles.Proofs.Leaves

/-!
# Looking up a path

`StyleTree.node?` is the node at the end of a path that goes down through maps, whether or not one
of them stands for a reference. In a tree with distinct keys every leaf is found at its path
(`StyleTree.node?_of_mem_leaves`), and a value at the end of a path is a leaf if no map above it
stands for a reference (`StyleTree.mem_leaves_of_node?`).
-/

namespace NestedStyles

/-- The keys that lead to a leaf. -/
def Leaf.path (leaf : Leaf) : List String := leaf.parents ++ [leaf.key]

namespace Node

/-- The node at the end of a path that goes down from a node. -/
def down? : List String → Node → Option Node
  | [], node => some node
  | _ :: _, .leaf _ => none
  | key :: path, .tree entries => (Entries.get? key entries).bind (down? path)

/-- A value stands on the way down a path, before its end. -/
def endsAbove : List String → Node → Bool
  | [], _ => false
  | _ :: _, .leaf _ => true
  | key :: path, .tree entries => (Entries.get? key entries).any (endsAbove path)

/-- A map that stands for a reference is on the way down a path, before its end. -/
def refersAbove : List String → Node → Bool
  | [], _ => false
  | _ :: _, .leaf _ => false
  | key :: path, .tree entries =>
    (StyleTree.reference? entries).isSome || (Entries.get? key entries).any (refersAbove path)

theorem down?_nil (node : Node) : down? [] node = some node := by cases node <;> rfl

theorem down?_leaf {path : List String} (hpath : path ≠ []) (value : Value) :
    down? path (.leaf value) = none := by
  cases path with
  | nil => exact absurd rfl hpath
  | cons key path => rfl

end Node

namespace StyleTree

/-- The node at the end of a path. -/
def node? (path : List String) (tree : StyleTree) : Option Node := Node.down? path (.tree tree)

/-- A value stands on the path, before its end. -/
def endsAbove (path : List String) (tree : StyleTree) : Bool := Node.endsAbove path (.tree tree)

/-- A map below the root stands for a reference and is on the path, before its end. -/
def refersAbove : List String → StyleTree → Bool
  | [], _ => false
  | key :: path, tree => (tree.get? key).any (Node.refersAbove path)

theorem nodeRefersAbove_tree {path : List String} (hpath : path ≠ []) (entries : StyleTree) :
    Node.refersAbove path (.tree entries) =
      ((reference? entries).isSome || entries.refersAbove path) := by
  cases path with
  | nil => exact absurd rfl hpath
  | cons key path => rfl

theorem node?_cons (key : String) (path : List String) (tree : StyleTree) :
    node? (key :: path) tree = (tree.get? key).bind (Node.down? path) := rfl

theorem node?_nest (segments path : List String) (block : StyleTree) :
    node? (segments ++ path) (nest segments block) = node? path block := by
  induction segments with
  | nil => rfl
  | cons segment segments ih =>
    rw [List.cons_append, nest_cons, node?_cons, Entries.get?, if_pos rfl]
    exact ih

/-- A condition on all nodes holds of the node at the end of a path. -/
theorem every_of_node? {p : String → Node → Bool} {tree : StyleTree} (h : every p tree = true)
    {path : List String} {key : String} {node : Node}
    (hnode : tree.node? (path ++ [key]) = some node) :
    p key node = true ∧ nodeEvery p node = true := by
  induction path generalizing tree with
  | nil =>
    obtain ⟨next, hnext, hdown⟩ := Option.bind_eq_some_iff.mp hnode
    obtain rfl : next = node := by simpa [Node.down?_nil] using hdown
    exact every_iff.mp h key next (Entries.mem_of_get? hnext)
  | cons k path ih =>
    obtain ⟨next, hnext, hdown⟩ := Option.bind_eq_some_iff.mp hnode
    cases next with
    | leaf value =>
      rw [Node.down?_leaf (by simp)] at hdown
      exact absurd hdown (by simp)
    | tree entries => exact ih (every_iff.mp h k _ (Entries.mem_of_get? hnext)).2 hdown

/-! ## Leaves and paths -/

mutual

theorem down?_of_mem_leavesNode {above : List String} {key : String} {leaf : Leaf} :
    ∀ {node : Node}, node.isDistinct = true →
      nodeEvery (fun _ node => node.isDistinct) node = true → leaf ∈ leavesNode above key node →
      ∃ path found, leaf.path = above ++ key :: path ∧ node.down? path = some found ∧
        found.value? = some leaf.value
  | .leaf value, _, _, h => by
    rw [leavesNode, List.mem_singleton] at h
    subst h
    exact ⟨[], .leaf value, rfl, rfl, rfl⟩
  | .tree entries, hnode, hbelow, h => by
    rw [leavesNode] at h
    split at h
    · next value hvalue =>
      rw [List.mem_singleton] at h
      subst h
      exact ⟨[], .tree entries, rfl, rfl, hvalue⟩
    · obtain ⟨k, path, next, found, hpath, hnext, hfound, hvalue⟩ :=
        exists_of_mem_leavesBelow hbelow h
      refine ⟨k :: path, found, by rw [hpath]; simp, ?_, hvalue⟩
      rw [Node.down?, (Node.isDistinct_tree.mp hnode).get?_of_mem hnext]
      exact hfound

/-- A leaf below some keys stands at the end of the rest of its path. -/
theorem exists_of_mem_leavesBelow {above : List String} {leaf : Leaf} :
    ∀ {entries : List (String × Node)}, every (fun _ node => node.isDistinct) entries = true →
      leaf ∈ leavesBelow above entries →
      ∃ key path node found, leaf.path = above ++ key :: path ∧ (key, node) ∈ entries ∧
        node.down? path = some found ∧ found.value? = some leaf.value
  | [], _, h => by simp [leavesBelow] at h
  | (key, node) :: rest, hevery, h => by
    simp only [every_cons, Bool.and_eq_true] at hevery
    obtain ⟨⟨hnode, hbelow⟩, hrest⟩ := hevery
    rcases List.mem_append.mp h with h | h
    · obtain ⟨path, found, hpath, hfound⟩ := down?_of_mem_leavesNode hnode hbelow h
      exact ⟨key, path, node, found, hpath, List.mem_cons_self, hfound⟩
    · obtain ⟨k, path, next, found, hpath, hnext, hfound⟩ := exists_of_mem_leavesBelow hrest h
      exact ⟨k, path, next, found, hpath, List.mem_cons_of_mem _ hnext, hfound⟩

end

/-- In a tree with distinct keys a leaf is found at its path. -/
theorem node?_of_mem_leaves {tree : StyleTree} (hdistinct : tree.isDistinct = true) {leaf : Leaf}
    (h : leaf ∈ tree.leaves) :
    ∃ node, tree.node? leaf.path = some node ∧ node.value? = some leaf.value := by
  obtain ⟨hroot, hbelow⟩ := isDistinct_iff.mp hdistinct
  obtain ⟨key, path, next, node, hpath, hnext, hnode, hvalue⟩ := exists_of_mem_leavesBelow hbelow h
  refine ⟨node, ?_, hvalue⟩
  rw [hpath, List.nil_append, node?_cons, hroot.get?_of_mem hnext]
  exact hnode

theorem leavesNode_of_value? {above : List String} {key : String} {node : Node} {value : Value}
    (h : node.value? = some value) : leavesNode above key node = [⟨above, key, value⟩] := by
  cases node with
  | leaf other => rw [leavesNode, Option.some.inj h]
  | tree entries =>
    have hvalue : reference? entries = some value := h
    rw [leavesNode, hvalue]

/-- A value at the end of a path below some keys is a leaf, if no map above it stands for a
reference. -/
theorem mem_leavesBelow_of_node? {path above : List String} {key : String} {tree : StyleTree}
    {node : Node} {value : Value} (h : tree.node? (path ++ [key]) = some node)
    (hvalue : node.value? = some value) (hrefers : tree.refersAbove (path ++ [key]) = false) :
    ⟨above ++ path, key, value⟩ ∈ leavesBelow above tree := by
  induction path generalizing above tree with
  | nil =>
    rw [List.nil_append, node?_cons] at h
    obtain ⟨next, hnext, hnode⟩ := Option.bind_eq_some_iff.mp h
    obtain rfl : next = node := by simpa [Node.down?_nil] using hnode
    refine mem_leavesBelow_of_mem (Entries.mem_of_get? hnext) ?_
    rw [leavesNode_of_value? hvalue, List.append_nil]
    exact List.mem_singleton_self _
  | cons k path ih =>
    rw [List.cons_append, node?_cons] at h
    obtain ⟨next, hnext, hnode⟩ := Option.bind_eq_some_iff.mp h
    rw [List.cons_append, refersAbove, hnext, Option.any_some] at hrefers
    refine mem_leavesBelow_of_mem (Entries.mem_of_get? hnext) ?_
    have hpath : path ++ [key] ≠ [] := by simp
    cases next with
    | leaf other =>
      rw [Node.down?_leaf hpath] at hnode
      exact absurd hnode (by simp)
    | tree entries =>
      rw [nodeRefersAbove_tree hpath, Bool.or_eq_false_iff, Option.isSome_eq_false_iff,
        Option.isNone_iff_eq_none] at hrefers
      rw [leavesNode_of_block hrefers.1]
      have hleaf : ⟨above ++ [k] ++ path, key, value⟩ ∈ leavesBelow (above ++ [k]) entries :=
        ih hnode hrefers.2
      rwa [List.append_assoc] at hleaf

/-- A value at the end of a path is a leaf, if no map above it stands for a reference. -/
theorem mem_leaves_of_node? {tree : StyleTree} {leaf : Leaf} {node : Node}
    (h : tree.node? leaf.path = some node) (hvalue : node.value? = some leaf.value)
    (hrefers : tree.refersAbove leaf.path = false) : leaf ∈ tree.leaves :=
  @mem_leavesBelow_of_node? leaf.parents [] leaf.key tree node leaf.value h hvalue hrefers

end StyleTree

/-! ## Trees without maps that stand for references -/

/-- The node is no map that stands for a reference. A reader gives references as values. -/
def Node.isRead : Node → Bool
  | .leaf _ => true
  | .tree entries => (StyleTree.reference? entries).isNone

namespace StyleTree

/-- All references in the tree are given as values. -/
def isRead (tree : StyleTree) : Bool := every (fun _ node => node.isRead) tree

theorem refersAbove_of_isRead {tree : StyleTree} (h : tree.isRead = true) (path : List String) :
    tree.refersAbove path = false := by
  have hnode : ∀ (path : List String) (node : Node), node.isRead = true →
      nodeEvery (fun _ node => node.isRead) node = true → node.refersAbove path = false := by
    intro path
    induction path with
    | nil =>
      intro node _ _
      cases node <;> rfl
    | cons key path ih =>
      intro node hself hbelow
      cases node with
      | leaf value => rfl
      | tree entries =>
        have hnone : (reference? entries).isSome = false := Option.isSome_eq_false_iff.mpr hself
        rw [Node.refersAbove, hnone, Bool.false_or, Option.any_eq_false]
        intro next hnext
        obtain ⟨hnextself, hnextbelow⟩ :=
          every_iff.mp hbelow key next (Entries.mem_of_get? hnext)
        exact ih next hnextself hnextbelow
  cases path with
  | nil => rfl
  | cons key path =>
    rw [refersAbove, Option.any_eq_false]
    intro next hnext
    obtain ⟨hself, hbelow⟩ := every_iff.mp h key next (Entries.mem_of_get? hnext)
    exact hnode path next hself hbelow

/-- A value in such a tree is given as one. -/
theorem node?_eq_leaf {tree : StyleTree} (h : tree.isRead = true) {path : List String}
    {key : String} {node : Node} {value : Value} (hnode : tree.node? (path ++ [key]) = some node)
    (hvalue : node.value? = some value) : node = .leaf value := by
  obtain ⟨hself, -⟩ := every_of_node? h hnode
  cases node with
  | leaf other => exact congrArg Node.leaf (Option.some.inj hvalue)
  | tree entries =>
    have hsome : reference? entries = some value := hvalue
    rw [Node.isRead, hsome] at hself
    exact absurd hself (by simp)

end StyleTree

end NestedStyles
