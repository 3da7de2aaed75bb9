import NestedStyles.Collected
import NestedStyles.Proofs.Declared

/-!
# Leaves of a tree

The leaves of a tree in document order, each with the keys above it, and the declarations that they
stand for. A tree without `@` keys holds nothing else: its walk declares its leaves one after
another (`collect_eq_foldlM_leaves`), and if its numbers are finite, it collects to exactly the
declarations of its leaves (`collect_plain`).
-/

namespace NestedStyles

/-! ## Conditions on all nodes of a tree -/

/-- A node holds no number of its own that is not finite. -/
def Node.isFinite : Node → Bool
  | .leaf value => value.nonFinite?.isNone
  | .tree _ => true

/-- No key stands twice in the map at a node. -/
def Node.isDistinct : Node → Bool
  | .leaf _ => true
  | .tree entries => decide (Entries.keys entries).Nodup

theorem Node.isDistinct_tree {entries : StyleTree} :
    (Node.tree entries).isDistinct = true ↔ entries.Distinct := decide_eq_true_iff

namespace StyleTree

mutual

/-- The condition holds everywhere below a node. -/
def nodeEvery (p : String → Node → Bool) : Node → Bool
  | .leaf _ => true
  | .tree entries => every p entries

/-- The condition holds of every key of a tree and the node at it, at any depth. -/
def every (p : String → Node → Bool) : List (String × Node) → Bool
  | [] => true
  | (key, node) :: rest => p key node && nodeEvery p node && every p rest

end

/-- No key of an at-rule stands in the tree. -/
def isPlain (tree : StyleTree) : Bool := every (fun key _ => !Text.isAtKey key) tree

/-- All numbers in the tree are finite. -/
def isFinite (tree : StyleTree) : Bool := every (fun _ node => node.isFinite) tree

/-- No map in the tree, nor the tree itself, holds a key twice. -/
def isDistinct (tree : StyleTree) : Bool :=
  decide tree.keys.Nodup && every (fun _ node => node.isDistinct) tree

theorem isDistinct_iff {tree : StyleTree} : tree.isDistinct = true ↔
    tree.Distinct ∧ every (fun _ node => node.isDistinct) tree = true := by
  rw [isDistinct, Bool.and_eq_true, decide_eq_true_iff]
  rfl

theorem every_cons (p : String → Node → Bool) (key : String) (node : Node)
    (rest : List (String × Node)) :
    every p ((key, node) :: rest) = (p key node && nodeEvery p node && every p rest) := by
  rw [every]

/-- A condition holds everywhere exactly if it holds at and below every entry. -/
theorem every_iff {p : String → Node → Bool} {entries : List (String × Node)} :
    every p entries = true ↔
      ∀ key node, (key, node) ∈ entries → p key node = true ∧ nodeEvery p node = true := by
  induction entries with
  | nil => simp [every]
  | cons entry rest ih =>
    obtain ⟨key, node⟩ := entry
    simp only [every_cons, Bool.and_eq_true, ih, List.mem_cons]
    constructor
    · rintro ⟨h, hrest⟩ k n (hk | hk)
      · obtain ⟨rfl, rfl⟩ := Prod.mk.inj hk
        exact h
      · exact hrest k n hk
    · intro h
      exact ⟨h key node (Or.inl rfl), fun k n hk => h k n (Or.inr hk)⟩

/-- What holds everywhere below a node holds at and below its entries. -/
theorem nodeEvery_of_mem_entries {p : String → Node → Bool} {node : Node}
    (h : nodeEvery p node = true) {entry : String × Node} (hentry : entry ∈ node.entries) :
    p entry.1 entry.2 = true ∧ nodeEvery p entry.2 = true := by
  cases node with
  | leaf value => exact absurd hentry (by simp [Node.entries])
  | tree entries => exact every_iff.mp h entry.1 entry.2 hentry

mutual

theorem nodeEvery_imp {p q : String → Node → Bool}
    (hpq : ∀ key node, p key node = true → q key node = true) : ∀ {node : Node},
    nodeEvery p node = true → nodeEvery q node = true
  | .leaf _, _ => rfl
  | .tree _, h => every_imp hpq h

/-- What a condition implies holds everywhere that the condition does. -/
theorem every_imp {p q : String → Node → Bool}
    (hpq : ∀ key node, p key node = true → q key node = true) : ∀ {entries : List (String × Node)},
    every p entries = true → every q entries = true
  | [], _ => rfl
  | (key, node) :: rest, h => by
    rw [every_cons, Bool.and_eq_true, Bool.and_eq_true] at h
    rw [every_cons, hpq key node h.1.1, nodeEvery_imp hpq h.1.2, every_imp hpq h.2]
    rfl

end

mutual

theorem nodeEvery_and {p q : String → Node → Bool} : ∀ {node : Node},
    nodeEvery p node = true → nodeEvery q node = true →
      nodeEvery (fun key node => p key node && q key node) node = true
  | .leaf _, _, _ => rfl
  | .tree _, h, h' => every_and h h'

/-- Two conditions that hold everywhere hold together everywhere. -/
theorem every_and {p q : String → Node → Bool} : ∀ {entries : List (String × Node)},
    every p entries = true → every q entries = true →
      every (fun key node => p key node && q key node) entries = true
  | [], _, _ => rfl
  | (key, node) :: rest, h, h' => by
    rw [every_cons, Bool.and_eq_true, Bool.and_eq_true] at h h'
    rw [every_cons, h.1.1, h'.1.1, nodeEvery_and h.1.2 h'.1.2, every_and h.2 h'.2]
    rfl

end

end StyleTree

/-! ## Leaves and their declarations -/

/-- A value and where it stands. -/
structure Leaf where
  /-- The keys above it. -/
  parents : List String
  key : String
  value : Value

namespace Leaf

/-- The CSS property that the leaf sets. -/
def property (leaf : Leaf) : String := Property.name leaf.key

/-- The declarations of a leaf: one for each selector of the keys above it, if its value is
written. -/
def declared (leaf : Leaf) : List Declared :=
  match leaf.value.written? leaf.property with
  | none => []
  | some css => (Selector.ofPath leaf.parents).map fun s => ⟨s, leaf.property, css⟩

theorem mem_declared {leaf : Leaf} {d : Declared} : d ∈ leaf.declared ↔
    leaf.value.written? leaf.property = some d.value ∧ d.property = leaf.property ∧
      d.selector ∈ Selector.ofPath leaf.parents := by
  obtain ⟨s, p, css⟩ := d
  unfold declared
  cases leaf.value.written? leaf.property with
  | none => simp
  | some value =>
    simp only [List.mem_map, Option.some.injEq, Declared.mk.injEq]
    constructor
    · rintro ⟨t, ht, rfl, rfl, rfl⟩
      exact ⟨rfl, rfl, ht⟩
    · rintro ⟨rfl, rfl, hs⟩
      exact ⟨s, hs, rfl, rfl, rfl⟩

/-- A leaf whose value is written declares its property for every selector of the keys above it. -/
theorem exists_mem_declared {leaf : Leaf}
    (hwritten : (leaf.value.written? leaf.property).isSome = true) {s : String}
    (hs : s ∈ Selector.ofPath leaf.parents) : ∃ css, ⟨s, leaf.property, css⟩ ∈ leaf.declared := by
  obtain ⟨css, hcss⟩ := Option.isSome_iff_exists.mp hwritten
  exact ⟨css, mem_declared.mpr ⟨hcss, rfl, hs⟩⟩

end Leaf

namespace StyleTree

mutual

/-- The leaves at or below a node with this key. -/
def leavesNode (above : List String) (key : String) : Node → List Leaf
  | .leaf value => [⟨above, key, value⟩]
  | .tree entries =>
    match reference? entries with
    | some value => [⟨above, key, value⟩]
    | none => leavesBelow (above ++ [key]) entries

/-- The leaves of the entries below the keys `above`. -/
def leavesBelow (above : List String) : List (String × Node) → List Leaf
  | [] => []
  | (key, node) :: rest => leavesNode above key node ++ leavesBelow above rest

end

theorem leavesNode_of_block {above : List String} {key : String} {entries : StyleTree}
    (h : reference? entries = none) :
    leavesNode above key (.tree entries) = leavesBelow (above ++ [key]) entries := by
  rw [leavesNode, h]

theorem visitsNode_of_block {path : List String} {entries : StyleTree}
    (h : reference? entries = none) :
    visitsNode path (.tree entries) = visitsBelow path entries ++ [⟨path, .tree entries⟩] := by
  rw [visitsNode, h, if_neg (by simp)]

theorem leavesBelow_append (above : List String) (front back : StyleTree) :
    leavesBelow above (front ++ back) = leavesBelow above front ++ leavesBelow above back := by
  induction front with
  | nil => rfl
  | cons entry front ih => rw [List.cons_append, leavesBelow, ih, leavesBelow, List.append_assoc]

/-- The leaves of a node of the tree are leaves of the tree. -/
theorem mem_leavesBelow_of_mem {above : List String} {key : String} {node : Node} {leaf : Leaf}
    {entries : StyleTree} (hmem : (key, node) ∈ entries) (h : leaf ∈ leavesNode above key node) :
    leaf ∈ leavesBelow above entries := by
  obtain ⟨front, back, rfl⟩ := List.append_of_mem hmem
  rw [leavesBelow_append, leavesBelow]
  exact List.mem_append_right _ (List.mem_append_left _ h)

/-- The leaves of a tree in the order of the document. -/
def leaves (tree : StyleTree) : List Leaf := leavesBelow [] tree

/-- The declarations of a tree in the order of the document. -/
def declared (tree : StyleTree) : List Declared := tree.leaves.flatMap Leaf.declared

/-- A tree stands for a reference exactly if it has a text `var`, at most a text `name` and nothing
else. -/
theorem reference?_eq_some_iff {entries : StyleTree} {value : Value} :
    reference? entries = some value ↔ ∃ css name, value = .reference css name ∧
      entries.get? "var" = some (.leaf (.text css)) ∧
      entries.get? "name" = name.map (fun text => .leaf (.text text)) ∧
      ∀ key ∈ entries.keys, key = "var" ∨ key = "name" := by
  constructor
  · intro h
    unfold reference? at h
    split at h
    · next css hvar hname =>
      split at h
      · next hkeys =>
        exact ⟨css, none, (Option.some.inj h).symm, hvar, hname, fun key hkey =>
          Or.inl (beq_iff_eq.mp (List.all_eq_true.mp hkeys key hkey))⟩
      · simp at h
    · next css name hvar hname =>
      split at h
      · next hkeys =>
        exact ⟨css, some name, (Option.some.inj h).symm, hvar, hname, fun key hkey => by
          simpa using List.all_eq_true.mp hkeys key hkey⟩
      · simp at h
    · simp at h
  · rintro ⟨css, name, rfl, hvar, hname, hkeys⟩
    rw [reference?, hvar, hname]
    cases name with
    | none =>
      refine if_pos (List.all_eq_true.mpr fun key hkey => beq_iff_eq.mpr ?_)
      refine (hkeys key hkey).resolve_right fun heq => ?_
      exact Entries.get?_eq_none_iff.mp hname (heq ▸ hkey)
    | some name => exact if_pos (List.all_eq_true.mpr fun key hkey => by simpa using hkeys key hkey)

/-- A reference to a custom property is the only value that a tree can stand for. -/
theorem eq_reference_of_reference? {entries : StyleTree} {value : Value}
    (h : reference? entries = some value) : ∃ css name, value = .reference css name := by
  obtain ⟨css, name, hvalue, -⟩ := reference?_eq_some_iff.mp h
  exact ⟨css, name, hvalue⟩

/-- A reference that a map stands for is the text at `var`. -/
theorem get?_var_of_reference? {entries : StyleTree} {css : String} {name : Option String}
    (h : reference? entries = some (.reference css name)) :
    entries.get? "var" = some (.leaf (.text css)) := by
  obtain ⟨css, name, hvalue, hvar, -⟩ := reference?_eq_some_iff.mp h
  obtain ⟨rfl, rfl⟩ := Value.reference.inj hvalue
  exact hvar

/-- A tree that stands for a reference holds nothing but texts, at `var` and `name`. -/
theorem of_mem_of_reference? {entries : StyleTree} (hdistinct : entries.Distinct) {value : Value}
    (h : reference? entries = some value) {key : String} {node : Node}
    (hmem : (key, node) ∈ entries) :
    (key = "var" ∨ key = "name") ∧ ∃ text, node = .leaf (.text text) := by
  have hnode : entries.get? key = some node := hdistinct.get?_of_mem hmem
  obtain ⟨css, name, -, hvar, hname, hkeys⟩ := reference?_eq_some_iff.mp h
  have hkey := hkeys key (List.mem_map.mpr ⟨_, hmem, rfl⟩)
  refine ⟨hkey, ?_⟩
  rcases hkey with rfl | rfl
  · exact ⟨css, Option.some.inj (hnode.symm.trans hvar)⟩
  · obtain ⟨text, -, htext⟩ := Option.map_eq_some_iff.mp (hname.symm.trans hnode)
    exact ⟨text, htext.symm⟩

/-- A tree with a tree in it stands for no reference. -/
theorem reference?_eq_none_of_mem {entries : StyleTree} (hdistinct : entries.Distinct)
    {key : String} {inner : StyleTree} (hmem : (key, .tree inner) ∈ entries) :
    reference? entries = none := by
  cases h : reference? entries with
  | none => rfl
  | some value =>
    obtain ⟨-, text, htext⟩ := of_mem_of_reference? hdistinct h hmem
    exact Node.noConfusion htext

/-- A scope that stands alone makes no reference, whatever its key is. -/
theorem reference?_singleton (key : String) (inner : StyleTree) :
    reference? [(key, .tree inner)] = none :=
  reference?_eq_none_of_mem (by simp [Entries.Distinct]) List.mem_cons_self

/-- No at-rule stands in a tree that stands for a reference. -/
theorem isPlain_of_reference? {entries : StyleTree} (hdistinct : entries.Distinct) {value : Value}
    (h : reference? entries = some value) : entries.isPlain = true := by
  refine every_iff.mpr fun key node hmem => ?_
  obtain ⟨hkey, text, rfl⟩ := of_mem_of_reference? hdistinct h hmem
  refine ⟨?_, rfl⟩
  rcases hkey with rfl | rfl <;> decide

theorem reference?_nest {block : StyleTree} (h : reference? block = none) (above : List String) :
    reference? (nest above block) = none := by
  cases above with
  | nil => exact h
  | cons k above => exact reference?_singleton k (nest above block)

theorem distinct_nest {block : StyleTree} (h : block.Distinct) (above : List String) :
    (nest above block).Distinct := by
  cases above with
  | nil => exact h
  | cons k above => simp [Entries.Distinct]

/-- A condition holds everywhere in a nested block if it does in the block and at the keys above. -/
theorem every_nest {p : String → Node → Bool} {segments : List String} {block : StyleTree}
    (hsegments : ∀ key ∈ segments, ∀ back, p key (.tree (nest back block)) = true)
    (hblock : every p block = true) : every p (nest segments block) = true := by
  induction segments with
  | nil => exact hblock
  | cons segment segments ih =>
    have hinner := ih fun key hkey => hsegments key (by simp [hkey])
    rw [nest_cons, every_cons, hsegments segment (by simp), nodeEvery, hinner]
    rfl

theorem isDistinct_nest (segments : List String) {block : StyleTree} (h : block.isDistinct = true) :
    (nest segments block).isDistinct = true := by
  obtain ⟨hroot, hbelow⟩ := isDistinct_iff.mp h
  refine isDistinct_iff.mpr ⟨distinct_nest hroot _, every_nest (fun _ _ back => ?_) hbelow⟩
  exact Node.isDistinct_tree.mpr (distinct_nest hroot back)

theorem isPlain_nest {segments : List String} (hsegments : segments.any Text.isAtKey = false)
    {block : StyleTree} (h : block.isPlain = true) : (nest segments block).isPlain = true := by
  refine every_nest (fun key hkey _ => ?_) h
  rw [Bool.not_eq_true', ← Bool.not_eq_true]
  exact List.any_eq_false.mp hsegments key hkey

theorem isFinite_nest (segments : List String) {block : StyleTree} (h : block.isFinite = true) :
    (nest segments block).isFinite = true :=
  every_nest (fun _ _ _ => rfl) h

end StyleTree

/-! ## Nodes that are blocks -/

namespace Node

variable {entries : StyleTree} (h : StyleTree.reference? entries = none)

include h

theorem block?_of_block : (tree entries).block? = some entries := by simp [block?, h]

theorem isLeaf_of_block : (tree entries).isLeaf = false := by simp [isLeaf, value?, h]

omit h

theorem eq_tree_of_block? {node : Node} {block : StyleTree} (hblock : node.block? = some block) :
    node = .tree block := by
  cases node with
  | leaf value => exact absurd hblock (by simp [block?])
  | tree entries =>
    rw [block?] at hblock
    split at hblock
    · simp at hblock
    · rw [Option.some.inj hblock]

/-- The block of a node with distinct keys. -/
theorem block_of_block? {node : Node} (hnode : node.isDistinct = true)
    (hbelow : StyleTree.nodeEvery (fun _ node => node.isDistinct) node = true) :
    (node.block?.getD []).isDistinct = true ∧
      StyleTree.reference? (node.block?.getD []) = none := by
  cases node with
  | leaf value => exact ⟨rfl, rfl⟩
  | tree entries =>
    rw [Node.block?]
    split
    · exact ⟨rfl, rfl⟩
    · next h =>
      rw [Bool.not_eq_true, Option.isSome_eq_false_iff, Option.isNone_iff_eq_none] at h
      exact ⟨StyleTree.isDistinct_iff.mpr ⟨Node.isDistinct_tree.mp hnode, hbelow⟩, h⟩

end Node

/-! ## Roles of plain nodes -/

/-- A key that begins with the key of an at-rule is one. -/
theorem Text.isAtKey_of_beginsWith {lead key : String} (hlead : isAtKey lead = true)
    (h : beginsWith lead key = true) : isAtKey key = true := by
  simp only [isAtKey, beginsWith, List.isPrefixOf_iff_prefix] at *
  exact hlead.trans h

namespace Visit

@[simp] theorem key_mk (above : List String) (key : String) (node : Node) :
    (Visit.mk (above ++ [key]) node).key = key := by
  simp [Visit.key]

@[simp] theorem parents_mk (above : List String) (key : String) (node : Node) :
    (Visit.mk (above ++ [key]) node).parents = above := by
  simp [parents]

@[simp] theorem inAtRule_mk (above : List String) (key : String) (node : Node) :
    (Visit.mk (above ++ [key]) node).inAtRule = above.any Text.isAtKey := by
  simp [inAtRule]

variable (above : List String) {key : String}

theorem not_beginsWith_of_plain (hkey : Text.isAtKey key = false) :
    Text.beginsWith "@layer" key = false ∧ Text.beginsWith "@container" key = false := by
  have h (lead : String) (hlead : Text.isAtKey lead = true) : Text.beginsWith lead key = false :=
    Bool.eq_false_iff.mpr fun hb =>
      Bool.eq_false_iff.mp hkey (Text.isAtKey_of_beginsWith hlead hb)
  exact ⟨h _ (by decide), h _ (by decide)⟩

/-- A leaf at a key that is no at-rule's is a declaration. -/
theorem role_of_leaf (hkey : Text.isAtKey key = false) {node : Node} (hnode : node.isLeaf = true) :
    (Visit.mk (above ++ [key]) node).role = .declaration := by
  obtain ⟨hlayer, -⟩ := not_beginsWith_of_plain hkey
  unfold role
  simp only [key_mk, hlayer, hkey]
  split
  · rfl
  · rfl
  · simp [hnode]

/-- A block at a key that is no at-rule's is the scope of a selector. -/
theorem role_of_block (hkey : Text.isAtKey key = false) {entries : StyleTree}
    (hnode : StyleTree.reference? entries = none) :
    (Visit.mk (above ++ [key]) (.tree entries)).role = .scope := by
  obtain ⟨hlayer, hcontainer⟩ := not_beginsWith_of_plain hkey
  have hleaf : (Node.tree entries).isLeaf = false := Node.isLeaf_of_block hnode
  have hmedia : above ++ [key] ≠ ["@media"] := by
    intro h
    have hk : key = "@media" := by simpa using congrArg List.getLast? h
    rw [hk] at hkey
    exact absurd hkey (by decide)
  simp [role, hlayer, hcontainer, hleaf, hkey, hmedia]

end Visit

/-! ## The walk of a plain tree -/

namespace Collected

/-- Declares a leaf under every selector of the keys above it. -/
def declareLeaf (scope : List String) (found : Collected) (leaf : Leaf) :
    Except CompileError Collected :=
  found.declare scope ⟨leaf.parents ++ [leaf.key], .leaf leaf.value⟩ leaf.value

variable {above : List String} {key : String} (options : Options) (scope : List String)
  (found : Collected)

theorem visit_leaf (habove : above.any Text.isAtKey = false) (hkey : Text.isAtKey key = false)
    {node : Node} {value : Value} (hvalue : node.value? = some value) :
    Collected.visit options scope found ⟨above ++ [key], node⟩ =
      found.declareLeaf scope ⟨above, key, value⟩ := by
  have hleaf : node.isLeaf = true := by simp [Node.isLeaf, hvalue]
  have hrole := Visit.role_of_leaf above hkey hleaf
  simp [Collected.visit, habove, hrole, hvalue, declareLeaf, declare]

theorem visit_scope (habove : above.any Text.isAtKey = false) (hkey : Text.isAtKey key = false)
    {entries : StyleTree} (hnode : StyleTree.reference? entries = none) :
    Collected.visit options scope found ⟨above ++ [key], .tree entries⟩ = .ok found := by
  have hrole := Visit.role_of_block above hkey hnode
  simp [Collected.visit, habove, hrole]

end Collected

namespace StyleTree

variable (options : Options) (scope : List String)

mutual

theorem foldlM_visitsNode {above : List String} {key : String}
    (habove : above.any Text.isAtKey = false) (hkey : Text.isAtKey key = false)
    (found : Collected) : ∀ {node : Node}, nodeEvery (fun key _ => !Text.isAtKey key) node = true →
      (visitsNode (above ++ [key]) node).foldlM (Collected.visit options scope) found =
        (leavesNode above key node).foldlM (Collected.declareLeaf scope) found
  | .leaf value, _ => by
    rw [visitsNode, leavesNode, List.foldlM_cons, List.foldlM_cons,
      Collected.visit_leaf options scope found habove hkey rfl]
    rfl
  | .tree entries, h => by
    rw [visitsNode, leavesNode]
    cases hnode : reference? entries with
    | some value =>
      rw [if_pos Option.isSome_some, List.foldlM_cons, List.foldlM_cons,
        Collected.visit_leaf options scope found habove hkey (by simpa [Node.value?] using hnode)]
      rfl
    | none =>
      have hbelow : (above ++ [key]).any Text.isAtKey = false := by simp [habove, hkey]
      rw [if_neg (by simp), List.foldlM_append, foldlM_visitsBelow hbelow found h]
      simp only [List.foldlM_cons, List.foldlM_nil,
        Collected.visit_scope options scope _ habove hkey hnode]
      exact bind_pure _

/-- Below keys that are no at-rule's, a walk of plain entries declares their leaves. -/
theorem foldlM_visitsBelow {above : List String} (habove : above.any Text.isAtKey = false)
    (found : Collected) : ∀ {entries : List (String × Node)},
      every (fun key _ => !Text.isAtKey key) entries = true →
      (visitsBelow above entries).foldlM (Collected.visit options scope) found =
        (leavesBelow above entries).foldlM (Collected.declareLeaf scope) found
  | [], _ => rfl
  | (key, node) :: rest, h => by
    simp only [every, Bool.and_eq_true, Bool.not_eq_true'] at h
    obtain ⟨⟨hkey, hnode⟩, hrest⟩ := h
    rw [visitsBelow, leavesBelow, List.foldlM_append, List.foldlM_append,
      foldlM_visitsNode habove hkey found hnode]
    congr 1
    funext found
    exact foldlM_visitsBelow habove found hrest

end

/-- The walk of a plain tree declares its leaves in order and does nothing else. -/
theorem collect_eq_foldlM_leaves {tree : StyleTree} (hplain : tree.isPlain = true) :
    tree.collect options scope = tree.leaves.foldlM (Collected.declareLeaf scope) .empty := by
  rw [collect, walk_eq_foldlM]
  exact foldlM_visitsBelow options scope rfl .empty hplain

end StyleTree

/-! ## Plain trees with finite numbers -/

namespace StyleTree

mutual

theorem nonFinite?_of_mem_leavesNode {above : List String} {key : String} {leaf : Leaf} :
    ∀ {node : Node}, node.isFinite = true → nodeEvery (fun _ node => node.isFinite) node = true →
      leaf ∈ leavesNode above key node → leaf.value.nonFinite? = none
  | .leaf value, hnode, _, h => by
    rw [leavesNode, List.mem_singleton] at h
    subst h
    simpa [Node.isFinite] using hnode
  | .tree entries, _, hbelow, h => by
    rw [leavesNode] at h
    split at h
    · next value hvalue =>
      obtain ⟨css, name, rfl⟩ := eq_reference_of_reference? hvalue
      rw [List.mem_singleton] at h
      subst h
      rfl
    · exact nonFinite?_of_mem_leavesBelow hbelow h

/-- The leaves of a tree with finite numbers hold no other number. -/
theorem nonFinite?_of_mem_leavesBelow {above : List String} {leaf : Leaf} :
    ∀ {entries : List (String × Node)}, every (fun _ node => node.isFinite) entries = true →
      leaf ∈ leavesBelow above entries → leaf.value.nonFinite? = none
  | [], _, h => by simp [leavesBelow] at h
  | (key, node) :: rest, hfinite, h => by
    simp only [every, Bool.and_eq_true] at hfinite
    obtain ⟨⟨hnode, hbelow⟩, hrest⟩ := hfinite
    rcases List.mem_append.mp h with h | h
    · exact nonFinite?_of_mem_leavesNode hnode hbelow h
    · exact nonFinite?_of_mem_leavesBelow hrest h

end

end StyleTree

namespace Collected

/-- Takes in a leaf with finite numbers. -/
def takeLeaf (scope : List String) (found : Collected) (leaf : Leaf) : Collected :=
  match leaf.value.written? leaf.property with
  | none => found
  | some css =>
    match Selector.ofPath leaf.parents with
    | [] => found.report (scope ++ (leaf.parents ++ [leaf.key])) (.orphan leaf.property)
    | selectors =>
      { found with
        rules := selectors.foldl (fun rules s => rules.declare s leaf.property css) found.rules }

variable (scope : List String) (found : Collected)

theorem declareLeaf_of_finite {leaf : Leaf} (h : leaf.value.nonFinite? = none) :
    found.declareLeaf scope leaf = .ok (found.takeLeaf scope leaf) := by
  unfold declareLeaf declare takeLeaf Leaf.property
  simp only [h, Visit.key_mk, Visit.parents_mk]
  cases leaf.value.written? (Property.name leaf.key) with
  | none => rfl
  | some css => cases Selector.ofPath leaf.parents <;> rfl

theorem foldlM_declareLeaf {leaves : List Leaf}
    (h : ∀ leaf ∈ leaves, leaf.value.nonFinite? = none) :
    leaves.foldlM (declareLeaf scope) found = .ok (leaves.foldl (takeLeaf scope) found) := by
  induction leaves generalizing found with
  | nil => rfl
  | cons leaf rest ih =>
    rw [List.foldlM_cons, declareLeaf_of_finite scope found (h leaf (by simp)), List.foldl_cons]
    exact ih _ fun other hother => h other (by simp [hother])

theorem buckets_takeLeaf (leaf : Leaf) : (found.takeLeaf scope leaf).buckets = found.buckets := by
  unfold takeLeaf
  split
  · rfl
  · split <;> rfl

/-- A leaf writes its declarations. -/
theorem rules_takeLeaf (leaf : Leaf) :
    (found.takeLeaf scope leaf).rules =
      leaf.declared.foldl (fun rules d => rules.declare d.selector d.property d.value)
        found.rules := by
  unfold takeLeaf Leaf.declared
  split
  · rfl
  · split
    · next h => simp [h, report]
    · simp [List.foldl_map]

theorem buckets_foldl_takeLeaf (leaves : List Leaf) :
    (leaves.foldl (takeLeaf scope) found).buckets = found.buckets := by
  induction leaves generalizing found with
  | nil => rfl
  | cons leaf rest ih => rw [List.foldl_cons, ih, buckets_takeLeaf]

theorem rules_foldl_takeLeaf (leaves : List Leaf) :
    (leaves.foldl (takeLeaf scope) found).rules = (leaves.flatMap Leaf.declared).foldl
      (fun rules d => rules.declare d.selector d.property d.value) found.rules := by
  induction leaves generalizing found with
  | nil => rfl
  | cons leaf rest ih =>
    rw [List.foldl_cons, ih, rules_takeLeaf, List.flatMap_cons, List.foldl_append]

end Collected

/-- A plain tree with finite numbers collects to the declarations of its leaves. -/
theorem StyleTree.collect_plain (options : Options) (scope : List String) {tree : StyleTree}
    (hplain : tree.isPlain = true) (hfinite : tree.isFinite = true) :
    ∃ found, tree.collect options scope = .ok found ∧
      found.rules = RuleSet.ofDeclared tree.declared ∧ found.buckets = .empty := by
  refine ⟨tree.leaves.foldl (Collected.takeLeaf scope) .empty, ?_, ?_, ?_⟩
  · rw [collect_eq_foldlM_leaves options scope hplain]
    exact Collected.foldlM_declareLeaf scope .empty fun _ => nonFinite?_of_mem_leavesBelow hfinite
  · rw [Collected.rules_foldl_takeLeaf]
    rfl
  · rw [Collected.buckets_foldl_takeLeaf]
    rfl

end NestedStyles
