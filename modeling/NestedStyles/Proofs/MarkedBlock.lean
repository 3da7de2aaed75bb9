import NestedStyles.Proofs.Below
import NestedStyles.Proofs.ModeLeaves

/-!
# A block of a mode at the root

A block that is filed for a mode at the root has the keys of its blocks marked as descendants, down
to the first key of each path that is no at-rule's (`StyleTree.markedPath`). Two keys of one level
may be marked alike, since marking evens out the spaces of a key and its empty alternatives, and
then the later one takes the place of the earlier one with everything below it. The nodes of the
marked block are those of the block at their marked paths, without the ones that are replaced in
this way (`StyleTree.nodes_marked`), and they are the content of a mode that had none before
(`Buckets.nodes_addMode`).
-/

namespace NestedStyles

namespace StyleTree

/-! ## Nodes of a tree -/

/-- The paths of all nodes that a walk visits, with the value of a leaf and none for a block. -/
def nodes (tree : StyleTree) : List (List String × Option Value) :=
  tree.visits.map fun visit => (visit.path, visit.node.value?)

/-- The nodes at and below a key. -/
def nodesAt (key : String) (node : Node) : List (List String × Option Value) :=
  (nodes (node.block?.getD [])).map (fun found => (key :: found.1, found.2)) ++
    [([key], node.value?)]

theorem map_visitsNode (key : String) (node : Node) :
    (visitsNode [key] node).map (fun visit => (visit.path, visit.node.value?)) =
      nodesAt key node := by
  cases node with
  | leaf value => rfl
  | tree entries =>
    have houter := visitsBelow_outer [key] [] entries
    rw [List.append_nil] at houter
    cases hreference : reference? entries with
    | some value => simp [visitsNode, nodesAt, Node.block?, hreference, nodes, visits, visitsBelow]
    | none =>
      rw [visitsNode_of_block hreference, nodesAt, Node.block?_of_block hreference, houter]
      simp [nodes, visits, Visit.below]

theorem nodes_cons (entry : String × Node) (rest : StyleTree) :
    nodes (entry :: rest) = nodesAt entry.1 entry.2 ++ nodes rest := by
  obtain ⟨key, node⟩ := entry
  rw [nodes, visits, visitsBelow, List.map_append, List.nil_append, map_visitsNode]
  rfl

theorem nodes_eq_flatMap (tree : StyleTree) :
    tree.nodes = tree.flatMap fun entry => nodesAt entry.1 entry.2 := by
  induction tree with
  | nil => rfl
  | cons entry rest ih => rw [nodes_cons, List.flatMap_cons, ih]

/-- The order of the entries does not matter for what nodes there are. -/
theorem perm_nodes {a b : StyleTree} (h : a.Perm b) : a.nodes.Perm b.nodes := by
  rw [nodes_eq_flatMap, nodes_eq_flatMap]
  exact h.flatMap_right _

theorem nodesAt_of_block {entries : StyleTree} (h : reference? entries = none) (key : String) :
    nodesAt key (.tree entries) =
      (nodes entries).map (fun found => (key :: found.1, found.2)) ++ [([key], none)] := by
  rw [nodesAt, Node.block?_of_block h, Node.value?, h]
  rfl

theorem nodesAt_of_isLeaf {node : Node} (h : node.isLeaf = true) (key : String) :
    nodesAt key node = [([key], node.value?)] := by
  rw [nodesAt, (Node.block?_eq_none_iff node).mpr h]
  rfl

theorem exists_of_mem_nodesAt {key : String} {node : Node} {found : List String × Option Value}
    (h : found ∈ nodesAt key node) : ∃ path, found.1 = key :: path := by
  rcases List.mem_append.mp h with h | h
  · obtain ⟨inner, -, rfl⟩ := List.mem_map.mp h
    exact ⟨inner.1, rfl⟩
  · rw [List.mem_singleton.mp h]
    exact ⟨[], rfl⟩

theorem exists_of_mem_nodes {tree : StyleTree} {found : List String × Option Value}
    (h : found ∈ tree.nodes) : ∃ key path, found.1 = key :: path ∧ key ∈ tree.keys := by
  rw [nodes_eq_flatMap] at h
  obtain ⟨entry, hentry, hfound⟩ := List.mem_flatMap.mp h
  obtain ⟨path, hpath⟩ := exists_of_mem_nodesAt hfound
  exact ⟨entry.1, path, hpath, List.mem_map.mpr ⟨entry, hentry, rfl⟩⟩

/-! ## Marked keys -/

/-- The key of a block as it is marked. The key of an at-rule stays, and so does a blank one, which
names no selector. -/
def markedScope (key : String) : String :=
  if Text.isAtKey key || Text.isBlank key then key else Selector.asDescendant key

/-- The key of a node as it is marked: that of a leaf stays. -/
def markedKey (key : String) (node : Node) : String :=
  if node.isLeaf then key else markedScope key

/-- The path of a node of a marked block, given whether the node is a leaf: down to the first key
that is no at-rule's the keys of blocks are marked. -/
def markedPath (isLeaf : Bool) : List String → List String
  | [] => []
  | [key] => [if isLeaf then key else markedScope key]
  | key :: path => markedScope key :: if Text.isAtKey key then markedPath isLeaf path else path

/-- A key on the path, the first that is no at-rule's or one above it, is marked like a later key of
its level. -/
def isReplaced : List String → StyleTree → Bool
  | [], _ => false
  | key :: path, tree =>
    match tree.dropWhile (·.1 != key) with
    | [] => false
    | (_, node) :: later =>
      (later.map fun entry => markedKey entry.1 entry.2).contains (markedKey key node) ||
        (Text.isAtKey key && isReplaced path node.entries)

theorem markedEntry_of_isLeaf {node : Node} (h : node.isLeaf = true) (key : String) :
    markedEntry key node = (key, node) := by
  cases node with
  | leaf value => rfl
  | tree entries => exact if_pos h

theorem exists_of_not_isLeaf {node : Node} (h : node.isLeaf = false) :
    ∃ entries, node = .tree entries ∧ reference? entries = none := by
  cases node with
  | leaf value => exact absurd h (by simp [Node.isLeaf, Node.value?])
  | tree entries => exact ⟨entries, rfl, by simpa [Node.isLeaf, Node.value?] using h⟩

/-- An entry with a block, marked. -/
theorem markedEntry_of_block {entries : StyleTree} (h : reference? entries = none) (key : String) :
    markedEntry key (.tree entries) = (markedScope key,
      .tree (if Text.isAtKey key then marked entries else entries)) := by
  rw [markedEntry, h, if_neg (by simp), markedScope]
  cases hkey : Text.isAtKey key with
  | true => rfl
  | false => cases hblank : Text.isBlank key <;> simp

theorem markedEntry_key (key : String) (node : Node) :
    (markedEntry key node).1 = markedKey key node := by
  cases hleaf : node.isLeaf with
  | true => rw [markedEntry_of_isLeaf hleaf, markedKey, if_pos hleaf]
  | false =>
    obtain ⟨entries, rfl, hentries⟩ := exists_of_not_isLeaf hleaf
    rw [markedKey, hleaf, if_neg (by simp), markedEntry_of_block hentries]

theorem markedEntries_eq_map (entries : List (String × Node)) :
    markedEntries entries = entries.map fun entry => markedEntry entry.1 entry.2 := by
  induction entries with
  | nil => rfl
  | cons entry rest ih => rw [markedEntries, List.map_cons, ih]

theorem keys_markedEntries (entries : List (String × Node)) :
    Entries.keys (markedEntries entries) = entries.map fun entry => markedKey entry.1 entry.2 := by
  rw [markedEntries_eq_map, Entries.keys, List.map_map]
  exact List.map_congr_left fun entry _ => markedEntry_key entry.1 entry.2

/-- No marked key is one of those that a reference has, unless it stays as it is. -/
theorem markedScope_of_reference {key : String}
    (h : markedScope key = "var" ∨ markedScope key = "name") :
    markedScope key = key ∧ Text.isAtKey key = false := by
  have hmarked : Selector.asDescendant key ≠ "var" ∧ Selector.asDescendant key ≠ "name" := by
    rcases Selector.asDescendant_eq key with hmark | ⟨rest, hmark⟩
    · rw [hmark]
      decide
    · constructor
      · exact fun heq => absurd (congrArg String.toList (hmark.symm.trans heq)) (by simp)
      · exact fun heq => absurd (congrArg String.toList (hmark.symm.trans heq)) (by simp)
  rw [markedScope] at h ⊢
  split at h
  · refine ⟨if_pos ‹_›, ?_⟩
    rcases h with rfl | rfl <;> decide
  · exact absurd h (not_or.mpr hmarked)

/-- Marking the keys of a block makes it no reference. -/
theorem reference?_marked {block : StyleTree} (hdistinct : block.Distinct)
    (hblock : reference? block = none) : reference? block.marked = none := by
  cases h : reference? block.marked with
  | none => rfl
  | some value =>
    have hentry : ∀ entry ∈ block, markedEntry entry.1 entry.2 = entry := by
      rintro ⟨key, node⟩ hmem
      have hkey : markedKey key node ∈ Entries.keys block.marked := by
        rw [marked, Entries.keys_ofList, List.mem_eraseDups, keys_markedEntries]
        exact List.mem_map.mpr ⟨_, hmem, rfl⟩
      obtain ⟨⟨_, other⟩, hother, rfl⟩ := List.mem_map.mp hkey
      obtain ⟨hname, -⟩ := of_mem_of_reference? (Entries.distinct_ofList _) h hother
      cases hleaf : node.isLeaf with
      | true => exact markedEntry_of_isLeaf hleaf key
      | false =>
        obtain ⟨entries, rfl, hentries⟩ := exists_of_not_isLeaf hleaf
        rw [markedKey, hleaf, if_neg (by simp)] at hname
        obtain ⟨hsame, hat⟩ := markedScope_of_reference hname
        rw [markedEntry_of_block hentries, hsame, hat, if_neg (by simp)]
    have hsame : markedEntries block = block := by
      rw [markedEntries_eq_map, List.map_congr_left hentry, List.map_id']
    rw [marked, hsame, Entries.ofList_of_distinct hdistinct, hblock] at h
    exact absurd h (by simp)

/-! ## What is replaced -/

/-- A node as it stands in a marked block. -/
def markedNode (found : List String × Option Value) : List String × Option Value :=
  (markedPath found.2.isSome found.1, found.2)

theorem isReplaced_cons_self (key : String) (path : List String) (node : Node) (rest : StyleTree) :
    isReplaced (key :: path) ((key, node) :: rest) =
      ((rest.map fun entry => markedKey entry.1 entry.2).contains (markedKey key node) ||
        (Text.isAtKey key && isReplaced path node.entries)) := by
  rw [isReplaced, List.dropWhile_cons_of_neg (by simp)]

theorem isReplaced_cons_of_ne {key other : String} (h : other ≠ key) (path : List String)
    (node : Node) (rest : StyleTree) :
    isReplaced (key :: path) ((other, node) :: rest) = isReplaced (key :: path) rest := by
  rw [isReplaced, List.dropWhile_cons_of_pos (by simpa using h), isReplaced]

theorem markedPath_cons (isLeaf : Bool) (key : String) {path : List String} (h : path ≠ []) :
    markedPath isLeaf (key :: path) =
      markedScope key :: if Text.isAtKey key then markedPath isLeaf path else path := by
  obtain ⟨next, path, rfl⟩ := List.exists_cons_of_ne_nil h
  rfl

/-- A leaf stays as it is. -/
theorem nodesAt_markedEntry_of_isLeaf {node : Node} (h : node.isLeaf = true) (key : String) :
    nodesAt (markedEntry key node).1 (markedEntry key node).2 =
      ((nodesAt key node).filter fun found =>
        !(Text.isAtKey key && isReplaced found.1.tail node.entries)).map markedNode := by
  have hvalue : node.value?.isSome = true := h
  rw [markedEntry_of_isLeaf h, nodesAt_of_isLeaf h]
  simp [isReplaced, markedNode, markedPath, hvalue]

/-- The nodes below a block, marked, when the block is. -/
theorem map_markedNode_below (key : String) (entries : StyleTree)
    (p : List String × Option Value → Bool) :
    (((nodes entries).map fun found => (key :: found.1, found.2)).filter p).map markedNode =
      ((nodes entries).filter fun found => p (key :: found.1, found.2)).map fun found =>
        (markedScope key :: (if Text.isAtKey key then markedPath found.2.isSome found.1
          else found.1), found.2) := by
  rw [List.filter_map, List.map_map]
  refine List.map_congr_left fun found hfound => ?_
  obtain ⟨k, path, hpath, -⟩ := exists_of_mem_nodes (List.mem_filter.mp hfound).1
  rw [Function.comp_apply, markedNode, markedPath_cons _ _ (by simp [hpath])]

mutual

/-- The nodes at and below an entry, when it is marked. -/
theorem perm_nodesAt_markedEntry (key : String) : ∀ {node : Node}, node.isDistinct = true →
    nodeEvery (fun _ node => node.isDistinct) node = true →
    (nodesAt (markedEntry key node).1 (markedEntry key node).2).Perm
      (((nodesAt key node).filter fun found =>
        !(Text.isAtKey key && isReplaced found.1.tail node.entries)).map markedNode)
  | .leaf value, _, _ => List.Perm.of_eq (nodesAt_markedEntry_of_isLeaf rfl key)
  | .tree entries, hnode, hbelow => by
    have hdistinct := Node.isDistinct_tree.mp hnode
    cases hreference : reference? entries with
    | some value =>
      have hleaf : (Node.tree entries).isLeaf = true := by
        simp [Node.isLeaf, Node.value?, hreference]
      exact List.Perm.of_eq (nodesAt_markedEntry_of_isLeaf hleaf key)
    | none =>
      rw [markedEntry_of_block hreference, nodesAt_of_block hreference, List.filter_append,
        List.map_append, map_markedNode_below]
      cases hkey : Text.isAtKey key with
      | false =>
        have hall : ((nodes entries).filter fun _ => true) = nodes entries :=
          List.filter_eq_self.mpr fun _ _ => rfl
        rw [if_neg (by simp), nodesAt_of_block hreference]
        simp [markedNode, markedPath, hall]
      | true =>
        have hinner := (perm_nodes (Entries.perm_lasts (markedEntries entries))).trans
          (perm_nodes_lasts hdistinct hbelow)
        rw [if_pos rfl, nodesAt_of_block (reference?_marked hdistinct hreference)]
        refine List.Perm.append ?_ ?_
        · refine (hinner.map _).trans (List.Perm.of_eq ?_)
          rw [List.map_map]
          rfl
        · simp [markedNode, markedPath, isReplaced]

/-- The nodes of a block of which the last of the entries that are marked alike are left. -/
theorem perm_nodes_lasts : ∀ {entries : List (String × Node)}, Entries.Distinct entries →
    every (fun _ node => node.isDistinct) entries = true →
    (nodes (Entries.lasts (markedEntries entries))).Perm
      (((nodes entries).filter fun found => !isReplaced found.1 entries).map markedNode)
  | [], _, _ => List.Perm.refl _
  | (key, node) :: rest, hdistinct, hbelow => by
    obtain ⟨hkey, hrest⟩ := List.nodup_cons.mp hdistinct
    rw [every_cons, Bool.and_eq_true, Bool.and_eq_true] at hbelow
    have hback := perm_nodes_lasts hrest hbelow.2
    have hbehind : (nodes rest).filter (fun found => !isReplaced found.1 ((key, node) :: rest)) =
        (nodes rest).filter fun found => !isReplaced found.1 rest := by
      refine List.filter_congr fun found hfound => ?_
      obtain ⟨k, path, hpath, hk⟩ := exists_of_mem_nodes hfound
      have hne : key ≠ k := fun heq => hkey (heq ▸ hk : key ∈ Entries.keys rest)
      rw [hpath, isReplaced_cons_of_ne hne]
    have hself : ∀ found ∈ nodesAt key node, isReplaced found.1 ((key, node) :: rest) =
        ((Entries.keys (markedEntries rest)).contains (markedEntry key node).1 ||
          (Text.isAtKey key && isReplaced found.1.tail node.entries)) := by
      intro found hfound
      obtain ⟨path, hpath⟩ := exists_of_mem_nodesAt hfound
      rw [hpath, isReplaced_cons_self, keys_markedEntries, markedEntry_key, List.tail_cons]
    rw [markedEntries, Entries.lasts, nodes_cons, List.filter_append, List.map_append, hbehind,
      List.filter_congr fun found hfound => congrArg not (hself found hfound)]
    split
    · next hlater =>
      have hlater : (Entries.keys (markedEntries rest)).contains (markedEntry key node).1 = true :=
        List.contains_iff_mem.mpr hlater
      have hnone : ((nodesAt key node).filter fun found => !((Entries.keys
          (markedEntries rest)).contains (markedEntry key node).1 ||
            (Text.isAtKey key && isReplaced found.1.tail node.entries))) = [] :=
        List.filter_eq_nil_iff.mpr fun found _ => by rw [hlater]; simp
      rw [hnone]
      exact hback
    · next hlast =>
      have hlast : (Entries.keys (markedEntries rest)).contains (markedEntry key node).1 = false :=
        Bool.eq_false_iff.mpr (mt List.contains_iff_mem.mp hlast)
      rw [nodes_cons]
      simp only [hlast, Bool.false_or]
      exact (perm_nodesAt_markedEntry key hbelow.1.1 hbelow.1.2).append hback

end

/-- The nodes of a marked block are those of the block at their marked paths, without the ones whose
key is marked like a later one. -/
theorem nodes_marked {block : StyleTree} (h : block.isDistinct = true) :
    block.marked.nodes.Perm
      ((block.nodes.filter fun found => !isReplaced found.1 block).map markedNode) :=
  (perm_nodes (Entries.perm_lasts (markedEntries block))).trans
    (perm_nodes_lasts (isDistinct_iff.mp h).1 (isDistinct_iff.mp h).2)

end StyleTree

namespace Buckets

open StyleTree

/-- A mode that has no content has the marked block as its content once the block is filed. -/
theorem modeContent?_addMode {buckets : Buckets} {selector : String}
    (h : buckets.modeContent? selector = none) (block : StyleTree) :
    ((buckets.addMode selector [] block).modeContent? selector).getD [] = block.marked := by
  have hmarked : block.marked.Distinct := Entries.distinct_ofList _
  have hfiled : (buckets.addMode selector [] block).modes.get? selector =
      some (.tree block.marked) := by
    have hone : Entries.Distinct [(selector, Node.tree block.marked)] := by
      simp [Entries.Distinct, Entries.keys]
    have hget : Entries.get? selector [(selector, Node.tree block.marked)] =
        some (.tree block.marked) := if_pos rfl
    rw [addMode, descendantTree_of_blank (by simp), nest_nil, nest_cons, nest_nil, get?_merge hone,
      hget, Option.map_some, Option.some_or]
    unfold modeContent? at h
    rcases hold : buckets.modes.get? selector with _ | value | content
    · rfl
    · rfl
    · rw [hold] at h
      cases content with
      | nil => rw [mergeNode, merge_nil_left hmarked]
      | cons entry rest => exact absurd h (by simp)
  rw [modeContent?, hfiled]
  cases hblock : block.marked with
  | nil => rfl
  | cons entry rest => rfl

/-- What a block that is filed at the root leaves under a selector without content: its nodes at
their marked paths, blocks as well as leaves, each as often as it stands in the block. Of two keys
of one level that are marked alike the earlier one is lost with everything below it. -/
theorem nodes_addMode {buckets : Buckets} {selector : String} {block : StyleTree}
    (hcontent : buckets.modeContent? selector = none) (hblock : block.isDistinct = true) :
    (((buckets.addMode selector [] block).modeContent? selector).getD []).nodes.Perm
      ((block.nodes.filter fun found => !isReplaced found.1 block).map markedNode) := by
  rw [modeContent?_addMode hcontent]
  exact nodes_marked hblock

/-- Two spellings of one list of alternatives, next to an at-rule with two spellings of a class. -/
def spelledTwice : StyleTree :=
  [("a,b", .tree [("color", .leaf (.text "red"))]),
    ("@phone", .tree [("card", .tree [("margin", .leaf (.text "0"))]),
      ("color", .leaf (.text "red")), (" card", .tree [("padding", .leaf (.text "0"))])]),
    ("a, b", .tree [("margin", .leaf (.text "0"))])]

theorem nodes_addMode_spelledTwice :
    (((Buckets.empty.addMode ".dark" [] spelledTwice).modeContent? ".dark").getD []).nodes =
        [(["& a, & b", "margin"], some (.text "0")), (["& a, & b"], none),
          (["@phone", "& card", "padding"], some (.text "0")), (["@phone", "& card"], none),
          (["@phone", "color"], some (.text "red")), (["@phone"], none)] ∧
      (((Buckets.empty.addMode ".dark" [] spelledTwice).modeContent? ".dark").getD []).nodes.Perm
        ((spelledTwice.nodes.filter fun found =>
          !isReplaced found.1 spelledTwice).map markedNode) :=
  ⟨by decide +kernel, nodes_addMode (by decide) (by decide)⟩

/-- A declaration is lost although none with its marked path is written over it: that below `a,b`
goes with its block when `a, b` is marked. -/
theorem lost_below_alternatives :
    ¬ ∀ (buckets : Buckets) (selector : String) (block : StyleTree),
      buckets.modeContent? selector = none → block.isDistinct = true →
        ∀ path value, (path, some value) ∈ block.nodes →
          ∃ other, (markedPath true path, some other) ∈
            (((buckets.addMode selector [] block).modeContent? selector).getD []).nodes := by
  intro hkept
  obtain ⟨other, hmem⟩ := hkept Buckets.empty ".dark" spelledTwice (by decide) (by decide)
    ["a,b", "color"] (.text "red") (by decide)
  have hlost : markedPath true ["a,b", "color"] ∉
      (((Buckets.empty.addMode ".dark" [] spelledTwice).modeContent? ".dark").getD []).nodes.map
        Prod.fst := by decide +kernel
  exact hlost (List.mem_map.mpr ⟨_, hmem, rfl⟩)

end Buckets

end NestedStyles
