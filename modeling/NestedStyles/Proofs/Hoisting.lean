import NestedStyles.Proofs.Filings
import NestedStyles.Proofs.PlainSheet

/-!
# Hoisting an at-rule

The block of an `@` key is compiled in a bucket, below the keys that stand above it. So a tree with
a single outermost `@` key compiles as the tree without that entry and with the key at the end of
the root, where its block is nested in the keys that stood above it (`StyleTree.compile_hoist`).

`StyleTree.Hoisted` is the place of the entry in a tree that holds no other outermost `@` key. A
walk of such a tree declares the leaves of what is left without the entry and files the block
(`Hoisted.foldlM_visitsBelow`), wherever the entry stands among them.
-/

namespace NestedStyles

/-- The visit is to an `@` key with no `@` key above it. -/
def Visit.isOutermostAt (visit : Visit) : Bool := Text.isAtKey visit.key && !visit.inAtRule

@[simp] theorem Visit.isOutermostAt_mk (above : List String) (key : String) (node : Node) :
    (Visit.mk (above ++ [key]) node).isOutermostAt =
      (Text.isAtKey key && !above.any Text.isAtKey) := by
  rw [isOutermostAt, key_mk, inAtRule_mk]

namespace StyleTree

/-- The tree without the entry of `key` in the map below the keys `above`. -/
def withoutEntry (key : String) : (above : List String) → StyleTree → StyleTree
  | [], tree => tree.remove key
  | k :: above, tree => tree.map fun entry =>
    match entry with
    | (k', .tree inner) =>
      if k' = k then (k', .tree (withoutEntry key above inner)) else (k', .tree inner)
    | (k', .leaf value) => (k', .leaf value)

/-- The block at `key` below the keys `above` is the only one in the tree at an outermost `@` key,
and the second tree is what is left without it. -/
inductive Hoisted (key : String) (block : StyleTree) : List String → StyleTree → StyleTree → Prop
  | here {before after : StyleTree} (hbefore : before.isPlain = true)
      (hafter : after.isPlain = true) :
      Hoisted key block [] (before ++ (key, .tree block) :: after) (before ++ after)
  | inside {k : String} {above : List String} {before inner left after : StyleTree}
      (hbefore : before.isPlain = true) (hk : Text.isAtKey k = false)
      (hinner : reference? inner = none) (hleft : reference? left = none)
      (h : Hoisted key block above inner left) (hafter : after.isPlain = true) :
      Hoisted key block (k :: above) (before ++ (k, .tree inner) :: after)
        (before ++ (k, .tree left) :: after)

/-! ## Visits of a tree with one outermost `@` key -/

mutual

theorem path_of_mem_visitsNode {path : List String} {visit : Visit} :
    ∀ {node : Node}, visit ∈ visitsNode path node → path <+: visit.path
  | .leaf value, h => by
    rw [visitsNode, List.mem_singleton] at h
    exact h ▸ List.prefix_refl _
  | .tree entries, h => by
    rw [visitsNode] at h
    split at h
    · rw [List.mem_singleton] at h
      exact h ▸ List.prefix_refl _
    · rcases List.mem_append.mp h with h | h
      · obtain ⟨k, more, hpath⟩ := path_of_mem_visitsBelow h
        exact ⟨k :: more, hpath.symm⟩
      · rw [List.mem_singleton] at h
        exact h ▸ List.prefix_refl _

/-- Visits below some keys are to longer paths. -/
theorem path_of_mem_visitsBelow {above : List String} {visit : Visit} :
    ∀ {entries : List (String × Node)}, visit ∈ visitsBelow above entries →
      ∃ k more, visit.path = above ++ k :: more
  | [], h => by simp [visitsBelow] at h
  | (key, node) :: rest, h => by
    rw [visitsBelow] at h
    rcases List.mem_append.mp h with h | h
    · obtain ⟨more, hmore⟩ := path_of_mem_visitsNode h
      exact ⟨key, more, by rw [← hmore]; simp⟩
    · exact path_of_mem_visitsBelow h

end

theorem mem_visitsNode_self (path : List String) (node : Node) :
    ⟨path, node⟩ ∈ visitsNode path node := by
  cases node with
  | leaf value => simp [visitsNode]
  | tree entries =>
    rw [visitsNode]
    split <;> simp

theorem visitsBelow_append (above : List String) (front back : StyleTree) :
    visitsBelow above (front ++ back) = visitsBelow above front ++ visitsBelow above back := by
  induction front with
  | nil => rfl
  | cons entry front ih => rw [List.cons_append, visitsBelow, ih, visitsBelow, List.append_assoc]

/-- The visits to a node of the tree are visits of the tree. -/
theorem mem_visitsBelow_of_mem {above : List String} {key : String} {node : Node} {visit : Visit}
    {entries : StyleTree} (hmem : (key, node) ∈ entries)
    (h : visit ∈ visitsNode (above ++ [key]) node) : visit ∈ visitsBelow above entries := by
  obtain ⟨front, back, rfl⟩ := List.append_of_mem hmem
  rw [visitsBelow_append, visitsBelow]
  exact List.mem_append_right _ (List.mem_append_left _ h)

theorem inAtRule_of_mem_visitsBelow {above : List String} (habove : above.any Text.isAtKey = true)
    {entries : StyleTree} {visit : Visit} (h : visit ∈ visitsBelow above entries) :
    visit.inAtRule = true := by
  obtain ⟨k, more, hpath⟩ := path_of_mem_visitsBelow h
  rw [Visit.inAtRule, Visit.parents, hpath, List.dropLast_append_of_ne_nil (by simp),
    List.any_append, habove, Bool.true_or]

/-- Nothing below an `@` key is outermost. -/
theorem filter_isOutermostAt_visitsBelow {above : List String}
    (habove : above.any Text.isAtKey = true) (entries : StyleTree) :
    (visitsBelow above entries).filter Visit.isOutermostAt = [] := by
  refine List.filter_eq_nil_iff.mpr fun visit hvisit => ?_
  simp [Visit.isOutermostAt, inAtRule_of_mem_visitsBelow habove hvisit]

mutual

theorem plain_of_no_outermostNode {above : List String} {key : String}
    (habove : above.any Text.isAtKey = false) : ∀ {node : Node}, node.isDistinct = true →
      nodeEvery (fun _ node => node.isDistinct) node = true →
      (visitsNode (above ++ [key]) node).filter Visit.isOutermostAt = [] →
      Text.isAtKey key = false ∧ nodeEvery (fun key _ => !Text.isAtKey key) node = true
  | .leaf value, _, _, h => by
    rw [visitsNode] at h
    exact ⟨by simpa [List.filter_cons, habove] using h, rfl⟩
  | .tree entries, hnode, hbelow, h => by
    have hself : Text.isAtKey key = false := by
      refine Bool.eq_false_iff.mpr fun hkey => ?_
      exact List.filter_eq_nil_iff.mp h _ (mem_visitsNode_self _ _) (by simp [hkey, habove])
    refine ⟨hself, ?_⟩
    cases href : reference? entries with
    | some value => exact isPlain_of_reference? (Node.isDistinct_tree.mp hnode) href
    | none =>
      rw [visitsNode, href, if_neg (by simp), List.filter_append, List.append_eq_nil_iff] at h
      exact plain_of_no_outermost (by simp [habove, hself]) hbelow h.1

/-- A tree whose visits are to no outermost `@` key holds no `@` key at all. -/
theorem plain_of_no_outermost {above : List String} (habove : above.any Text.isAtKey = false) :
    ∀ {entries : List (String × Node)}, every (fun _ node => node.isDistinct) entries = true →
      (visitsBelow above entries).filter Visit.isOutermostAt = [] →
      every (fun key _ => !Text.isAtKey key) entries = true
  | [], _, _ => rfl
  | (key, node) :: rest, hdistinct, h => by
    simp only [every, Bool.and_eq_true] at hdistinct
    obtain ⟨⟨hnode, hbelow⟩, hrest⟩ := hdistinct
    rw [visitsBelow, List.filter_append, List.append_eq_nil_iff] at h
    obtain ⟨hkey, hplain⟩ := plain_of_no_outermostNode habove hnode hbelow h.1
    rw [every, hkey, hplain, plain_of_no_outermost habove hrest h.2]
    rfl

end

/-- The entry that holds the only visit to an outermost `@` key stands between plain entries. -/
theorem split_outermost {above : List String} (habove : above.any Text.isAtKey = false)
    {visit : Visit} : ∀ {entries : StyleTree},
      every (fun _ node => node.isDistinct) entries = true →
      (visitsBelow above entries).filter Visit.isOutermostAt = [visit] →
      ∃ (before : StyleTree) (k : String) (node : Node) (after : StyleTree),
        entries = before ++ (k, node) :: after ∧ before.isPlain = true ∧ after.isPlain = true ∧
        (visitsNode (above ++ [k]) node).filter Visit.isOutermostAt = [visit]
  | [], _, h => by simp [visitsBelow] at h
  | (key, node) :: rest, hdistinct, h => by
    simp only [every_cons, Bool.and_eq_true] at hdistinct
    obtain ⟨⟨hnode, hbelow⟩, hrest⟩ := hdistinct
    rw [visitsBelow, List.filter_append] at h
    rcases List.append_eq_singleton_iff.mp h with ⟨hnone, hone⟩ | ⟨hone, hnone⟩
    · obtain ⟨hkey, hplain⟩ := plain_of_no_outermostNode habove hnode hbelow hnone
      obtain ⟨before, k, node', after, rfl, hbefore, hafter, hvisit⟩ :=
        split_outermost habove hrest hone
      refine ⟨(key, node) :: before, k, node', after, rfl, ?_, hafter, hvisit⟩
      rw [isPlain, every_cons, hkey, hplain]
      exact hbefore
    · exact ⟨[], key, node, rest, rfl, rfl, plain_of_no_outermost habove hrest hnone, hone⟩

/-! ## The tree without the entry -/

section Without

variable {key k : String} {above : List String} {before after : StyleTree}

theorem every_append (p : String → Node → Bool) (front back : StyleTree) :
    every p (front ++ back) = (every p front && every p back) := by
  induction front with
  | nil => rfl
  | cons entry front ih =>
    rw [List.cons_append, every_cons, ih, every_cons]
    simp only [Bool.and_assoc]

/-- A plain tree has no entry of an `@` key to lose. -/
theorem remove_of_isPlain (hkey : Text.isAtKey key = true) {tree : StyleTree}
    (h : tree.isPlain = true) : tree.remove key = tree := by
  refine List.filter_eq_self.mpr fun entry hentry => ?_
  have hplain := (every_iff.mp h entry.1 entry.2 hentry).1
  refine bne_iff_ne.mpr fun heq => ?_
  rw [heq, hkey] at hplain
  exact absurd hplain (by simp)

theorem withoutEntry_nil_split (hkey : Text.isAtKey key = true) (hbefore : before.isPlain = true)
    (hafter : after.isPlain = true) (node : Node) :
    withoutEntry key [] (before ++ (key, node) :: after) = before ++ after := by
  have hb := remove_of_isPlain hkey hbefore
  have ha := remove_of_isPlain hkey hafter
  unfold Entries.remove at hb ha
  rw [withoutEntry, Entries.remove, List.filter_append, List.filter_cons, hb, ha]
  simp

/-- Entries of other keys stay as they are. -/
theorem withoutEntry_of_not_mem {tree : StyleTree} (h : k ∉ tree.keys) :
    withoutEntry key (k :: above) tree = tree := by
  rw [withoutEntry]
  refine (List.map_congr_left fun entry hentry => ?_).trans (List.map_id tree)
  obtain ⟨k', node⟩ := entry
  have hne : k' ≠ k := by
    rintro rfl
    exact h (List.mem_map.mpr ⟨_, hentry, rfl⟩)
  cases node with
  | leaf value => rfl
  | tree inner => simp [hne]

theorem withoutEntry_split (hbefore : k ∉ before.keys) (hafter : k ∉ after.keys)
    (inner : StyleTree) :
    withoutEntry key (k :: above) (before ++ (k, .tree inner) :: after) =
      before ++ (k, .tree (withoutEntry key above inner)) :: after := by
  have hb : withoutEntry key (k :: above) before = before := withoutEntry_of_not_mem hbefore
  have ha : withoutEntry key (k :: above) after = after := withoutEntry_of_not_mem hafter
  rw [withoutEntry] at hb ha
  rw [withoutEntry, List.map_append, List.map_cons, hb, ha]
  simp

theorem keys_withoutEntry_cons (tree : StyleTree) :
    (withoutEntry key (k :: above) tree).keys = tree.keys := by
  rw [withoutEntry, Entries.keys, Entries.keys, List.map_map]
  refine List.map_congr_left fun entry _ => ?_
  obtain ⟨k', node⟩ := entry
  cases node with
  | leaf value => rfl
  | tree inner =>
    by_cases h : k' = k
    · simp [h]
    · simp [h]

/-- A tree with a tree in it stands for no reference without an entry of the latter either. -/
theorem reference?_withoutEntry {tree inner : StyleTree} (hdistinct : tree.Distinct)
    (hmem : (k, .tree inner) ∈ tree) : reference? (withoutEntry key (k :: above) tree) = none := by
  have hkeys : (withoutEntry key (k :: above) tree).Distinct := by
    unfold Entries.Distinct
    rw [keys_withoutEntry_cons]
    exact hdistinct
  have hinner : (k, .tree (withoutEntry key above inner)) ∈ withoutEntry key (k :: above) tree := by
    rw [withoutEntry]
    exact List.mem_map.mpr ⟨_, hmem, by simp⟩
  exact reference?_eq_none_of_mem hkeys hinner

end Without

theorem not_mem_of_distinct_split {k : String} {node : Node} {before after : StyleTree}
    (h : Entries.Distinct (before ++ (k, node) :: after)) :
    k ∉ before.keys ∧ k ∉ after.keys := by
  unfold Entries.Distinct Entries.keys at h
  rw [List.map_append, List.map_cons, List.nodup_append] at h
  obtain ⟨-, hafter, hdisjoint⟩ := h
  exact ⟨fun hk => hdisjoint k hk k (by simp) rfl, (List.nodup_cons.mp hafter).1⟩

/-- What a visit below a key has above it is a tree. -/
theorem exists_tree_of_mem_visitsBelow {above more : List String} {k k' : String} {visit : Visit}
    (hpath : visit.path = above ++ k :: k' :: more) : ∀ {entries : StyleTree},
      visit ∈ visitsBelow above entries → ∃ inner, (k, .tree inner) ∈ entries
  | [], h => by simp [visitsBelow] at h
  | (key, node) :: rest, h => by
    rw [visitsBelow] at h
    rcases List.mem_append.mp h with h | h
    · have hkey : key = k := by
        obtain ⟨rest, hrest⟩ := path_of_mem_visitsNode h
        rw [hpath, List.append_assoc] at hrest
        exact (List.cons.inj (List.append_cancel_left hrest)).1
      subst hkey
      cases node with
      | leaf value =>
        rw [visitsNode, List.mem_singleton] at h
        rw [h] at hpath
        simp at hpath
      | tree inner => exact ⟨inner, List.mem_cons_self⟩
    · obtain ⟨inner, hinner⟩ := exists_tree_of_mem_visitsBelow hpath h
      exact ⟨inner, List.mem_cons_of_mem _ hinner⟩

/-! ## The place of the entry -/

theorem filter_isOutermostAt_singleton {above : List String}
    (habove : above.any Text.isAtKey = false) (k : String) (node : Node) :
    ([⟨above ++ [k], node⟩] : List Visit).filter Visit.isOutermostAt =
      if Text.isAtKey k then [⟨above ++ [k], node⟩] else [] := by
  rw [List.filter_cons, Visit.isOutermostAt_mk, habove, Bool.not_false, Bool.and_true,
    List.filter_nil]

/-- If the visit to a node is the only one to an outermost `@` key, the key is its own. -/
theorem outermost_self {above more : List String} {k key : String} {node : Node}
    {block : StyleTree} (habove : above.any Text.isAtKey = false)
    (h : ([⟨above ++ [k], node⟩] : List Visit).filter Visit.isOutermostAt =
      [⟨above ++ more ++ [key], .tree block⟩]) :
    more = [] ∧ k = key ∧ node = .tree block ∧ Text.isAtKey key = true := by
  rw [filter_isOutermostAt_singleton habove] at h
  split at h
  · next hk =>
    obtain ⟨hpath, hnode⟩ := Visit.mk.inj (List.cons.inj h).1
    rw [List.append_assoc] at hpath
    have hends := List.append_cancel_left hpath
    have hmore : more = [] := by
      have := congrArg List.length hends
      simpa using this
    subst hmore
    obtain rfl : k = key := by simpa using hends
    exact ⟨rfl, rfl, hnode, hk⟩
  · simp at h

/-- The node of the entry that holds the only visit to an outermost `@` key: the block itself, or a
tree that holds it further below. -/
theorem outermost_in_node {above more : List String} {k key : String} {node : Node}
    {block : StyleTree} (habove : above.any Text.isAtKey = false)
    (h : (visitsNode (above ++ [k]) node).filter Visit.isOutermostAt =
      [⟨above ++ more ++ [key], .tree block⟩]) :
    (more = [] ∧ k = key ∧ node = .tree block ∧ Text.isAtKey key = true) ∨
      ∃ rest inner, more = k :: rest ∧ node = .tree inner ∧ Text.isAtKey k = false ∧
        reference? inner = none ∧ (visitsBelow (above ++ [k]) inner).filter Visit.isOutermostAt =
          [⟨above ++ [k] ++ rest ++ [key], .tree block⟩] := by
  have hself := filter_isOutermostAt_singleton habove k node
  cases node with
  | leaf value =>
    rw [visitsNode] at h
    exact Or.inl (outermost_self habove h)
  | tree inner =>
    rw [visitsNode] at h
    cases hinner : reference? inner with
    | some value =>
      rw [hinner, if_pos Option.isSome_some] at h
      exact Or.inl (outermost_self habove h)
    | none =>
      rw [hinner, if_neg (by simp), List.filter_append] at h
      by_cases hk : Text.isAtKey k = true
      · -- Nothing below an `@` key is outermost, so the node itself is.
        rw [filter_isOutermostAt_visitsBelow (by simp [hk]), List.nil_append] at h
        exact Or.inl (outermost_self habove h)
      · rw [hself, if_neg hk, List.append_nil] at h
        have hmem : Visit.mk (above ++ more ++ [key]) (.tree block) ∈
            visitsBelow (above ++ [k]) inner :=
          (List.mem_filter.mp (h ▸ List.mem_singleton_self _)).1
        obtain ⟨k', rest, hpath⟩ := path_of_mem_visitsBelow hmem
        rw [List.append_assoc, List.append_assoc] at hpath
        have hends := List.append_cancel_left hpath
        cases more with
        | nil => simp at hends
        | cons first more =>
          obtain rfl : first = k := (List.cons.inj hends).1
          refine Or.inr ⟨more, inner, rfl, rfl, Bool.eq_false_iff.mpr hk, hinner, ?_⟩
          rw [h]
          simp

/-- A tree that holds an outermost `@` key further below is no reference without the entry. -/
theorem reference?_left {above rest : List String} {key : String} {inner block : StyleTree}
    (hinner : inner.Distinct) (hrest : rest ≠ [])
    (hone : (visitsBelow above inner).filter Visit.isOutermostAt =
      [⟨above ++ rest ++ [key], .tree block⟩]) :
    reference? (inner.withoutEntry key rest) = none := by
  have hmem : Visit.mk (above ++ rest ++ [key]) (.tree block) ∈ visitsBelow above inner :=
    (List.mem_filter.mp (hone ▸ List.mem_singleton_self _)).1
  cases rest with
  | nil => exact absurd rfl hrest
  | cons k rest =>
    obtain ⟨k', more, hmore⟩ : ∃ k' more, rest ++ [key] = k' :: more :=
      List.exists_cons_of_ne_nil (by simp)
    have hpath : above ++ k :: rest ++ [key] = above ++ k :: k' :: more := by simp [hmore]
    obtain ⟨found, hfound⟩ := exists_tree_of_mem_visitsBelow hpath hmem
    exact reference?_withoutEntry hinner hfound

/-- With a single visit to an outermost `@` key, to a block, the block has its place in the tree,
unless its entry leaves a reference behind. -/
theorem hoisted_withoutEntry {key : String} {block : StyleTree} {more above : List String}
    {tree : StyleTree} (habove : above.any Text.isAtKey = false) (hdistinct : tree.Distinct)
    (hbelow : every (fun _ node => node.isDistinct) tree = true)
    (hone : (visitsBelow above tree).filter Visit.isOutermostAt =
      [⟨above ++ more ++ [key], .tree block⟩])
    (hleft : ∀ left, ⟨above ++ more, .tree left⟩ ∈ visitsBelow above (tree.withoutEntry key more) →
      reference? left = none) :
    Hoisted key block more tree (tree.withoutEntry key more) := by
  induction more generalizing above tree with
  | nil =>
    obtain ⟨before, k, node, after, rfl, hbefore, hafter, hnode⟩ :=
      split_outermost habove hbelow hone
    rcases outermost_in_node habove hnode with ⟨-, rfl, rfl, hkey⟩ | ⟨rest, inner, hmore, -⟩
    · rw [withoutEntry_nil_split hkey hbefore hafter]
      exact Hoisted.here hbefore hafter
    · simp at hmore
  | cons k more ih =>
    obtain ⟨before, k', node, after, rfl, hbefore, hafter, hnode⟩ :=
      split_outermost habove hbelow hone
    rcases outermost_in_node habove hnode with
      ⟨hmore, -⟩ | ⟨rest, inner, hmore, rfl, hk, hinner, hone'⟩
    · simp at hmore
    obtain ⟨rfl, rfl⟩ := List.cons.inj hmore
    obtain ⟨hkbefore, hkafter⟩ := not_mem_of_distinct_split hdistinct
    rw [withoutEntry_split hkbefore hkafter] at hleft ⊢
    obtain ⟨hnodes, hinners⟩ := every_iff.mp hbelow k (.tree inner) (by simp)
    have hmem : (k, .tree (withoutEntry key more inner)) ∈
        before ++ (k, .tree (withoutEntry key more inner)) :: after := by simp
    have hleft' : reference? (withoutEntry key more inner) = none := by
      by_cases hnil : more = []
      · subst hnil
        exact hleft _ (mem_visitsBelow_of_mem hmem (mem_visitsNode_self _ _))
      · exact reference?_left (Node.isDistinct_tree.mp hnodes) hnil hone'
    refine Hoisted.inside hbefore hk hinner hleft' ?_ hafter
    refine ih (by simp [habove, hk]) (Node.isDistinct_tree.mp hnodes) hinners hone' ?_
    intro left hvisit
    refine hleft left (mem_visitsBelow_of_mem hmem ?_)
    rw [visitsNode, hleft', if_neg (by simp)]
    exact List.mem_append_left _ (by simpa using hvisit)

end StyleTree

/-! ## The walk of a tree with one outermost `@` key -/

namespace Collected

variable (options : Options) (scope : List String) (found : Collected)

/-- Changes the buckets only. -/
def mapBuckets (change : Buckets → Buckets) : Collected :=
  { found with buckets := change found.buckets }

/-- Leaves are declared alike before and after the buckets change. -/
theorem declareLeaf_mapBuckets (change : Buckets → Buckets) (leaf : Leaf) :
    (found.mapBuckets change).declareLeaf scope leaf =
      (found.declareLeaf scope leaf).map (mapBuckets · change) := by
  unfold declareLeaf declare
  dsimp only
  cases leaf.value.nonFinite? with
  | some number => rfl
  | none =>
    dsimp only
    cases leaf.value.written? _ with
    | none => rfl
    | some css =>
      dsimp only
      cases Selector.ofPath _ <;> rfl

theorem foldlM_declareLeaf_mapBuckets (change : Buckets → Buckets) (leaves : List Leaf) :
    leaves.foldlM (declareLeaf scope) (found.mapBuckets change) =
      (leaves.foldlM (declareLeaf scope) found).map (mapBuckets · change) := by
  induction leaves generalizing found with
  | nil => rfl
  | cons leaf rest ih =>
    rw [List.foldlM_cons, List.foldlM_cons, declareLeaf_mapBuckets]
    cases found.declareLeaf scope leaf with
    | error e => rfl
    | ok next => exact ih next

/-- Nothing below an `@` key is taken in. -/
theorem foldlM_visitsBelow_inAtRule {above : List String} (habove : above.any Text.isAtKey = true)
    (entries : StyleTree) :
    (StyleTree.visitsBelow above entries).foldlM (Collected.visit options scope) found =
      .ok found := by
  have hskip : ∀ visits : List Visit, (∀ visit ∈ visits, visit.inAtRule = true) →
      visits.foldlM (Collected.visit options scope) found = .ok found := by
    intro visits hin
    induction visits with
    | nil => rfl
    | cons visit rest ih =>
      have hvisit : Collected.visit options scope found visit = .ok found := by
        rw [Collected.visit, if_pos (hin visit (by simp))]
      rw [List.foldlM_cons, hvisit]
      exact ih fun other hother => hin other (by simp [hother])
  exact hskip _ fun visit => StyleTree.inAtRule_of_mem_visitsBelow habove

/-- The block of an outermost `@` key is filed below the keys above it. -/
theorem visit_block {key : String} (hkey : Text.isAtKey key = true) (hmedia : key ≠ "@media")
    (hfiled : Text.beginsWith "@layer" key = true ∨ Text.beginsWith "@container" key = true ∨
      ∃ query, Target.ofKey? options key = some (.media query)) :
    ∃ table header, ∀ (found : Collected) (above : List String) (block : StyleTree),
      above.any Text.isAtKey = false → StyleTree.reference? block = none →
      Collected.visit options scope found ⟨above ++ [key], .tree block⟩ =
        .ok (found.mapBuckets (·.file ⟨table, header, above, block⟩)) := by
  have hpath (above : List String) : above ++ [key] ≠ ["@media"] := fun h =>
    hmedia (by simpa using congrArg List.getLast? h)
  by_cases hlayer : Text.beginsWith "@layer" key = true
  · refine ⟨.layers, Text.trimmed key, fun found above block habove hnode => ?_⟩
    have hrole : (Visit.mk (above ++ [key]) (.tree block)).role = .layerBlock := by
      simp [Visit.role, Node.isLeaf_of_block hnode, hlayer]
    simp only [Collected.visit, Visit.inAtRule_mk, habove, hrole, Visit.key_mk, Visit.parents_mk,
      Node.block?_of_block hnode]
    rfl
  by_cases hcontainer : Text.beginsWith "@container" key = true
  · refine ⟨.containers, Text.trimmed key, fun found above block habove hnode => ?_⟩
    have hrole : (Visit.mk (above ++ [key]) (.tree block)).role = .containerBlock := by
      simp [Visit.role, Node.isLeaf_of_block hnode, hlayer, hcontainer]
    simp only [Collected.visit, Visit.inAtRule_mk, habove, hrole, Visit.key_mk, Visit.parents_mk,
      Node.block?_of_block hnode]
    rfl
  · obtain ⟨query, hquery⟩ := (hfiled.resolve_left hlayer).resolve_left hcontainer
    refine ⟨.media, query, fun found above block habove hnode => ?_⟩
    have hrole : (Visit.mk (above ++ [key]) (.tree block)).role = .reference := by
      simp [Visit.role, Node.isLeaf_of_block hnode, hlayer, hcontainer, hkey, hpath]
    simp only [Collected.visit, Visit.inAtRule_mk, habove, hrole, fileReference, Visit.key_mk,
      Visit.parents_mk, Node.block?_of_block hnode, hquery]
    rfl

end Collected

namespace StyleTree

mutual

theorem nodeAtDepth_of_plain : ∀ {node : Node},
    nodeEvery (fun key _ => !Text.isAtKey key) node = true → nodeAtDepth node = 0
  | .leaf _, _ => rfl
  | .tree entries, h => by
    rw [nodeAtDepth]
    exact atDepth_of_isPlain h

theorem atDepth_of_isPlain : ∀ {entries : List (String × Node)},
    every (fun key _ => !Text.isAtKey key) entries = true → atDepth entries = 0
  | [], _ => rfl
  | (key, node) :: rest, h => by
    simp only [every, Bool.and_eq_true, Bool.not_eq_true'] at h
    obtain ⟨⟨hkey, hnode⟩, hrest⟩ := h
    rw [atDepth, hkey, nodeAtDepth_of_plain hnode, atDepth_of_isPlain hrest]
    rfl

end

theorem atDepth_append (front back : StyleTree) :
    atDepth (front ++ back) = max front.atDepth back.atDepth := by
  induction front with
  | nil => simp [atDepth]
  | cons entry front ih => rw [List.cons_append, atDepth, ih, atDepth, Nat.max_assoc]

theorem atDepth_nest {above : List String} (habove : above.any Text.isAtKey = false)
    (block : StyleTree) : (nest above block).atDepth = block.atDepth := by
  induction above with
  | nil => rfl
  | cons k above ih =>
    rw [List.any_cons, Bool.or_eq_false_iff] at habove
    rw [nest_cons, atDepth, habove.1, nodeAtDepth, ih habove.2]
    simp [atDepth]

namespace Hoisted

variable {options : Options} {scope : List String} {key : String} {block : StyleTree}
  {above : List String} {tree left : StyleTree}

/-- Without its only outermost `@` key a tree is plain. -/
theorem isPlain_left (h : Hoisted key block above tree left) : left.isPlain = true := by
  induction h with
  | here hbefore hafter =>
    rw [isPlain, every_append]
    exact Bool.and_eq_true_iff.mpr ⟨hbefore, hafter⟩
  | inside hbefore hk _ _ _ hafter ih =>
    rw [isPlain, every_append, every_cons]
    simp only [Bool.and_eq_true]
    exact ⟨hbefore, ⟨by simp [hk], ih⟩, hafter⟩

theorem any_above (h : Hoisted key block above tree left) : above.any Text.isAtKey = false := by
  induction h with
  | here => rfl
  | inside _ hk _ _ _ _ ih => rw [List.any_cons, hk, ih, Bool.or_false]

theorem atDepth (h : Hoisted key block above tree left) (hkey : Text.isAtKey key = true) :
    tree.atDepth = 1 + block.atDepth := by
  induction h with
  | here hbefore hafter =>
    rw [atDepth_append, atDepth_of_isPlain hbefore, StyleTree.atDepth, atDepth_of_isPlain hafter,
      nodeAtDepth, if_pos hkey]
    omega
  | inside hbefore hk _ _ _ hafter ih =>
    rw [atDepth_append, atDepth_of_isPlain hbefore, StyleTree.atDepth, atDepth_of_isPlain hafter,
      nodeAtDepth, hk, ih]
    simp

/-- A walk of an entry between plain ones declares them on both sides of what it does at the entry,
if it declares some leaves there and changes the buckets. -/
theorem foldlM_visitsBelow_between {outer : List String} (houter : outer.any Text.isAtKey = false)
    {before after : StyleTree} (hbefore : before.isPlain = true) (hafter : after.isPlain = true)
    {k : String} {node : Node} {leaves : List Leaf} {change : Buckets → Buckets}
    (hnode : ∀ found : Collected,
      (visitsNode (outer ++ [k]) node).foldlM (Collected.visit options scope) found =
        (leaves.foldlM (Collected.declareLeaf scope) found).map (Collected.mapBuckets · change))
    (found : Collected) :
    (visitsBelow outer (before ++ (k, node) :: after)).foldlM
        (Collected.visit options scope) found =
      ((leavesBelow outer before ++ (leaves ++ leavesBelow outer after)).foldlM
        (Collected.declareLeaf scope) found).map (Collected.mapBuckets · change) := by
  rw [visitsBelow_append, visitsBelow, List.foldlM_append, List.foldlM_append,
    StyleTree.foldlM_visitsBelow options scope houter found hbefore]
  cases (leavesBelow outer before).foldlM (Collected.declareLeaf scope) found with
  | error e => rfl
  | ok next =>
    change List.foldlM _ next _ = Except.map _ (List.foldlM _ next _)
    rw [List.foldlM_append, List.foldlM_append, hnode next]
    cases leaves.foldlM (Collected.declareLeaf scope) next with
    | error e => rfl
    | ok last =>
      change List.foldlM _ (last.mapBuckets change) _ = Except.map _ (List.foldlM _ last _)
      rw [StyleTree.foldlM_visitsBelow options scope houter _ hafter,
        Collected.foldlM_declareLeaf_mapBuckets]

/-- A walk declares what is left of the tree and does with the block what a visit to it does to the
buckets, wherever it stands. -/
theorem foldlM_visitsBelow (h : Hoisted key block above tree left) {outer : List String}
    (houter : outer.any Text.isAtKey = false) (hkey : Text.isAtKey key = true)
    (hblock : reference? block = none) {act : List String → StyleTree → Buckets → Buckets}
    (hvisit : ∀ (found : Collected) (above : List String) (block : StyleTree),
      above.any Text.isAtKey = false → reference? block = none →
      Collected.visit options scope found ⟨above ++ [key], .tree block⟩ =
        .ok (found.mapBuckets (act above block))) (found : Collected) :
    (visitsBelow outer tree).foldlM (Collected.visit options scope) found =
      ((leavesBelow outer left).foldlM (Collected.declareLeaf scope) found).map
        (Collected.mapBuckets · (act (outer ++ above) block)) := by
  induction h generalizing outer found with
  | @here before after hbefore hafter =>
    rw [leavesBelow_append, List.append_nil, ← List.nil_append (leavesBelow outer after)]
    refine foldlM_visitsBelow_between houter hbefore hafter (fun found => ?_) found
    rw [visitsNode_of_block hblock, List.foldlM_append,
      Collected.foldlM_visitsBelow_inAtRule options scope found (by simp [hkey])]
    change List.foldlM (Collected.visit options scope) found [_] = _
    rw [List.foldlM_cons, hvisit found outer block houter hblock]
    rfl
  | @inside k above before inner left after hbefore hk hinner hleft h hafter ih =>
    have hbelow : (outer ++ [k]).any Text.isAtKey = false := by simp [houter, hk]
    rw [leavesBelow_append, leavesBelow, leavesNode_of_block hleft]
    refine foldlM_visitsBelow_between houter hbefore hafter (fun found => ?_) found
    rw [visitsNode_of_block hinner, List.foldlM_append, ih hbelow found]
    cases (leavesBelow (outer ++ [k]) left).foldlM (Collected.declareLeaf scope) found with
    | error e => rfl
    | ok next =>
      change List.foldlM (Collected.visit options scope) (next.mapBuckets _) [_] = _
      rw [List.foldlM_cons, Collected.visit_scope options scope _ houter hk hinner,
        List.append_assoc, List.singleton_append]
      rfl

end Hoisted

/-! ## The hoisted tree -/

section Hoist

variable (options : Options) {scope : List String} {key : String} {block : StyleTree}
  {above : List String} {tree left : StyleTree}

/-- The tree with the entry of a hoisted block at the end of its root. -/
def hoist (key : String) (block : StyleTree) (above : List String) (left : StyleTree) : StyleTree :=
  left ++ [(key, .tree (nest above block))]

/-- A tree collects to the same as the tree with its block hoisted. -/
theorem collect_hoist (h : Hoisted key block above tree left) (hkey : Text.isAtKey key = true)
    (hmedia : key ≠ "@media") (hblock : reference? block = none)
    (hfiled : Text.beginsWith "@layer" key = true ∨ Text.beginsWith "@container" key = true ∨
      ∃ query, Target.ofKey? options key = some (.media query)) :
    tree.collect options scope = (hoist key block above left).collect options scope := by
  obtain ⟨table, header, hvisit⟩ := Collected.visit_block options scope hkey hmedia hfiled
  have hnested : reference? (nest above block) = none := reference?_nest hblock above
  -- At the root the same block is filed, only nested before it is filed and not on the way.
  have hroot : Hoisted key (nest above block) [] (hoist key block above left) left := by
    have := @Hoisted.here key (nest above block) left [] h.isPlain_left rfl
    rwa [List.append_nil] at this
  rw [collect, collect, walk_eq_foldlM, walk_eq_foldlM]
  unfold visits
  rw [h.foldlM_visitsBelow rfl hkey hblock hvisit, hroot.foldlM_visitsBelow rfl hkey hnested hvisit]
  rfl

theorem atDepth_hoist (h : Hoisted key block above tree left) (hkey : Text.isAtKey key = true) :
    (hoist key block above left).atDepth = tree.atDepth := by
  rw [hoist, atDepth_append, atDepth_of_isPlain h.isPlain_left, h.atDepth hkey]
  simp only [atDepth, hkey, nodeAtDepth, if_true, atDepth_nest h.any_above]
  omega

/-- The depth of a tree and what it collects to determine what it compiles to. -/
theorem compile_eq_of_collect_eq {tree' : StyleTree} (hdepth : tree'.atDepth = tree.atDepth)
    (hcollect : ∀ scope, tree.collect options scope = tree'.collect options scope) :
    tree.compile options = tree'.compile options := by
  obtain ⟨steps, hsteps⟩ := steps_eq_add_two options tree
  have hsteps' : tree'.steps options = steps + 2 := by rw [← hsteps, StyleTree.steps, hdepth]; rfl
  rw [compile, compile, hsteps, hsteps', compileWithin, compileWithin, hcollect]

/-- Hoisting the block of the only outermost `@` key of a tree changes neither its stylesheet nor
its reports nor its error, unless the entry leaves a reference behind where it stood. The key names
a layer, a container query or a media query; the table of queries at `@media` is none of them. -/
theorem compile_hoist (hdistinct : tree.isDistinct = true)
    (hone : tree.visits.filter Visit.isOutermostAt = [⟨above ++ [key], .tree block⟩])
    (hblock : reference? block = none) (hmedia : key ≠ "@media")
    (hfiled : Text.beginsWith "@layer" key = true ∨ Text.beginsWith "@container" key = true ∨
      ∃ query, Target.ofKey? options key = some (.media query))
    (hleft : ∀ visit ∈ (tree.withoutEntry key above).visits, visit.path = above →
      visit.node.isLeaf = false) :
    tree.compile options =
      compile options (tree.withoutEntry key above ++ [(key, .tree (nest above block))]) := by
  have hkey : Text.isAtKey key = true := by
    have hmem := List.mem_filter.mp (hone ▸ List.mem_singleton_self _)
    rw [Visit.isOutermostAt_mk, Bool.and_eq_true] at hmem
    exact hmem.2.1
  obtain ⟨hroot, hbelow⟩ := isDistinct_iff.mp hdistinct
  have h : Hoisted key block above tree (tree.withoutEntry key above) := by
    refine hoisted_withoutEntry rfl hroot hbelow hone fun left hmem => ?_
    have hnode := hleft _ hmem rfl
    rwa [Node.isLeaf, Option.isSome_eq_false_iff, Option.isNone_iff_eq_none] at hnode
  exact compile_eq_of_collect_eq options (atDepth_hoist h hkey) fun scope =>
    collect_hoist options h hkey hmedia hblock hfiled

/-- The selectors above the key come back around the block, and an at-rule in the block is filed
when the bucket is compiled. -/
theorem compile_hoist_query :
    compile (Options.empty.withQuery "phone" "(max-width: 600px)")
        [("card", .tree [("color", .leaf (.text "red")),
            ("@phone", .tree [("title", .tree [("color", .leaf (.text "blue"))]),
              ("@layer base", .tree [("margin", .leaf (.text "0"))])])]),
          ("p", .tree [("color", .leaf (.text "green"))])] =
      compile (Options.empty.withQuery "phone" "(max-width: 600px)")
        [("card", .tree [("color", .leaf (.text "red"))]),
          ("p", .tree [("color", .leaf (.text "green"))]),
          ("@phone", .tree [("card", .tree [("title", .tree [("color", .leaf (.text "blue"))]),
            ("@layer base", .tree [("margin", .leaf (.text "0"))])])])] :=
  @compile_hoist (Options.empty.withQuery "phone" "(max-width: 600px)") "@phone"
    [("title", .tree [("color", .leaf (.text "blue"))]),
      ("@layer base", .tree [("margin", .leaf (.text "0"))])] ["card"]
    [("card", .tree [("color", .leaf (.text "red")),
        ("@phone", .tree [("title", .tree [("color", .leaf (.text "blue"))]),
          ("@layer base", .tree [("margin", .leaf (.text "0"))])])]),
      ("p", .tree [("color", .leaf (.text "green"))])]
    (by decide) rfl rfl (by decide) (Or.inr (Or.inr ⟨"(max-width: 600px)", by decide⟩))
    (by decide)

end Hoist

end StyleTree

end NestedStyles
