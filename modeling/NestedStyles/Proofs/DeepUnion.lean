import NestedStyles.Proofs.Merging

/-!
# Merging as a union

A merge is a deep union that prefers the second tree. Where both trees hold a map, the merge holds
the keys of both (`StyleTree.keys_merge`), and its values are those of the second tree and those of
the first that the second neither replaces nor cuts off (`StyleTree.union_merge`). Merging the same
tree again changes nothing, and merges of trees that agree where they hold values may be made in
either grouping (`StyleTree.laws_merge`).
-/

namespace NestedStyles

/-! ## Values on the way down a path -/

/-- A value stands above the end of a path exactly if a proper beginning of it leads to one. -/
theorem Node.endsAbove_iff {path : List String} {node : Node} : node.endsAbove path = true ↔
    ∃ above value, above <+: path ∧ above ≠ path ∧ node.down? above = some (.leaf value) := by
  induction path generalizing node with
  | nil =>
    rw [endsAbove]
    exact ⟨fun h => absurd h (by simp), fun ⟨above, _, hprefix, hne, _⟩ =>
      absurd (List.prefix_nil.mp hprefix) hne⟩
  | cons key path ih =>
    cases node with
    | leaf value =>
      exact ⟨fun _ => ⟨[], value, List.nil_prefix, by simp, rfl⟩, fun _ => rfl⟩
    | tree entries =>
      rw [endsAbove, Option.any_eq_true]
      constructor
      · rintro ⟨next, hnext, hends⟩
        obtain ⟨above, value, hprefix, hne, hdown⟩ := ih.mp hends
        have hbelow : key :: above <+: key :: path := List.cons_prefix_cons.mpr ⟨rfl, hprefix⟩
        refine ⟨key :: above, value, hbelow, by simpa using hne, ?_⟩
        rw [down?, hnext]
        exact hdown
      · rintro ⟨above, value, hprefix, hne, hdown⟩
        cases above with
        | nil => exact absurd hdown (by simp [down?])
        | cons k above =>
          obtain ⟨rfl, hrest⟩ := List.cons_prefix_cons.mp hprefix
          rw [down?] at hdown
          obtain ⟨next, hnext, hdown⟩ := Option.bind_eq_some_iff.mp hdown
          exact ⟨next, hnext, ih.mpr ⟨above, value, hrest, by simpa using hne, hdown⟩⟩

namespace StyleTree

theorem node?_nil (tree : StyleTree) : tree.node? [] = some (.tree tree) := rfl

/-- The maps of a tree with distinct keys have distinct keys. -/
theorem distinct_of_node? {tree entries : StyleTree} (h : tree.isDistinct = true)
    {path : List String} (hnode : tree.node? path = some (.tree entries)) : entries.Distinct := by
  rcases List.eq_nil_or_concat path with rfl | ⟨path, key, rfl⟩
  · obtain rfl : tree = entries := by simpa [node?_nil] using hnode
    exact (isDistinct_iff.mp h).1
  · rw [List.concat_eq_append] at hnode
    exact Node.isDistinct_tree.mp (every_of_node? (isDistinct_iff.mp h).2 hnode).1

section Union

variable {target source : StyleTree} (hsource : source.isDistinct = true)

include hsource

/-- Where both trees hold a map, the merge holds a map with the keys of both. -/
theorem keys_merge_at {path : List String} {old new : StyleTree}
    (hold : target.node? path = some (.tree old)) (hnew : source.node? path = some (.tree new)) :
    ∃ both : StyleTree, (target.merge source).node? path = some (.tree both) ∧
      both.keys = old.keys ++ new.keys.filter (· ∉ old.keys) := by
  refine ⟨old.merge new, ?_, keys_merge old (distinct_of_node? hsource hnew)⟩
  by_cases hpath : path = []
  · subst hpath
    obtain rfl : target = old := by simpa [node?_nil] using hold
    obtain rfl : source = new := by simpa [node?_nil] using hnew
    rfl
  · rw [node?_merge_of_some hsource hpath hnew, hold, mergeNode]

/-- A merge has the values of the second tree, and those of the first for which the second tree has
nothing at their path and no value above it. -/
theorem leaf_merge_iff {path : List String} {value : Value} :
    (target.merge source).node? path = some (.leaf value) ↔
      source.node? path = some (.leaf value) ∨ target.node? path = some (.leaf value) ∧
        source.node? path = none ∧ source.endsAbove path = false := by
  cases hnode : source.node? path with
  | none =>
    rw [node?_merge_of_none hsource hnode]
    cases source.endsAbove path <;> simp
  | some node =>
    have hwritten : (target.merge source).node? path = some (.leaf value) ↔ node = .leaf value := by
      by_cases hpath : path = []
      · subst hpath
        obtain rfl : .tree source = node := by simpa [node?_nil] using hnode
        simp [node?_nil]
      · rw [node?_merge_of_some hsource hpath hnode, Option.some.injEq]
        cases node with
        | leaf other => rfl
        | tree entries => simp [mergeNode_tree_ne_leaf]
    rw [hwritten]
    simp

/-- A merge is the deep union that prefers the second tree: maps that both trees hold are merged key
by key, the keys of the first tree in front, and the values are those of the second tree and those
of the first that it has no node for and no value above. -/
theorem union_merge :
    (∀ path old new, target.node? path = some (.tree old) →
      source.node? path = some (.tree new) →
      ∃ both : StyleTree, (target.merge source).node? path = some (.tree both) ∧
        both.keys = Entries.keys old ++ (Entries.keys new).filter (· ∉ Entries.keys old)) ∧
    ∀ path value, (target.merge source).node? path = some (.leaf value) ↔
      source.node? path = some (.leaf value) ∨
        target.node? path = some (.leaf value) ∧ source.node? path = none ∧
          ∀ above, above <+: path → above ≠ path →
            ∀ other, source.node? above ≠ some (.leaf other) := by
  refine ⟨fun path old new => keys_merge_at hsource, fun path value => ?_⟩
  have hends : source.endsAbove path = false ↔ ∀ above, above <+: path → above ≠ path →
      ∀ other, source.node? above ≠ some (.leaf other) := by
    rw [← Bool.not_eq_true, endsAbove, Node.endsAbove_iff]
    constructor
    · intro h above hprefix hne other hother
      exact h ⟨above, other, hprefix, hne, hother⟩
    · rintro h ⟨above, other, hprefix, hne, hother⟩
      exact h above hprefix hne other hother
  rw [leaf_merge_iff hsource, hends]

end Union

/-- Two maps at one key are merged, and a value beside them stays. -/
theorem union_merge_kept :
    isDistinct [("p", .tree [("span", .tree [])])] = true ∧
      (∃ both : StyleTree, node? ["p"] (merge [("mask", .leaf .null),
          ("p", .tree [("color", .leaf .null)])] [("p", .tree [("span", .tree [])])]) =
            some (.tree both) ∧ both.keys = ["color"] ++ ["span"].filter (· ∉ ["color"])) ∧
      node? ["mask"] (merge [("mask", .leaf .null), ("p", .tree [("color", .leaf .null)])]
        [("p", .tree [("span", .tree [])])]) = some (.leaf .null) := by
  have hdistinct : isDistinct [("p", .tree [("span", .tree [])])] = true := by decide
  refine ⟨hdistinct, (union_merge hdistinct).1 ["p"] [("color", .leaf .null)] _ rfl rfl,
    ((union_merge hdistinct).2 ["mask"] .null).mpr (Or.inr ⟨rfl, rfl, ?_⟩)⟩
  intro above hprefix hne other hother
  rcases List.prefix_cons_iff.mp hprefix with rfl | ⟨rest, rfl, hrest⟩
  · exact absurd hother (by simp [node?_nil])
  · exact hne (by rw [List.prefix_nil.mp hrest])

/-! ## Laws of merging -/

/-- What holds of a tree if it holds of all maps right below it holds of all trees. -/
@[elab_as_elim]
theorem maps_induction {motive : StyleTree → Prop}
    (step : ∀ tree : StyleTree, (∀ key entries, (key, .tree entries) ∈ tree → motive entries) →
      motive tree) (tree : StyleTree) : motive tree :=
  step tree fun _ entries _ => maps_induction step entries
termination_by sizeOf tree
decreasing_by
  have hentry := List.sizeOf_lt_of_mem ‹_›
  simp only [Prod.mk.sizeOf_spec, Node.tree.sizeOf_spec] at hentry
  omega

/-- What stands at a key when what a tree holds there is written over what another one holds. -/
def mergeAt (old new : Option Node) : Option Node := (new.map (mergeNode old)).or old

theorem get?_merge_eq {target source : StyleTree} (hsource : source.isDistinct = true)
    (key : String) : (target.merge source).get? key = mergeAt (target.get? key) (source.get? key) :=
  get?_merge (isDistinct_iff.mp hsource).1 key

theorem mergeAt_none_left (new : Option Node) : mergeAt none new = new := by
  rcases new with _ | value | entries
  · rfl
  · rfl
  · rfl

theorem mergeAt_none_right (old : Option Node) : mergeAt old none = old := rfl

/-- A tree that is written over itself stays as it is. -/
theorem merge_self {tree : StyleTree} (h : tree.isDistinct = true) : tree.merge tree = tree := by
  induction tree using maps_induction with
  | step tree ih =>
    have hroot := (isDistinct_iff.mp h).1
    refine (Distinct.merge hroot).eq_of_view ?_ fun key => ?_
    · rw [keys_merge tree hroot, List.filter_eq_nil_iff.mpr (by simp), List.append_nil]
    · rw [get?_merge_eq h]
      cases hnode : tree.get? key with
      | none => rfl
      | some node =>
        cases node with
        | leaf value => rfl
        | tree entries =>
          have hmem := Entries.mem_of_get? hnode
          have hself := ih key entries hmem (isDistinct_of_mem h hmem)
          exact congrArg (fun inner => some (Node.tree inner)) hself

/-- A tree that is written a second time changes nothing. -/
theorem merge_merge_self {target source : StyleTree} (htarget : target.isDistinct = true)
    (hsource : source.isDistinct = true) :
    (target.merge source).merge source = target.merge source := by
  induction source using maps_induction generalizing target with
  | step source ih =>
    have hroot := (isDistinct_iff.mp hsource).1
    have hmerge : (target.merge source).Distinct := Distinct.merge (isDistinct_iff.mp htarget).1
    refine (Distinct.merge hmerge).eq_of_view ?_ fun key => ?_
    · have hnew : source.keys.filter (· ∉ (target.merge source).keys) = [] := by
        rw [List.filter_eq_nil_iff, keys_merge target hroot]
        intro key hkey
        simp [hkey, Classical.em]
      rw [keys_merge _ hroot, hnew, List.append_nil]
    · rw [get?_merge_eq hsource, get?_merge_eq hsource]
      cases hnode : source.get? key with
      | none => rfl
      | some node =>
        cases node with
        | leaf value => rfl
        | tree entries =>
          have hmem := Entries.mem_of_get? hnode
          have hentries := isDistinct_of_mem hsource hmem
          have hself := congrArg (fun inner => some (Node.tree inner)) (merge_self hentries)
          cases hold : target.get? key with
          | none => exact hself
          | some old =>
            cases old with
            | leaf value => exact hself
            | tree existing =>
              have hexisting := isDistinct_of_mem htarget (Entries.mem_of_get? hold)
              exact congrArg (fun inner => some (Node.tree inner))
                (ih key entries hmem hexisting hentries)

/-- No path leads to a value in one of the trees and to a map in another. -/
def Agree (trees : List StyleTree) : Prop :=
  ∀ tree ∈ trees, ∀ other ∈ trees, ∀ path value entries,
    tree.node? path = some (.leaf value) → other.node? path ≠ some (.tree entries)

/-- Maps that trees hold at one key agree if the trees do. -/
theorem Agree.below {trees inner : List StyleTree} (h : Agree trees) (key : String)
    (hinner : ∀ entries ∈ inner, ∃ tree ∈ trees, tree.get? key = some (.tree entries)) :
    Agree inner := by
  intro entries hentries other hother path value below hvalue hbelow
  obtain ⟨tree, htree, hget⟩ := hinner entries hentries
  obtain ⟨second, hsecond, hget'⟩ := hinner other hother
  refine h tree htree second hsecond (key :: path) value below ?_ ?_
  · rw [node?_cons, hget]
    exact hvalue
  · rw [node?_cons, hget']
    exact hbelow

/-- Trees that agree do not hold a value and a map at one key. -/
theorem Agree.at_key {trees : List StyleTree} (h : Agree trees) {tree other : StyleTree}
    (htree : tree ∈ trees) (hother : other ∈ trees) {key : String} {value : Value}
    {entries : StyleTree} (hvalue : tree.get? key = some (.leaf value)) :
    other.get? key ≠ some (.tree entries) := fun hentries =>
  h tree htree other hother [key] value entries (by rw [node?_cons, hvalue]; rfl)
    (by rw [node?_cons, hentries]; rfl)

/-- The keys of merges do not depend on the grouping. -/
theorem keys_merge_assoc (a : StyleTree) {b c : StyleTree} (hb : b.Distinct) (hc : c.Distinct) :
    ((a.merge b).merge c).keys = (a.merge (b.merge c)).keys := by
  rw [keys_merge _ hc, keys_merge _ hb, keys_merge _ (Distinct.merge hb), keys_merge _ hc,
    List.filter_append, List.filter_filter, List.append_assoc]
  congr 2
  refine List.filter_congr fun key _ => ?_
  by_cases ha : key ∈ a.keys
  · simp [ha]
  · simp [ha]

/-- At one key the grouping matters only if a map is written over a value that has replaced another
map. -/
theorem mergeAt_assoc {a b c : Option Node}
    (hvalue : ∀ value entries, b = some (.leaf value) → c ≠ some (.tree entries))
    (hmaps : ∀ x y z : StyleTree, a = some (.tree x) → b = some (.tree y) → c = some (.tree z) →
      (x.merge y).merge z = x.merge (y.merge z)) :
    mergeAt (mergeAt a b) c = mergeAt a (mergeAt b c) := by
  rcases c with _ | value | z
  · rfl
  · rfl
  · rcases b with _ | value | y
    · rw [mergeAt_none_right, mergeAt_none_left]
    · exact absurd rfl (hvalue value z rfl)
    · rcases a with _ | value | x
      · rw [mergeAt_none_left, mergeAt_none_left]
      · rfl
      · exact congrArg (fun inner => some (Node.tree inner)) (hmaps x y z rfl rfl rfl)

/-- Merges of trees that agree do not depend on the grouping. -/
theorem merge_assoc_of_agree {a b c : StyleTree} (ha : a.isDistinct = true)
    (hb : b.isDistinct = true) (hc : c.isDistinct = true) (h : Agree [a, b, c]) :
    (a.merge b).merge c = a.merge (b.merge c) := by
  induction a using maps_induction generalizing b c with
  | step a ih =>
    have hroot : ((a.merge b).merge c).Distinct :=
      Distinct.merge (Distinct.merge (isDistinct_iff.mp ha).1)
    refine hroot.eq_of_view (keys_merge_assoc a (isDistinct_iff.mp hb).1 (isDistinct_iff.mp hc).1)
      fun key => ?_
    rw [get?_merge_eq hc, get?_merge_eq hb, get?_merge_eq (isDistinct_merge hb hc),
      get?_merge_eq hc]
    refine mergeAt_assoc (fun _ _ hvalue => h.at_key (by simp) (by simp) hvalue)
      fun x y z hx hy hz => ?_
    have hx' := Entries.mem_of_get? hx
    refine ih key x hx' (isDistinct_of_mem ha hx') (isDistinct_of_mem hb (Entries.mem_of_get? hy))
      (isDistinct_of_mem hc (Entries.mem_of_get? hz)) (h.below key fun entries hentries => ?_)
    simp only [List.mem_cons, List.not_mem_nil, or_false] at hentries
    rcases hentries with rfl | rfl | rfl
    · exact ⟨a, by simp, hx⟩
    · exact ⟨b, by simp, hy⟩
    · exact ⟨c, by simp, hz⟩

/-- Writing a tree a second time, or over itself, changes nothing; the empty tree is neutral; and
merges of trees that agree where they hold values do not depend on the grouping. -/
theorem laws_merge :
    (∀ target source : StyleTree, target.isDistinct = true → source.isDistinct = true →
      (target.merge source).merge source = target.merge source ∧
        target.merge target = target ∧ merge [] target = target ∧ target.merge [] = target) ∧
    ∀ a b c : StyleTree, a.isDistinct = true → b.isDistinct = true → c.isDistinct = true →
      Agree [a, b, c] → (a.merge b).merge c = a.merge (b.merge c) :=
  ⟨fun _ _ htarget hsource => ⟨merge_merge_self htarget hsource, merge_self htarget,
    merge_nil_left (isDistinct_iff.mp htarget).1, rfl⟩,
    fun _ _ _ ha hb hc h => merge_assoc_of_agree ha hb hc h⟩

/-- Three trees with a map at the same key, of which the first and the last have a value in
common. -/
theorem laws_merge_shared_map :
    isDistinct [("p", .tree [("x", .leaf .null)])] = true ∧
      isDistinct [("p", .tree [("y", .leaf .null)])] = true ∧
      isDistinct [("p", .tree [("x", .leaf (.bool true))])] = true ∧
      Agree [[("p", .tree [("x", .leaf .null)])], [("p", .tree [("y", .leaf .null)])],
        [("p", .tree [("x", .leaf (.bool true))])]] ∧
      merge (merge [("p", .tree [("x", .leaf .null)])] [("p", .tree [("y", .leaf .null)])])
          [("p", .tree [("x", .leaf (.bool true))])] =
        merge [("p", .tree [("x", .leaf .null)])] (merge [("p", .tree [("y", .leaf .null)])]
          [("p", .tree [("x", .leaf (.bool true))])]) := by
  have hlength {key : String} {value : Value} {path : List String} {node : Node}
      (h : node? path [("p", .tree [(key, .leaf value)])] = some node) :
      path.length = 2 ↔ ∃ other, node = .leaf other := by
    rcases path with _ | ⟨k, path⟩
    · obtain rfl := Option.some.inj h
      simp
    rw [node?_cons] at h
    obtain ⟨map, hmap, h⟩ := Option.bind_eq_some_iff.mp h
    obtain ⟨-, rfl⟩ : "p" = k ∧ .tree [(key, .leaf value)] = map := by
      simpa [Entries.get?] using hmap
    rcases path with _ | ⟨l, path⟩
    · obtain rfl := Option.some.inj h
      simp
    obtain ⟨leaf, hleaf, h⟩ := Option.bind_eq_some_iff.mp h
    obtain ⟨-, rfl⟩ : key = l ∧ .leaf value = leaf := by simpa [Entries.get?] using hleaf
    rcases path with _ | ⟨m, rest⟩
    · obtain rfl := Option.some.inj h
      simp
    · exact absurd h (by simp [Node.down?])
  have hagree : Agree [[("p", .tree [("x", .leaf .null)])], [("p", .tree [("y", .leaf .null)])],
      [("p", .tree [("x", .leaf (.bool true))])]] := by
    intro tree htree other hother path value entries hvalue hentries
    simp only [List.mem_cons, List.not_mem_nil, or_false] at htree hother
    have htwo : path.length = 2 := by
      rcases htree with rfl | rfl | rfl <;> exact (hlength hvalue).mpr ⟨value, rfl⟩
    have hleaf : ∃ value, Node.tree entries = .leaf value := by
      rcases hother with rfl | rfl | rfl <;> exact (hlength hentries).mp htwo
    exact Node.noConfusion hleaf.choose_spec
  exact ⟨by decide, by decide, by decide, hagree,
    laws_merge.2 _ _ _ (by decide) (by decide) (by decide) hagree⟩

end StyleTree

end NestedStyles
