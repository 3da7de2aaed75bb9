import NestedStyles.Proofs.FiledLeaves

/-!
# The last write in a bucket

Merging writes a value where its key first stood. So a bucket holds the last value that was filed at
a path (`StyleTree.leaf_of_last_filed`), and its own order decides between paths that spell one
selector. What is collected from a bucket stands at the last path of the bucket that declares it,
and it is what was filed there last (`StyleTree.value?_eq_last_filed`).
-/

namespace NestedStyles

/-- A declaration and the path of the leaf that makes it. -/
structure Placed where
  path : List String
  declared : Declared
deriving DecidableEq

/-- The declarations of a leaf, at its path. -/
def Leaf.placed (leaf : Leaf) : List Placed := leaf.declared.map (⟨leaf.path, ·⟩)

/-- The declarations of a tree in the order of the document, each at its path. -/
def StyleTree.placed (tree : StyleTree) : List Placed := tree.leaves.flatMap Leaf.placed

namespace Placed

/-- The declarations of a property under a selector. -/
def under (s p : String) (list : List Placed) : List Placed :=
  list.filter fun d => d.declared.selector = s && d.declared.property = p

/-- The declarations at a path. -/
def below (path : List String) (list : List Placed) : List Placed := list.filter (·.path = path)

theorem eq_of_mem_under {s p : String} {list : List Placed} {d : Placed} (h : d ∈ under s p list) :
    d = ⟨d.path, s, p, d.declared.value⟩ := by
  obtain ⟨-, hd⟩ := List.mem_filter.mp h
  simp only [Bool.and_eq_true, decide_eq_true_eq] at hd
  obtain ⟨rfl, rfl⟩ := hd
  rfl

theorem map_declared_placed (tree : StyleTree) : tree.placed.map declared = tree.declared := by
  rw [StyleTree.placed, StyleTree.declared, List.map_flatMap]
  congr 1
  funext leaf
  rw [Leaf.placed, List.map_map]
  exact List.map_id _

/-- The last value of a property under a selector is that of its last declaration. -/
theorem last?_under (s p : String) (list : List Placed) :
    Declared.last? p (Declared.under s (list.map declared)) =
      (under s p list).getLast?.map (·.declared.value) := by
  have hfilter : ((list.map declared).filter (·.selector = s)).filter (·.property = p) =
      (under s p list).map declared := by
    rw [List.filter_map, List.filter_map, List.filter_filter, under]
    refine congrArg (List.map _) (List.filter_congr fun d _ => ?_)
    exact Bool.and_comm _ _
  rw [Declared.last?, Declared.under, hfilter, List.getLast?_map, Option.map_map]
  rfl

/-- The last declaration of a list is the last one at its path. -/
theorem getLast?_below {s p : String} {list : List Placed} {last : Placed}
    (h : (under s p list).getLast? = some last) :
    (under s p (below last.path list)).getLast? = some last := by
  have hcomm : under s p (below last.path list) = below last.path (under s p list) := by
    rw [under, below, List.filter_filter, below, under, List.filter_filter]
    exact List.filter_congr fun d _ => Bool.and_comm _ _
  obtain ⟨front, hfront⟩ := List.getLast?_eq_some_iff.mp h
  have hself : [last].filter (·.path = last.path) = [last] := by simp
  rw [hcomm, hfront, below, List.filter_append, hself, List.getLast?_concat]

end Placed

/-- A leaf is known by its path and its value. -/
theorem Leaf.eq_of_path_eq {a b : Leaf} (h : a.path = b.path) :
    a = ⟨b.parents, b.key, a.value⟩ := by
  obtain ⟨parents, key, value⟩ := a
  obtain ⟨rfl, hkey⟩ := List.append_inj' h rfl
  obtain rfl : key = b.key := by simpa using hkey
  rfl

/-- A leaf declares one value. -/
theorem Leaf.eq_of_mem_declared {leaf : Leaf} {d e : Declared} (hd : d ∈ leaf.declared)
    (he : e ∈ leaf.declared) (h : d.selector = e.selector) : d = e := by
  obtain ⟨s, p, css⟩ := d
  obtain ⟨t, q, other⟩ := e
  obtain ⟨hcss, rfl, -⟩ := mem_declared.mp hd
  obtain ⟨hother, rfl, -⟩ := mem_declared.mp he
  obtain rfl : s = t := h
  obtain rfl : css = other := Option.some.inj (hcss.symm.trans hother)
  rfl

namespace StyleTree

/-- A leaf of a tree with distinct keys is the only one at its path. -/
theorem leaf_eq_of_path_eq {tree : StyleTree} (hdistinct : tree.isDistinct = true) {a b : Leaf}
    (ha : a ∈ tree.leaves) (hb : b ∈ tree.leaves) (hpath : a.path = b.path) : a = b := by
  obtain ⟨node, hnode, hvalue⟩ := node?_of_mem_leaves hdistinct ha
  obtain ⟨node', hnode', hvalue'⟩ := node?_of_mem_leaves hdistinct hb
  rw [hpath, hnode', Option.some.injEq] at hnode
  subst hnode
  rw [Leaf.eq_of_path_eq hpath, Option.some.inj (hvalue.symm.trans hvalue')]

/-- The declarations at a path are those of a leaf there. -/
theorem exists_leaf_of_mem_below {tree : StyleTree} {path : List String} {d : Placed}
    (h : d ∈ Placed.below path tree.placed) :
    d.path = path ∧ ∃ leaf ∈ tree.leaves, leaf.path = path ∧ d.declared ∈ leaf.declared := by
  obtain ⟨hplaced, hpath⟩ := List.mem_filter.mp h
  obtain ⟨leaf, hleaf, hd⟩ := List.mem_flatMap.mp hplaced
  obtain ⟨declared, hdeclared, rfl⟩ := List.mem_map.mp hd
  exact ⟨of_decide_eq_true hpath, leaf, hleaf, of_decide_eq_true hpath, hdeclared⟩

section Below

variable {tree : StyleTree} (hdistinct : tree.isDistinct = true)

include hdistinct

/-- Nothing is declared at a path where nothing stands. -/
theorem below_eq_nil {path : List String} (h : tree.node? path = none) :
    Placed.below path tree.placed = [] := by
  refine List.eq_nil_iff_forall_not_mem.mpr fun d hd => ?_
  obtain ⟨-, leaf, hleaf, rfl, -⟩ := exists_leaf_of_mem_below hd
  obtain ⟨node, hnode, -⟩ := node?_of_mem_leaves hdistinct hleaf
  exact absurd (hnode.symm.trans h) (by simp)

/-- The last declaration at the path of a leaf is the leaf's own. -/
theorem getLast?_under_below {leaf : Leaf} (hleaf : leaf ∈ tree.leaves) {d : Declared}
    (hd : d ∈ leaf.declared) :
    (Placed.under d.selector d.property (Placed.below leaf.path tree.placed)).getLast? =
      some ⟨leaf.path, d⟩ := by
  have hown : ⟨leaf.path, d⟩ ∈
      Placed.under d.selector d.property (Placed.below leaf.path tree.placed) := by
    refine List.mem_filter.mpr ⟨List.mem_filter.mpr ⟨?_, by simp⟩, by simp⟩
    exact List.mem_flatMap.mpr ⟨leaf, hleaf, List.mem_map_of_mem hd⟩
  obtain ⟨last, hlast⟩ : ∃ last, (Placed.under d.selector d.property
      (Placed.below leaf.path tree.placed)).getLast? = some last :=
    Option.ne_none_iff_exists'.mp fun h =>
      List.ne_nil_of_mem hown (List.getLast?_eq_none_iff.mp h)
  obtain ⟨hbelow, hsame⟩ := List.mem_filter.mp (List.mem_of_getLast? hlast)
  obtain ⟨hpath, other, hother, hotherpath, hdeclared⟩ := exists_leaf_of_mem_below hbelow
  obtain rfl := leaf_eq_of_path_eq hdistinct hother hleaf hotherpath
  simp only [Bool.and_eq_true, decide_eq_true_eq] at hsame
  have heq : last.declared = d := Leaf.eq_of_mem_declared hdeclared hd hsame.1
  rw [hlast, ← hpath, ← heq]

end Below

/-- Two references with the same text are written alike. -/
theorem written?_reference (property css : String) (name other : Option String) :
    (Value.reference css name).written? property =
      (Value.reference css other).written? property := by
  unfold Value.written?
  split <;> rfl

/-- A leaf that is written over something is written for every property as it is alone. -/
theorem written?_of_mergeNode {old : Option Node} {written node : Node} {value other : Value}
    (hdistinct : written.isDistinct = true) (hwritten : written.value? = some value)
    (hnode : node = mergeNode old written) (hother : node.value? = some other)
    (property : String) : other.written? property = value.written? property := by
  subst hnode
  cases written with
  | leaf leaf =>
    obtain rfl : leaf = value := Option.some.inj hwritten
    obtain rfl : leaf = other := Option.some.inj hother
    rfl
  | tree entries =>
    obtain ⟨css, name, rfl⟩ := eq_reference_of_reference? hwritten
    have hvar := get?_var_of_reference? hwritten
    rcases old with _ | leaf | existing
    · obtain rfl := Option.some.inj (hwritten.symm.trans hother)
      rfl
    · obtain rfl := Option.some.inj (hwritten.symm.trans hother)
      rfl
    · obtain ⟨css', name', rfl⟩ := eq_reference_of_reference? hother
      have hmerged := get?_var_of_reference? hother
      rw [get?_merge (Node.isDistinct_tree.mp hdistinct), hvar] at hmerged
      obtain rfl : css = css' := by simpa [mergeNode] using hmerged
      exact written?_reference property css name' name

section Bucket

variable {options : Options} {scope : List String} {tree : StyleTree} {found : Collected}
  {table : Table} {header : String}

/-- The declarations of the blocks filed into one bucket, block by block. -/
def filedPlaced (options : Options) (table : Table) (header : String) (tree : StyleTree) :
    List Placed :=
  (tree.filedUnder options table header).flatMap fun f => f.tree.placed

/-- The last block that holds anything at the path has a leaf there. It need not have one: two maps
of different blocks may stand for a reference together, and a map that stands for one in its block
may stand for none in the bucket. -/
def ReadsAt (options : Options) (table : Table) (header : String) (tree : StyleTree)
    (path : List String) : Prop :=
  ∀ f, ((tree.filedUnder options table header).filter fun f => (f.tree.node? path).isSome).getLast? =
    some f → ∃ leaf ∈ f.tree.leaves, leaf.path = path

/-- No block declares a `color` here, and the bucket does. -/
example :
    let options := Options.empty.withQuery "phone" "(max-width: 600px)"
    let tree : StyleTree := [("div", .tree [("@phone", .tree [("color", .tree
        [("var", .leaf (.text "--ink")), ("name", .leaf .null)])])]),
      ("@phone", .tree [("div", .tree [("color", .tree [("name", .leaf (.text "ink"))])])])]
    (bucket options .media "(max-width: 600px)" tree).declared = [⟨"div", "color", "--ink"⟩] ∧
      ∀ f ∈ filedUnder options .media "(max-width: 600px)" tree, ∀ d ∈ f.tree.declared,
        d.property ≠ "color" := by decide

/-- A leaf of a bucket has what the last block that holds anything at its path declares there. -/
theorem leaf_of_last_filed (hdistinct : tree.isDistinct = true) {leaf : Leaf}
    (hleaf : leaf ∈ (tree.bucket options table header).leaves)
    (hreads : ReadsAt options table header tree leaf.path) :
    ∃ before f after value, tree.filedUnder options table header = before ++ f :: after ∧
      (∀ later ∈ after, later.tree.node? leaf.path = none) ∧
      ⟨leaf.parents, leaf.key, value⟩ ∈ f.tree.leaves ∧
      ∀ property, leaf.value.written? property = value.written? property := by
  have hsound : ∀ f ∈ tree.filedUnder options table header, f.Sound :=
    fun f => sound_of_mem_filedUnder hdistinct
  have htrees : ∀ t ∈ (tree.filedUnder options table header).map Filing.tree,
      t.isDistinct = true := by
    intro t ht
    obtain ⟨f, hf, rfl⟩ := List.mem_map.mp ht
    exact (hsound f hf).isDistinct_tree
  obtain ⟨node, hnode, hvalue⟩ := node?_of_mem_leaves (isDistinct_bucket hdistinct) hleaf
  obtain ⟨before, last, after, written, hsplit, hwritten, hafter, hmerged⟩ :=
    exists_last_of_node?_mergeAll (by simp [Leaf.path]) htrees hnode
  obtain ⟨before, rest, hfiled, rfl, hrest⟩ := List.map_eq_append_iff.mp hsplit
  obtain ⟨f, after, rfl, rfl, rfl⟩ := List.map_eq_cons_iff.mp hrest
  have hlater : ∀ later ∈ after, later.tree.node? leaf.path = none :=
    fun later hlater => hafter _ (List.mem_map_of_mem hlater)
  have hdistinctFiled := (hsound f (by simp [hfiled])).isDistinct_tree
  have hholds : [f].filter (fun f => (f.tree.node? leaf.path).isSome) = [f] := by simp [hwritten]
  have hnone : after.filter (fun f => (f.tree.node? leaf.path).isSome) = [] :=
    List.filter_eq_nil_iff.mpr fun later h => by simp [hlater later h]
  obtain ⟨own, hown, hpath⟩ := hreads f <| by
    rw [hfiled, ← List.singleton_append, List.filter_append, List.filter_append, hholds, hnone,
      List.append_nil, List.getLast?_concat]
  obtain ⟨node', hnode', hownValue⟩ := node?_of_mem_leaves hdistinctFiled hown
  obtain rfl : node' = written := by
    rw [hpath, hwritten, Option.some.injEq] at hnode'
    exact hnode'.symm
  have hwell := (every_of_node? (isDistinct_iff.mp hdistinctFiled).2 hwritten).1
  have heq : own = ⟨leaf.parents, leaf.key, own.value⟩ := Leaf.eq_of_path_eq hpath
  refine ⟨before, f, after, own.value, hfiled, hlater, heq ▸ hown, fun property => ?_⟩
  exact written?_of_mergeNode hwell hownValue hmerged hvalue property

/-- The declaration that a leaf of a bucket makes is the last one filed at its path. -/
theorem last_filed_of_leaf (hdistinct : tree.isDistinct = true) {leaf : Leaf}
    (hleaf : leaf ∈ (tree.bucket options table header).leaves)
    (hreads : ReadsAt options table header tree leaf.path) {d : Declared}
    (hd : d ∈ leaf.declared) :
    (Placed.under d.selector d.property
      (Placed.below leaf.path (filedPlaced options table header tree))).getLast? =
        some ⟨leaf.path, d⟩ := by
  obtain ⟨before, f, after, value, hfiled, hafter, hin, hsame⟩ :=
    leaf_of_last_filed hdistinct hleaf hreads
  have hf : f ∈ tree.filedUnder options table header := by simp [hfiled]
  have hdeclared : (Leaf.mk leaf.parents leaf.key value).declared = leaf.declared := by
    unfold Leaf.declared
    rw [hsame leaf.property]
    rfl
  have hsound : ∀ f ∈ tree.filedUnder options table header, f.Sound :=
    fun f => sound_of_mem_filedUnder hdistinct
  have hlater : (after.flatMap fun f => f.tree.placed).filter (·.path = leaf.path) = [] := by
    rw [List.filter_flatMap, List.flatMap_eq_nil_iff]
    intro later hlater
    have := (hsound later (by simp [hfiled, hlater])).isDistinct_tree
    exact below_eq_nil this (hafter later hlater)
  have hlast := getLast?_under_below (hsound f (by simp [hfiled])).isDistinct_tree hin
    (hdeclared ▸ hd)
  have hsplit : Placed.below leaf.path (filedPlaced options table header tree) =
      Placed.below leaf.path (before.flatMap fun f => f.tree.placed) ++
        Placed.below leaf.path f.tree.placed := by
    rw [filedPlaced, hfiled, List.flatMap_append, List.flatMap_cons, Placed.below,
      List.filter_append, List.filter_append, hlater, List.append_nil]
    rfl
  rw [Placed.under] at hlast
  rw [hsplit, Placed.under, List.filter_append, List.getLast?_append]
  exact congrArg (Option.or · _) hlast

/-- What the rule set of a bucket holds for a selector and property stands at the path of the last
declaration of the bucket itself, and it is what the blocks filed into the bucket declare last at
that path. It is the last of all that they declare if that stands at the same path. -/
theorem value?_eq_last_filed (hdistinct : tree.isDistinct = true)
    (hfound : tree.collect options scope = .ok found)
    (hplain : ∀ f ∈ tree.filedUnder options table header,
      f.block.isPlain = true ∧ f.block.isFinite = true)
    {bucket : StyleTree} (hbucket : (found.buckets.table table).get? header = some bucket)
    (scope' : List String) :
    ∃ inner, bucket.collect options scope' = .ok inner ∧
      ∀ s p css, inner.rules.value? s p = some css →
        ∃ path, (Placed.under s p bucket.placed).getLast? = some ⟨path, s, p, css⟩ ∧
          (ReadsAt options table header tree path →
            (Placed.under s p
              (Placed.below path (filedPlaced options table header tree))).getLast? =
                some ⟨path, s, p, css⟩ ∧
            ∀ last, (Placed.under s p (filedPlaced options table header tree)).getLast? =
                some last → last.path = path → last.declared.value = css) := by
  obtain rfl : tree.bucket options table header = bucket := by
    have h := get?_table_collect hfound table header
    rw [hbucket] at h
    split at h
    · simp at h
    · exact (Option.some.inj h).symm
  obtain ⟨inner, hinner, hrules, -⟩ := collect_plain options scope'
    (isPlain_bucket hdistinct fun f hf => (hplain f hf).1)
    (isFinite_bucket fun f hf => (hplain f hf).2)
  refine ⟨inner, hinner, fun s p css hcss => ?_⟩
  rw [hrules, RuleSet.value?_ofDeclared, ← Placed.map_declared_placed, Placed.last?_under,
    Option.map_eq_some_iff] at hcss
  obtain ⟨⟨path, s', p', css⟩, hd, rfl⟩ := hcss
  obtain ⟨rfl, rfl⟩ : s' = s ∧ p' = p := by
    simpa using Placed.eq_of_mem_under (List.mem_of_getLast? hd)
  refine ⟨path, hd, fun hreads => ?_⟩
  obtain ⟨hplaced, -⟩ := List.mem_filter.mp (List.mem_of_getLast? hd)
  obtain ⟨leaf, hleaf, hin⟩ := List.mem_flatMap.mp hplaced
  obtain ⟨declared, hdeclared, heq⟩ := List.mem_map.mp hin
  obtain ⟨rfl, rfl⟩ := Placed.mk.inj heq
  have hfiled := last_filed_of_leaf hdistinct hleaf hreads hdeclared
  refine ⟨hfiled, fun last hlast hpath => ?_⟩
  have hsame := Placed.getLast?_below hlast
  rw [hpath, hfiled] at hsame
  rw [← Option.some.inj hsame]

end Bucket

/-- Three blocks for one media query. Two paths spell the selector `div p`, and the path that is
filed first is filed again behind the other. -/
def spelledTwice : StyleTree :=
  [("div", .tree [("p", .tree [("@phone", .tree [("color", .leaf (.text "red"))])])]),
    ("div p", .tree [("@phone", .tree [("color", .leaf (.text "blue"))])]),
    ("@phone", .tree [("div", .tree [("p", .tree [("color", .leaf (.text "green"))])])])]

/-- The first path keeps its place in the bucket when it is filed again. So the other one stands
last in the bucket, with what was filed there last. -/
theorem value?_eq_last_filed_spelledTwice :
    ∃ found bucket inner,
      spelledTwice.collect (Options.empty.withQuery "phone" "(max-width: 600px)") [] = .ok found ∧
      (found.buckets.table .media).get? "(max-width: 600px)" = some bucket ∧
      bucket.collect (Options.empty.withQuery "phone" "(max-width: 600px)") [] = .ok inner ∧
      inner.rules.value? "div p" "color" = some "blue" ∧
      (Placed.under "div p" "color" bucket.placed).getLast? =
        some ⟨["div p", "color"], "div p", "color", "blue"⟩ ∧
      (Placed.under "div p" "color" (Placed.below ["div p", "color"]
        (filedPlaced (Options.empty.withQuery "phone" "(max-width: 600px)") .media
          "(max-width: 600px)" spelledTwice))).getLast? =
        some ⟨["div p", "color"], "div p", "color", "blue"⟩ := by
  obtain ⟨inner, hinner, hvalues⟩ := @value?_eq_last_filed
    (Options.empty.withQuery "phone" "(max-width: 600px)") [] spelledTwice
    _ .media "(max-width: 600px)" (by decide) rfl (by decide) _ rfl []
  have hblue : inner.rules.value? "div p" "color" = some "blue" := by
    rw [← Except.ok.inj hinner]
    rfl
  obtain ⟨path, hlast, hfiled⟩ := hvalues "div p" "color" "blue" hblue
  obtain rfl : ["div p", "color"] = path := congrArg Placed.path (Option.some.inj hlast)
  have hreads : ReadsAt (Options.empty.withQuery "phone" "(max-width: 600px)") .media
      "(max-width: 600px)" spelledTwice ["div p", "color"] := by
    intro f hf
    obtain rfl := Option.some.inj hf
    exact ⟨⟨["div p"], "color", .text "blue"⟩, List.mem_cons_self, rfl⟩
  exact ⟨_, _, inner, rfl, rfl, hinner, hblue, hlast, (hfiled hreads).1⟩

/-- What is filed last does not stand if another path spells the same selector behind the first
place of its own. -/
theorem last_filed_misplaced :
    ¬ ∀ (options : Options) (scope scope' : List String) (tree : StyleTree)
      (found inner : Collected) (table : Table) (header : String) (bucket : StyleTree),
      tree.isDistinct = true →
      tree.collect options scope = .ok found →
      (∀ f ∈ tree.filedUnder options table header,
        f.block.isPlain = true ∧ f.block.isFinite = true) →
      (found.buckets.table table).get? header = some bucket →
      bucket.collect options scope' = .ok inner →
      ∀ s p css, inner.rules.value? s p = some css →
        Declared.last? p (Declared.under s
          ((tree.filedUnder options table header).flatMap fun f => f.tree.declared)) = some css := by
  intro h
  have hgreen := h (Options.empty.withQuery "phone" "(max-width: 600px)") [] [] spelledTwice
    _ _ .media "(max-width: 600px)" _ (by decide) rfl (by decide) rfl rfl
    "div p" "color" "blue" rfl
  exact absurd hgreen (by decide)

end StyleTree

end NestedStyles
