import NestedStyles.Proofs.Filings

/-!
# Leaves of filed blocks

A block is filed without the at-rule above it, below keys that are all selectors
(`Filing.sound_of_mem_filings`). Where all blocks of a bucket are plain, the finished bucket
declares what their leaves declare, except for a leaf that a later block takes the place of
(`StyleTree.value?_of_filed`). `StyleTree.Spares` says when a later block does not.
-/

namespace NestedStyles

/-! ## Filings of a tree -/

namespace Filing

/-- What is filed: a block with distinct keys that is no leaf, below selectors. -/
structure Sound (filing : Filing) : Prop where
  distinct : filing.block.isDistinct = true
  scope : filing.parents.any Text.isAtKey = false
  block : StyleTree.reference? filing.block = none

/-- The filing of an entry with distinct keys of the `@media` map is sound. -/
theorem sound_of_ofMapEntry? {options : Options} {entry : String × Node} {filing : Filing}
    (hself : entry.2.isDistinct = true)
    (hinner : StyleTree.nodeEvery (fun _ node => node.isDistinct) entry.2 = true)
    (h : Filing.ofMapEntry? options entry = some filing) : filing.Sound := by
  obtain ⟨hdistinct, hreference⟩ := Node.block_of_block? hself hinner
  unfold Filing.ofMapEntry? at h
  split at h
  · next block query hblock hquery =>
    obtain rfl := Option.some.inj h
    rw [hblock] at hdistinct hreference
    exact ⟨hdistinct, rfl, hreference⟩
  · simp at h

theorem sound_of_mem_visit {options : Options} {visit : Visit} {filing : Filing}
    (hnode : visit.node.isDistinct = true)
    (hbelow : StyleTree.nodeEvery (fun _ node => node.isDistinct) visit.node = true)
    (h : filing ∈ visit.filings options) : filing.Sound := by
  unfold Visit.filings at h
  split at h
  · simp at h
  next hin =>
  rw [Bool.not_eq_true, Visit.inAtRule] at hin
  obtain ⟨hdistinct, hreference⟩ := Node.block_of_block? hnode hbelow
  split at h
  · obtain rfl := List.mem_singleton.mp h
    exact ⟨hdistinct, hin, hreference⟩
  · obtain rfl := List.mem_singleton.mp h
    exact ⟨hdistinct, hin, hreference⟩
  · obtain ⟨entry, hentry, hfiling⟩ := List.mem_filterMap.mp h
    obtain ⟨hself, hinner⟩ := StyleTree.nodeEvery_of_mem_entries hbelow hentry
    exact sound_of_ofMapEntry? hself hinner hfiling
  · split at h
    · next block query hblock htarget =>
      obtain rfl := List.mem_singleton.mp h
      rw [hblock] at hdistinct hreference
      exact ⟨hdistinct, hin, hreference⟩
    · simp at h
  · simp at h

/-- Every filing of a tree with distinct keys is sound. -/
theorem sound_of_mem_filings {options : Options} {tree : StyleTree}
    (hdistinct : tree.isDistinct = true) {filing : Filing} (h : filing ∈ tree.filings options) :
    filing.Sound := by
  obtain ⟨visit, hvisit, hfiling⟩ := List.mem_flatMap.mp h
  obtain ⟨hnode, hbelow⟩ :=
    StyleTree.every_of_mem_visitsBelow (StyleTree.isDistinct_iff.mp hdistinct).2 hvisit
  exact sound_of_mem_visit hnode hbelow hfiling

section Tree

variable {filing : Filing}

theorem Sound.isDistinct_tree (h : filing.Sound) : filing.tree.isDistinct = true :=
  StyleTree.isDistinct_nest _ h.distinct

theorem Sound.isPlain_tree (h : filing.Sound) (hplain : filing.block.isPlain = true) :
    filing.tree.isPlain = true :=
  StyleTree.isPlain_nest h.scope hplain

theorem isFinite_tree (hfinite : filing.block.isFinite = true) : filing.tree.isFinite = true :=
  StyleTree.isFinite_nest filing.parents hfinite

/-- A leaf of a filed block stands in the tree of the filing below the keys above the block. -/
theorem Sound.node?_of_mem_leaves (h : filing.Sound) {leaf : Leaf}
    (hleaf : leaf ∈ filing.block.leaves) :
    ∃ node, filing.tree.node? (filing.parents ++ leaf.path) = some node ∧
      node.value? = some leaf.value := by
  rw [tree, StyleTree.node?_nest]
  exact StyleTree.node?_of_mem_leaves h.distinct hleaf

theorem Sound.isRead_tree (h : filing.Sound) (hread : filing.block.isRead = true) :
    filing.tree.isRead = true := by
  refine StyleTree.every_nest (fun _ _ back => ?_) hread
  rw [Node.isRead, StyleTree.reference?_nest h.block back]
  rfl

end Tree

end Filing

/-! ## Leaves that a bucket declares -/

/-- A reference is always written. -/
theorem Value.isSome_written?_reference (property css : String) (name : Option String) :
    ((Value.reference css name).written? property).isSome = true := by
  unfold written?
  split
  · rfl
  · rfl

namespace StyleTree

/-- Of the maps along a path below the root only the one at its end may stand for a reference, and
it has to. -/
structure RefersOnlyAt (path : List String) (tree : StyleTree) : Prop where
  above : tree.refersAbove path = false
  here : ∀ entries, tree.node? path = some (.tree entries) → (reference? entries).isSome = true

/-- What a tree holds at a path is declared if no map is in the way. -/
theorem HoldsAt.exists_leaf {property : String} {parents : List String} {key : String}
    {tree : StyleTree} (h : HoldsAt property (parents ++ [key]) tree)
    (hrefers : RefersOnlyAt (parents ++ [key]) tree) :
    ∃ value, ⟨parents, key, value⟩ ∈ tree.leaves ∧ (value.written? property).isSome = true := by
  obtain ⟨node, hnode, hwritten⟩ := h
  obtain ⟨value, hvalue, hsome⟩ :
      ∃ value, node.value? = some value ∧ (value.written? property).isSome = true := by
    cases node with
    | leaf value => exact ⟨value, rfl, hwritten value rfl⟩
    | tree entries =>
      obtain ⟨value, hvalue⟩ := Option.isSome_iff_exists.mp (hrefers.here entries hnode)
      obtain ⟨css, name, rfl⟩ := eq_reference_of_reference? hvalue
      exact ⟨_, hvalue, Value.isSome_written?_reference property css name⟩
  exact ⟨value, @mem_leaves_of_node? tree ⟨parents, key, value⟩ node hnode hvalue hrefers.above,
    hsome⟩

section Filed

variable {options : Options} {scope : List String} {tree : StyleTree} {found : Collected}
  {table : Table} {header : String}

theorem sound_of_mem_filedUnder (hdistinct : tree.isDistinct = true) {filing : Filing}
    (h : filing ∈ tree.filedUnder options table header) : filing.Sound :=
  Filing.sound_of_mem_filings hdistinct (List.mem_filter.mp h).1

/-- What merging keeps holds of a bucket if it holds of the trees filed into it. -/
theorem bucket_of {p : StyleTree → Prop} (hnil : p []) (hmerge : ∀ a b, p a → p b → p (a.merge b))
    (h : ∀ f ∈ tree.filedUnder options table header, p f.tree) :
    p (tree.bucket options table header) := by
  refine mergeAll_of hnil hmerge fun t ht => ?_
  obtain ⟨f, hf, rfl⟩ := List.mem_map.mp ht
  exact h f hf

theorem isDistinct_bucket (hdistinct : tree.isDistinct = true) :
    (tree.bucket options table header).isDistinct = true :=
  bucket_of (p := fun t => t.isDistinct = true) rfl (fun _ _ => isDistinct_merge) fun _ hf =>
    (sound_of_mem_filedUnder hdistinct hf).isDistinct_tree

theorem isPlain_bucket (hdistinct : tree.isDistinct = true)
    (h : ∀ f ∈ tree.filedUnder options table header, f.block.isPlain = true) :
    (tree.bucket options table header).isPlain = true :=
  bucket_of (p := fun t => t.isPlain = true) rfl (fun _ _ => isPlain_merge) fun f hf =>
    (sound_of_mem_filedUnder hdistinct hf).isPlain_tree (h f hf)

theorem isFinite_bucket (h : ∀ f ∈ tree.filedUnder options table header, f.block.isFinite = true) :
    (tree.bucket options table header).isFinite = true :=
  bucket_of (p := fun t => t.isFinite = true) rfl (fun _ _ => isFinite_merge) fun f hf =>
    Filing.isFinite_tree (h f hf)

/-- The leaves of a bucket are leaves of the trees filed into it, where no map stands for a
reference. -/
theorem exists_mem_leaves_of_bucket (hdistinct : tree.isDistinct = true)
    (hread : ∀ f ∈ tree.filedUnder options table header, f.block.isRead = true)
    (hbucket : (tree.bucket options table header).isRead = true) {leaf : Leaf}
    (h : leaf ∈ (tree.bucket options table header).leaves) :
    ∃ f ∈ tree.filedUnder options table header, leaf ∈ f.tree.leaves := by
  have hsound : ∀ f ∈ tree.filedUnder options table header, f.Sound :=
    fun f => sound_of_mem_filedUnder hdistinct
  have htrees : ∀ t ∈ (tree.filedUnder options table header).map Filing.tree,
      t.isDistinct = true := by
    intro t ht
    obtain ⟨f, hf, rfl⟩ := List.mem_map.mp ht
    exact (hsound f hf).isDistinct_tree
  obtain ⟨node, hnode, hvalue⟩ := node?_of_mem_leaves (isDistinct_bucket hdistinct) h
  have hleaf : node = .leaf leaf.value := node?_eq_leaf hbucket hnode hvalue
  subst hleaf
  obtain ⟨t, ht, hnode⟩ := exists_of_node?_mergeAll htrees (by simp [Leaf.path]) hnode
  obtain ⟨f, hf, rfl⟩ := List.mem_map.mp ht
  refine ⟨f, hf, mem_leaves_of_node? hnode rfl ?_⟩
  exact refersAbove_of_isRead ((hsound f hf).isRead_tree (hread f hf)) _

/-- A bucket holds a value at the path of every leaf filed into it that no later block takes the
place of. -/
theorem holdsAt_bucket (hdistinct : tree.isDistinct = true) {before after : List Filing}
    {filing : Filing} (hfiled : tree.filedUnder options table header = before ++ filing :: after)
    {leaf : Leaf} (hleaf : leaf ∈ filing.block.leaves)
    (hwritten : (leaf.value.written? leaf.property).isSome = true)
    (hspares : ∀ later ∈ after,
      Spares leaf.property (filing.parents ++ leaf.path) later.tree) :
    HoldsAt leaf.property (filing.parents ++ leaf.path) (tree.bucket options table header) := by
  have hsound : ∀ f ∈ before ++ filing :: after, f.Sound := by
    rw [← hfiled]
    exact fun f => sound_of_mem_filedUnder hdistinct
  obtain ⟨node, hnode, hvalue⟩ := (hsound filing (by simp)).node?_of_mem_leaves hleaf
  rw [bucket, hfiled, List.map_append, List.map_cons]
  refine holdsAt_mergeAll ?_ (by simp [Leaf.path]) ⟨node, hnode, ?_⟩ ?_
  · intro t ht
    rw [← List.map_cons, ← List.map_append] at ht
    obtain ⟨f, hf, rfl⟩ := List.mem_map.mp ht
    exact (hsound f hf).isDistinct_tree
  · rintro value rfl
    rwa [Option.some.inj hvalue]
  · intro t ht
    obtain ⟨f, hf, rfl⟩ := List.mem_map.mp ht
    exact hspares f hf

/-- What the leaves of a filed block declare is declared when the bucket is collected, except for a
leaf that a later block does not spare or that a map in the bucket hides because it stands for a
reference. Where no map stands for a reference the value is that of a declaration that was filed. -/
theorem value?_of_filed (hdistinct : tree.isDistinct = true)
    (hfound : tree.collect options scope = .ok found)
    (hplain : ∀ f ∈ tree.filedUnder options table header,
      f.block.isPlain = true ∧ f.block.isFinite = true)
    {before after : List Filing} {filing : Filing}
    (hfiled : tree.filedUnder options table header = before ++ filing :: after)
    {leaf : Leaf} (hleaf : leaf ∈ filing.block.leaves)
    (hwritten : (leaf.value.written? leaf.property).isSome = true)
    (hspares : ∀ later ∈ after,
      Spares leaf.property (filing.parents ++ leaf.path) later.tree)
    (hrefers : RefersOnlyAt (filing.parents ++ leaf.path) (tree.bucket options table header))
    (scope' : List String) :
    ∃ bucket inner, (found.buckets.table table).get? header = some bucket ∧
      bucket.collect options scope' = .ok inner ∧
      ∀ s ∈ Selector.ofPath (filing.parents ++ leaf.parents), ∃ css,
        inner.rules.value? s leaf.property = some css ∧
        (bucket.isRead = true →
          (∀ f ∈ tree.filedUnder options table header, f.block.isRead = true) →
          ∃ f ∈ tree.filedUnder options table header,
            ⟨s, leaf.property, css⟩ ∈ f.tree.declared) := by
  have hmem : filing ∈ tree.filedUnder options table header := by simp [hfiled]
  have hbucket := get?_table_collect hfound table header
  rw [if_neg (List.ne_nil_of_mem hmem)] at hbucket
  obtain ⟨inner, hinner, hrules, -⟩ := collect_plain options scope'
    (isPlain_bucket hdistinct fun f hf => (hplain f hf).1)
    (isFinite_bucket fun f hf => (hplain f hf).2)
  refine ⟨_, inner, hbucket, hinner, fun s hs => ?_⟩
  have hheld := holdsAt_bucket hdistinct hfiled hleaf hwritten hspares
  rw [Leaf.path, ← List.append_assoc] at hheld hrefers
  obtain ⟨value, hvalue, hsome⟩ := hheld.exists_leaf hrefers
  obtain ⟨css, hdeclared⟩ :=
    @Leaf.exists_mem_declared ⟨filing.parents ++ leaf.parents, leaf.key, value⟩ hsome s hs
  have hin : ⟨s, leaf.property, css⟩ ∈ (tree.bucket options table header).declared :=
    List.mem_flatMap.mpr ⟨_, hvalue, hdeclared⟩
  obtain ⟨last, hlast, hlastmem⟩ := RuleSet.value?_ofDeclared_of_mem _ hin
  refine ⟨last, by rw [hrules]; exact hlast, fun hread hreads => ?_⟩
  obtain ⟨other, hother, hdeclares⟩ := List.mem_flatMap.mp hlastmem
  obtain ⟨f, hf, hin⟩ := exists_mem_leaves_of_bucket hdistinct hreads hread hother
  exact ⟨f, hf, List.mem_flatMap.mpr ⟨other, hin, hdeclares⟩⟩

end Filed

/-- A block that is filed later may write a value of its own for the same property. -/
theorem value?_of_filed_twice :
    ∃ found bucket inner,
      collect (Options.empty.withQuery "phone" "(max-width: 600px)") []
          [("card", .tree [("@phone", .tree [("title", .tree [("color", .leaf (.text "blue"))])])]),
            ("@phone", .tree [("card", .tree
              [("title", .tree [("color", .leaf (.text "black"))])])])] = .ok found ∧
      (found.buckets.table .media).get? "(max-width: 600px)" = some bucket ∧
      bucket.collect (Options.empty.withQuery "phone" "(max-width: 600px)") [] = .ok inner ∧
      ∃ css, inner.rules.value? ".card title" "color" = some css := by
  have hspares : ∀ later ∈ [(⟨.media, "(max-width: 600px)", [],
      [("card", .tree [("title", .tree [("color", .leaf (.text "black"))])])]⟩ : Filing)],
      Spares "color" ["card", "title", "color"] later.tree := by
    intro later hlater
    obtain rfl := List.mem_singleton.mp hlater
    refine ⟨by decide, fun node hnode => ?_⟩
    obtain rfl := Option.some.inj hnode
    exact ⟨.text "black", rfl, rfl⟩
  obtain ⟨bucket, inner, hbucket, hinner, hdeclared⟩ := @value?_of_filed
    (Options.empty.withQuery "phone" "(max-width: 600px)") []
    [("card", .tree [("@phone", .tree [("title", .tree [("color", .leaf (.text "blue"))])])]),
      ("@phone", .tree [("card", .tree [("title", .tree [("color", .leaf (.text "black"))])])])]
    _ .media "(max-width: 600px)" (by decide) rfl (by decide) [] _
    ⟨.media, "(max-width: 600px)", ["card"], [("title", .tree [("color", .leaf (.text "blue"))])]⟩
    rfl ⟨["title"], "color", .text "blue"⟩ List.mem_cons_self rfl hspares
    ⟨by decide, fun entries hentries => Node.noConfusion (Option.some.inj hentries)⟩ []
  obtain ⟨css, hcss, -⟩ := hdeclared ".card title" (by decide)
  exact ⟨_, bucket, inner, rfl, hbucket, hinner, css, hcss⟩

/-- A later value takes the place of a whole map, and what leaves in it declare is gone: here `mask`
is an element first and a property later. -/
theorem filed_leaf_overwritten :
    ¬ ∀ (options : Options) (scope scope' : List String) (tree : StyleTree)
      (found inner : Collected) (table : Table) (header : String) (bucket : StyleTree),
      tree.isDistinct = true →
      tree.collect options scope = .ok found →
      (∀ f ∈ tree.filedUnder options table header,
        f.block.isPlain = true ∧ f.block.isFinite = true) →
      (found.buckets.table table).get? header = some bucket →
      bucket.collect options scope' = .ok inner →
      ∀ f ∈ tree.filedUnder options table header, ∀ leaf ∈ f.block.leaves,
        (leaf.value.written? leaf.property).isSome = true →
        ∀ s ∈ Selector.ofPath (f.parents ++ leaf.parents),
          (inner.rules.value? s leaf.property).isSome = true := by
  intro h
  have hsome := h (Options.empty.withQuery "phone" "(max-width: 600px)") [] []
    [("div", .tree [("mask", .tree [("@phone", .tree [("color", .leaf (.text "red"))])]),
      ("@phone", .tree [("mask", .leaf (.text "url(x)"))])])]
    _ _ .media "(max-width: 600px)" _ (by decide) rfl (by decide) rfl rfl
    ⟨.media, "(max-width: 600px)", ["div", "mask"], [("color", .leaf (.text "red"))]⟩
    List.mem_cons_self ⟨[], "color", .text "red"⟩ List.mem_cons_self rfl "div mask" (by decide)
  exact absurd hsome (by decide)

end StyleTree

end NestedStyles
