import NestedStyles.Proofs.Depth

/-!
# References in either form

A reference may be given as a value or as a map that stands for it. If a key tells which of its maps
stand for references (`Node.fits`), the maps at such a key may be written as values, and the names
in the references left out (`StyleTree.bare`). That commutes with everything that files a block:
nesting, merging and marking (`bare_merge`, `bare_descendantTree`).
-/

namespace NestedStyles

/-- The value without the name of the property that it refers to. -/
def Value.bare : Value → Value
  | .reference css _ => .reference css none
  | value => value

/-- No key stands twice in the map at the node, and at a key of values the node is a leaf. -/
def Node.fits (isValue : String → Bool) (key : String) (node : Node) : Bool :=
  node.isDistinct && (!isValue key || node.isLeaf)

/-- Keys of values: marking as a descendant makes none of another key, and no selector of a mode is
one. -/
structure Options.Separates (options : Options) (isValue : String → Bool) : Prop where
  marked : ∀ key, isValue key = false → isValue (Selector.asDescendant key) = false
  modes : ∀ entry ∈ options.modes, isValue entry.2 = false
  auto : ∀ entry ∈ options.auto.getD [], isValue entry.2.selector = false

namespace StyleTree

mutual

/-- The node at a key with its references bare. At a key of values a map is the reference that it
stands for. -/
def bareNode (isValue : String → Bool) (key : String) : Node → Node
  | .leaf value => .leaf value.bare
  | .tree entries =>
    if isValue key then .leaf ((reference? entries).getD .null).bare
    else .tree (bare isValue entries)

/-- The tree with its references bare, those at a key of values given as values. -/
def bare (isValue : String → Bool) : StyleTree → StyleTree
  | [] => []
  | (key, node) :: rest => (key, bareNode isValue key node) :: bare isValue rest

end

/-- At the keys of values stand leaves only, and no map holds a key twice. -/
structure Fits (isValue : String → Bool) (tree : StyleTree) : Prop where
  distinct : tree.Distinct
  below : every (Node.fits isValue) tree = true

variable {isValue : String → Bool}

theorem bareNode_tree {key : String} (hkey : isValue key = false) (entries : StyleTree) :
    bareNode isValue key (.tree entries) = .tree (bare isValue entries) := by
  rw [bareNode, hkey, if_neg (by simp)]

theorem bareNode_reference {key : String} (hkey : isValue key = true) {entries : StyleTree}
    {value : Value} (h : reference? entries = some value) :
    bareNode isValue key (.tree entries) = .leaf value.bare := by
  rw [bareNode, hkey, if_pos rfl, h, Option.getD_some]

theorem bare_eq_map (tree : StyleTree) :
    bare isValue tree = tree.map fun entry => (entry.1, bareNode isValue entry.1 entry.2) := by
  induction tree with
  | nil => rfl
  | cons entry rest ih => rw [bare, ih, List.map_cons]

theorem keys_bare (tree : StyleTree) : (bare isValue tree).keys = tree.keys := by
  rw [bare_eq_map, Entries.keys, List.map_map]
  rfl

theorem get?_bare (key : String) (tree : StyleTree) :
    (bare isValue tree).get? key = (tree.get? key).map (bareNode isValue key) := by
  induction tree with
  | nil => rfl
  | cons entry rest ih =>
    obtain ⟨k, node⟩ := entry
    rw [bare, Entries.get?, Entries.get?, ih]
    split
    · next hk => rw [hk]; rfl
    · rfl

/-- Only a text is a text when its references are bare. -/
theorem bareNode_eq_text {key : String} {node : Node} {s : String} :
    bareNode isValue key node = .leaf (.text s) ↔ node = .leaf (.text s) := by
  cases node with
  | leaf value =>
    rw [bareNode]
    cases value <;> simp [Value.bare]
  | tree entries =>
    rw [bareNode]
    split
    · cases h : reference? entries with
      | none => simp [Value.bare]
      | some value =>
        obtain ⟨css, name, rfl⟩ := eq_reference_of_reference? h
        simp [Value.bare]
    · simp

/-- The tree stands for a reference exactly if it does with its own references bare. -/
theorem isSome_reference?_bare (entries : StyleTree) :
    (reference? (bare isValue entries)).isSome = (reference? entries).isSome := by
  rw [Bool.eq_iff_iff, isSome_reference?, isSome_reference?, keys_bare, get?_bare, get?_bare]
  simp only [Option.map_eq_some_iff, bareNode_eq_text, exists_eq_right, forall_exists_index,
    and_imp, forall_apply_eq_imp_iff₂]

/-- The references that two maps stand for are the same, names aside, if they have the same text at
`var`. -/
theorem bare_eq_of_get?_var {a b : StyleTree} (hvar : a.get? "var" = b.get? "var")
    {value other : Value} (ha : reference? a = some value) (hb : reference? b = some other) :
    value.bare = other.bare := by
  obtain ⟨css, name, rfl⟩ := eq_reference_of_reference? ha
  obtain ⟨css', name', rfl⟩ := eq_reference_of_reference? hb
  rw [get?_var_of_reference? ha, get?_var_of_reference? hb] at hvar
  obtain rfl : css = css' := by simpa using hvar
  rfl

theorem reference?_bare_eq_none {entries : StyleTree} (h : reference? entries = none) :
    reference? (bare isValue entries) = none := by
  have hsome := @isSome_reference?_bare isValue entries
  rwa [h, Option.isSome_none, Option.isSome_eq_false_iff, Option.isNone_iff_eq_none] at hsome

/-- A tree with its references bare stands for the same reference, names aside. -/
theorem map_bare_reference?_bare (entries : StyleTree) :
    (reference? (bare isValue entries)).map Value.bare = (reference? entries).map Value.bare := by
  cases h : reference? entries with
  | none => rw [reference?_bare_eq_none h]
  | some value =>
    obtain ⟨other, hother⟩ : ∃ other, reference? (bare isValue entries) = some other := by
      rw [← Option.isSome_iff_exists, isSome_reference?_bare, h]
      rfl
    obtain ⟨css, name, rfl⟩ := eq_reference_of_reference? h
    have hvar : (bare isValue entries).get? "var" = entries.get? "var" := by
      rw [get?_bare, get?_var_of_reference? h]
      rfl
    rw [hother, Option.map_some, Option.map_some, bare_eq_of_get?_var hvar hother h]

/-! ## Trees that fit -/

theorem distinct_of_fits {key : String} {entries : StyleTree}
    (h : Node.fits isValue key (.tree entries) = true) : entries.Distinct := by
  rw [Node.fits, Bool.and_eq_true] at h
  exact Node.isDistinct_tree.mp h.1

/-- At a key of values a map stands for a reference. -/
theorem exists_reference_of_fits {key : String} {entries : StyleTree}
    (h : Node.fits isValue key (.tree entries) = true) (hkey : isValue key = true) :
    ∃ value, reference? entries = some value := by
  rw [Node.fits, hkey, Bool.not_true, Bool.false_or, Bool.and_eq_true] at h
  exact Option.isSome_iff_exists.mp h.2

theorem not_isValue_of_fits {key : String} {entries : StyleTree}
    (h : Node.fits isValue key (.tree entries) = true) (href : reference? entries = none) :
    isValue key = false := by
  refine Bool.eq_false_iff.mpr fun hkey => ?_
  obtain ⟨value, hvalue⟩ := exists_reference_of_fits h hkey
  exact absurd (href.symm.trans hvalue) (by simp)

theorem fits_tree {key : String} (hkey : isValue key = false) {entries : StyleTree} :
    Node.fits isValue key (.tree entries) = true ↔ entries.Distinct := by
  rw [Node.fits, hkey, Bool.not_false, Bool.true_or, Bool.and_true, Node.isDistinct_tree]

/-- At one key, two maps that fit are merged to one that does. -/
theorem fits_merge {key : String} {a b : StyleTree} (ha : Node.fits isValue key (.tree a) = true)
    (hb : Node.fits isValue key (.tree b) = true) :
    Node.fits isValue key (.tree (merge a b)) = true := by
  rw [Node.fits, Bool.and_eq_true, Node.isDistinct_tree] at ha hb ⊢
  refine ⟨Distinct.merge ha.1, ?_⟩
  cases hkey : isValue key with
  | false => rfl
  | true =>
    rw [hkey] at ha hb
    exact isSome_reference?_merge hb.1 ha.2 hb.2

/-- A reference that is written over a map has its own text. -/
theorem get?_var_merge {key : String} {a b : StyleTree}
    (hb : Node.fits isValue key (.tree b) = true) {value : Value}
    (hvalue : reference? b = some value) : (merge a b).get? "var" = b.get? "var" := by
  obtain ⟨css, name, rfl⟩ := eq_reference_of_reference? hvalue
  rw [get?_merge (distinct_of_fits hb), get?_var_of_reference? hvalue]
  rfl

theorem Fits.nil : Fits isValue [] := ⟨Entries.distinct_nil, rfl⟩

theorem Fits.merge {a b : StyleTree} (ha : Fits isValue a) (hb : Fits isValue b) :
    Fits isValue (a.merge b) :=
  ⟨Distinct.merge ha.distinct, every_merge (fun _ _ _ => fits_merge) ha.below hb.below⟩

theorem Fits.nest {segments : List String} (hsegments : ∀ key ∈ segments, isValue key = false)
    {block : StyleTree} (hblock : Fits isValue block) : Fits isValue (nest segments block) := by
  refine ⟨distinct_nest hblock.distinct _, every_nest (fun key hkey back => ?_) hblock.below⟩
  exact (fits_tree (hsegments key hkey)).mpr (distinct_nest hblock.distinct back)

/-! ## Writing -/

theorem bare_nest {segments : List String} (hsegments : ∀ key ∈ segments, isValue key = false)
    (block : StyleTree) :
    bare isValue (nest segments block) = nest segments (bare isValue block) := by
  induction segments with
  | nil => rfl
  | cons segment segments ih =>
    rw [nest_cons, bare, bareNode_tree (hsegments segment (by simp)),
      ih fun key hkey => hsegments key (by simp [hkey])]
    rfl

theorem bare_upsert {key : String} {change change' : Option Node → Node} (tree : StyleTree)
    (h : ∀ old, (∀ node, old = some node → (key, node) ∈ tree) →
      change' (old.map (bareNode isValue key)) = bareNode isValue key (change old)) :
    Entries.upsert key change' (bare isValue tree) = bare isValue (tree.upsert key change) := by
  rw [bare_eq_map, bare_eq_map]
  exact Entries.upsert_map key (bareNode isValue) change change' tree h

mutual

theorem bareNode_mergeNode {key : String} {old : Option Node}
    (hold : ∀ node, old = some node →
      Node.fits isValue key node = true ∧ nodeEvery (Node.fits isValue) node = true) :
    ∀ {node : Node}, Node.fits isValue key node = true → nodeEvery (Node.fits isValue) node = true →
      mergeNode (old.map (bareNode isValue key)) (bareNode isValue key node) =
        bareNode isValue key (mergeNode old node)
  | .leaf value, _, _ => rfl
  | .tree entries, hself, hbelow => by
    cases hkey : isValue key with
    | false =>
      rw [bareNode_tree hkey]
      rcases old with _ | value | existing
      · exact (bareNode_tree hkey entries).symm
      · exact (bareNode_tree hkey entries).symm
      · obtain ⟨-, hexisting⟩ := hold _ rfl
        rw [Option.map_some, bareNode_tree hkey, mergeNode, mergeNode, bareNode_tree hkey,
          bare_merge hexisting hbelow]
    | true =>
      -- A map merged into a map keeps a name that only the older one has, so bare values are
      -- what the two sides share.
      obtain ⟨value, hvalue⟩ := exists_reference_of_fits hself hkey
      rw [bareNode_reference hkey hvalue]
      rcases old with _ | other | existing
      · exact (bareNode_reference hkey hvalue).symm
      · exact (bareNode_reference hkey hvalue).symm
      · obtain ⟨merged, hmerged⟩ := exists_reference_of_fits (fits_merge (hold _ rfl).1 hself) hkey
        rw [mergeNode, mergeNode, bareNode_reference hkey hmerged,
          bare_eq_of_get?_var (get?_var_merge hself hvalue) hmerged hvalue]

/-- A merge with its references bare is the merge of the trees with theirs bare. -/
theorem bare_merge {target : StyleTree} (htarget : every (Node.fits isValue) target = true) :
    ∀ {source : List (String × Node)}, every (Node.fits isValue) source = true →
      merge (bare isValue target) (bare isValue source) = bare isValue (merge target source)
  | [], _ => rfl
  | (key, node) :: rest, hsource => by
    simp only [every_cons, Bool.and_eq_true] at hsource
    obtain ⟨⟨hself, hbelow⟩, hrest⟩ := hsource
    have hnode (old : Option Node) (hold : ∀ node, old = some node → (key, node) ∈ target) :=
      @bareNode_mergeNode key old (fun node hnode => every_iff.mp htarget _ _ (hold node hnode))
        node hself hbelow
    rw [bare, merge, merge, bare_upsert target hnode]
    refine bare_merge (every_upsert htarget fun old hold => ?_) hrest
    exact @every_mergeNode (Node.fits isValue) (fun _ _ _ => fits_merge) key old hold node hself
      hbelow

end

theorem bare_ofList (writes : StyleTree) :
    Entries.ofList (bare isValue writes) = bare isValue (Entries.ofList writes) := by
  have hfold : ∀ writes start : StyleTree,
      (bare isValue writes).foldl (fun entries write => Entries.insert write.1 write.2 entries)
          (bare isValue start) =
        bare isValue (writes.foldl (fun entries write => Entries.insert write.1 write.2 entries)
          start) := by
    intro writes
    induction writes with
    | nil => exact fun _ => rfl
    | cons write rest ih =>
      intro start
      obtain ⟨key, node⟩ := write
      rw [bare, List.foldl_cons, List.foldl_cons, ← ih]
      exact congrArg (List.foldl _ · _) (bare_upsert start fun _ _ => rfl)
  exact hfold writes []

/-! ## Marking -/

mutual

theorem fits_markedEntry
    (hmarked : ∀ key, isValue key = false → isValue (Selector.asDescendant key) = false)
    {key : String} : ∀ {node : Node}, Node.fits isValue key node = true →
    nodeEvery (Node.fits isValue) node = true →
    Node.fits isValue (markedEntry key node).1 (markedEntry key node).2 = true ∧
      nodeEvery (Node.fits isValue) (markedEntry key node).2 = true
  | .leaf value, hself, hbelow => ⟨hself, hbelow⟩
  | .tree entries, hself, hbelow => by
    rw [markedEntry]
    cases href : reference? entries with
    | some value =>
      rw [if_pos Option.isSome_some]
      exact ⟨hself, hbelow⟩
    | none =>
      have hkey : isValue key = false := not_isValue_of_fits hself href
      rw [if_neg (by simp)]
      split
      · exact ⟨(fits_tree hkey).mpr (Entries.distinct_ofList _),
          every_ofList (every_fits_markedEntries hmarked hbelow)⟩
      · split
        · exact ⟨hself, hbelow⟩
        · exact ⟨(fits_tree (hmarked key hkey)).mpr ((fits_tree hkey).mp hself), hbelow⟩

/-- The marked keys of a block fit. -/
theorem every_fits_markedEntries
    (hmarked : ∀ key, isValue key = false → isValue (Selector.asDescendant key) = false) :
    ∀ {entries : List (String × Node)},
    every (Node.fits isValue) entries = true →
      every (Node.fits isValue) (markedEntries entries) = true
  | [], _ => rfl
  | (key, node) :: rest, h => by
    simp only [every_cons, Bool.and_eq_true] at h
    obtain ⟨⟨hself, hbelow⟩, hrest⟩ := h
    obtain ⟨hentry, hinner⟩ := fits_markedEntry hmarked hself hbelow
    rw [markedEntries, every_cons, hentry, hinner, every_fits_markedEntries hmarked hrest]
    rfl

end

mutual

theorem markedEntry_bareNode
    (hmarked : ∀ key, isValue key = false → isValue (Selector.asDescendant key) = false)
    {key : String} : ∀ {node : Node}, Node.fits isValue key node = true →
    nodeEvery (Node.fits isValue) node = true → markedEntry key (bareNode isValue key node) =
      ((markedEntry key node).1, bareNode isValue (markedEntry key node).1 (markedEntry key node).2)
  | .leaf value, _, _ => rfl
  | .tree entries, hself, hbelow => by
    cases hkey : isValue key with
    | true =>
      obtain ⟨value, hvalue⟩ := exists_reference_of_fits hself hkey
      rw [bareNode_reference hkey hvalue, markedEntry, markedEntry, hvalue,
        if_pos Option.isSome_some, bareNode_reference hkey hvalue]
    | false =>
      rw [bareNode_tree hkey, markedEntry, markedEntry, isSome_reference?_bare]
      split
      · rw [bareNode_tree hkey]
      · split
        · rw [bareNode_tree hkey, markedEntries_bare hmarked hbelow, bare_ofList]
        · split
          · rw [bareNode_tree hkey]
          · rw [bareNode_tree (hmarked key hkey)]

/-- Marking the keys of a block and making its references bare commute. -/
theorem markedEntries_bare
    (hmarked : ∀ key, isValue key = false → isValue (Selector.asDescendant key) = false) :
    ∀ {entries : List (String × Node)},
    every (Node.fits isValue) entries = true →
      markedEntries (bare isValue entries) = bare isValue (markedEntries entries)
  | [], _ => rfl
  | (key, node) :: rest, h => by
    simp only [every_cons, Bool.and_eq_true] at h
    obtain ⟨⟨hself, hbelow⟩, hrest⟩ := h
    rw [bare, markedEntries, markedEntries, bare, markedEntry_bareNode hmarked hself hbelow,
      markedEntries_bare hmarked hrest]

end

section Content

variable (hmarked : ∀ key, isValue key = false → isValue (Selector.asDescendant key) = false)

include hmarked

theorem not_isValue_of_mem_split {blank : List String} {first : String} {rest : List String}
    (h : ∀ key ∈ blank ++ first :: rest, isValue key = false) :
    ∀ key ∈ blank ++ Selector.asDescendant first :: rest, isValue key = false := by
  simp only [List.mem_append, List.mem_cons, or_imp, forall_and, forall_eq] at h ⊢
  exact ⟨h.1, hmarked first h.2.1, h.2.2⟩

variable {parents : List String} (hparents : ∀ key ∈ parents, isValue key = false)
  {block : StyleTree} (hblock : Fits isValue block)

include hparents hblock

/-- The content of a mode fits if its block does. -/
theorem Fits.descendantTree : Fits isValue (Buckets.descendantTree parents block) := by
  rcases Selector.blank_or_split parents with hblank | ⟨blank, first, rest, rfl, hblank, hfirst⟩
  · rw [descendantTree_of_blank hblank]
    exact Fits.nest hparents ⟨Entries.distinct_ofList _,
      every_ofList (every_fits_markedEntries hmarked hblock.below)⟩
  · rw [descendantTree_split hblank hfirst]
    exact Fits.nest (not_isValue_of_mem_split hmarked hparents) hblock

/-- The content of a mode with its references bare is the content for the block with its own
bare. -/
theorem bare_descendantTree : Buckets.descendantTree parents (bare isValue block) =
    bare isValue (Buckets.descendantTree parents block) := by
  rcases Selector.blank_or_split parents with hblank | ⟨blank, first, rest, rfl, hblank, hfirst⟩
  · rw [descendantTree_of_blank hblank, descendantTree_of_blank hblank, bare_nest hparents, marked,
      marked, markedEntries_bare hmarked hblock.below, bare_ofList]
  · rw [descendantTree_split hblank hfirst, descendantTree_split hblank hfirst,
      bare_nest (not_isValue_of_mem_split hmarked hparents)]

end Content

end StyleTree

end NestedStyles
