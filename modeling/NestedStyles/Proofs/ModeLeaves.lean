import NestedStyles.Proofs.Behind
import NestedStyles.Proofs.Leaves

/-!
# Leaves below the selector of a mode

A block of a mode is compiled below the mode's selector, with the first key marked that has to be.
Its leaves are those of the block in its place in the tree, below the selector and with the first
key that is not blank marked (`StyleTree.leaves_descendantTree`). What they declare is what the
leaves of the tree declare for every choice of alternatives, behind the selector
(`StyleTree.declared_mode`).
-/

namespace NestedStyles

namespace Selector

/-- Keys that are all blank, or blank ones before one that is not. -/
theorem blank_or_split (keys : List String) :
    (∀ key ∈ keys, Text.isBlank key = true) ∨
      ∃ blank first rest, keys = blank ++ first :: rest ∧
        (∀ key ∈ blank, Text.isBlank key = true) ∧ Text.isBlank first = false := by
  have hkeys : keys.takeWhile Text.isBlank ++ keys.dropWhile Text.isBlank = keys :=
    List.takeWhile_append_dropWhile
  have hblank : ∀ key ∈ keys.takeWhile Text.isBlank, Text.isBlank key = true := fun key hkey =>
    List.all_eq_true.mp List.all_takeWhile key hkey
  cases hrest : keys.dropWhile Text.isBlank with
  | nil =>
    rw [hrest, List.append_nil] at hkeys
    exact Or.inl (hkeys ▸ hblank)
  | cons first rest =>
    refine Or.inr ⟨_, first, rest, (hrest ▸ hkeys).symm, hblank, ?_⟩
    have hhead := List.head?_dropWhile_not Text.isBlank keys
    rw [hrest] at hhead
    exact hhead

section Blank

variable {blank : List String} (hblank : ∀ key ∈ blank, Text.isBlank key = true)

include hblank

theorem dropWhile_blank : blank.dropWhile Text.isBlank = [] := by
  have hdrop := @List.dropWhile_append_of_pos String Text.isBlank blank [] hblank
  rwa [List.append_nil] at hdrop

theorem takeWhile_blank : blank.takeWhile Text.isBlank = blank := by
  have htake := @List.takeWhile_append_of_pos String Text.isBlank blank [] hblank
  rwa [List.takeWhile_nil, List.append_nil] at htake

theorem dropWhile_split {first : String} (hfirst : Text.isBlank first = false)
    (rest : List String) :
    (blank ++ first :: rest).dropWhile Text.isBlank = first :: rest := by
  rw [List.dropWhile_append_of_pos hblank, List.dropWhile_cons_of_neg (by simp [hfirst])]

theorem takeWhile_split {first : String} (hfirst : Text.isBlank first = false)
    (rest : List String) : (blank ++ first :: rest).takeWhile Text.isBlank = blank := by
  rw [List.takeWhile_append_of_pos hblank, List.takeWhile_cons_of_neg (by simp [hfirst]),
    List.append_nil]

theorem markFirst_blank : markFirst blank = blank := by
  rw [markFirst, dropWhile_blank hblank]

theorem markFirst_split {first : String} (hfirst : Text.isBlank first = false)
    (rest : List String) :
    markFirst (blank ++ first :: rest) = blank ++ asDescendant first :: rest := by
  rw [markFirst, dropWhile_split hblank hfirst, takeWhile_split hblank hfirst]

end Blank

/-- Keys of which a blank one is the last that may stand above a marked one are all blank. -/
theorem markFirst_of_marksWithin {blank : List String}
    (hblank : ∀ key ∈ blank, Text.isBlank key = true) {key : String}
    (hkey : Text.isBlank key = true) {rest : List String}
    (h : marksWithin blank.length (blank ++ key :: rest) = true) :
    markFirst (blank ++ key :: rest) = blank ++ key :: rest := by
  have hdrop : (blank ++ key :: rest).dropWhile Text.isBlank = rest.dropWhile Text.isBlank := by
    rw [List.dropWhile_append_of_pos hblank, List.dropWhile_cons_of_pos hkey]
  have htake : (blank ++ key :: rest).takeWhile Text.isBlank =
      blank ++ key :: rest.takeWhile Text.isBlank := by
    rw [List.takeWhile_append_of_pos hblank, List.takeWhile_cons_of_pos hkey]
  rw [marksWithin, hdrop, htake] at h
  rw [markFirst, hdrop]
  cases hrest : rest.dropWhile Text.isBlank with
  | nil => rfl
  | cons first more =>
    rw [hrest] at h
    simp only [Bool.and_eq_true, decide_eq_true_eq, List.length_append, List.length_cons] at h
    omega

end Selector

/-! ## Leaves of the block -/

namespace Leaf

/-- The leaf with more keys above it. -/
def below (above : List String) (leaf : Leaf) : Leaf :=
  { leaf with parents := above ++ leaf.parents }

/-- The leaf below a selector, with its first key that is not blank marked. -/
def behind (p : String) (leaf : Leaf) : Leaf :=
  { leaf with parents := p :: Selector.markFirst leaf.parents }

end Leaf

namespace StyleTree

mutual

theorem leavesNode_append (outer above : List String) (key : String) : ∀ node : Node,
    leavesNode (outer ++ above) key node = (leavesNode above key node).map (Leaf.below outer)
  | .leaf value => rfl
  | .tree entries => by
    rw [leavesNode, leavesNode]
    cases reference? entries with
    | some value => rfl
    | none =>
      dsimp only
      rw [List.append_assoc]
      exact leavesBelow_outer outer (above ++ [key]) entries

/-- The keys above a tree stand above its leaves. -/
theorem leavesBelow_outer (outer above : List String) : ∀ entries : List (String × Node),
    leavesBelow (outer ++ above) entries = (leavesBelow above entries).map (Leaf.below outer)
  | [] => rfl
  | (key, node) :: rest => by
    rw [leavesBelow, leavesBelow, List.map_append, leavesNode_append outer above key node,
      leavesBelow_outer outer above rest]

end

theorem leavesBelow_eq_map (above : List String) (entries : StyleTree) :
    leavesBelow above entries = (leavesBelow [] entries).map (Leaf.below above) := by
  have h := leavesBelow_outer above [] entries
  rwa [List.append_nil] at h

theorem leavesBelow_nest {block : StyleTree} (hblock : reference? block = none)
    (above segments : List String) :
    leavesBelow above (nest segments block) = leavesBelow (above ++ segments) block := by
  induction segments generalizing above with
  | nil => rw [nest_nil, List.append_nil]
  | cons segment segments ih =>
    rw [nest_cons, leavesBelow, leavesNode_of_block (reference?_nest hblock segments), ih,
      leavesBelow, List.append_nil, List.append_assoc]
    rfl

section Blank

variable {blank : List String} (hblank : ∀ key ∈ blank, Text.isBlank key = true) (p : String)

include hblank

/-- Leaves below a key that is marked. -/
theorem leavesBelow_marked {first : String} (hfirst : Text.isBlank first = false)
    (rest : List String) (entries : StyleTree) :
    leavesBelow (p :: blank ++ Selector.asDescendant first :: rest) entries =
      (leavesBelow (blank ++ first :: rest) entries).map (Leaf.behind p) := by
  rw [leavesBelow_eq_map, leavesBelow_eq_map (blank ++ first :: rest), List.map_map]
  refine List.map_congr_left fun leaf _ => ?_
  have hmarked : Selector.markFirst (blank ++ first :: rest ++ leaf.parents) =
      blank ++ Selector.asDescendant first :: rest ++ leaf.parents := by
    simpa using Selector.markFirst_split hblank hfirst (rest ++ leaf.parents)
  rw [Function.comp_apply, Leaf.below, Leaf.below, Leaf.behind, hmarked]
  rfl

/-- Leaves of an entry that is marked. -/
theorem leavesNode_markedEntry {key : String} (hkey : Text.isAtKey key = false) {node : Node}
    (hmark : ∀ leaf ∈ leavesNode blank key node,
      Selector.marksWithin blank.length leaf.parents = true) :
    leavesNode (p :: blank) (markedEntry key node).1 (markedEntry key node).2 =
      (leavesNode blank key node).map (Leaf.behind p) := by
  have hleaf (value : Value) : [(⟨p :: blank, key, value⟩ : Leaf)] =
      [(⟨blank, key, value⟩ : Leaf)].map (Leaf.behind p) := by
    rw [List.map_singleton, Leaf.behind]
    dsimp only
    rw [Selector.markFirst_blank hblank]
  cases node with
  | leaf value => exact hleaf value
  | tree entries =>
    rw [markedEntry]
    cases hentries : reference? entries with
    | some value =>
      rw [if_pos Option.isSome_some, leavesNode, leavesNode, hentries]
      exact hleaf value
    | none =>
      rw [if_neg (by simp), hkey, if_neg (by simp)]
      rw [leavesNode_of_block hentries] at hmark ⊢
      cases hfirst : Text.isBlank key with
      | false =>
        rw [if_neg (by simp), leavesNode_of_block hentries]
        exact leavesBelow_marked hblank p hfirst [] entries
      | true =>
        -- The key is not marked, and no key below it may have to be.
        rw [if_pos rfl, leavesNode_of_block hentries, List.cons_append,
          ← List.singleton_append, leavesBelow_outer]
        refine List.map_congr_left fun leaf hmem => ?_
        have hmarks := hmark leaf hmem
        rw [leavesBelow_eq_map] at hmem
        obtain ⟨inner, -, rfl⟩ := List.mem_map.mp hmem
        simp only [Leaf.below, Leaf.behind, List.append_assoc, List.singleton_append] at hmarks ⊢
        rw [Selector.markFirst_of_marksWithin hblank hfirst hmarks]

/-- Leaves of a block whose keys are marked. -/
theorem leavesBelow_markedEntries : ∀ {entries : List (String × Node)},
    every (fun key _ => !Text.isAtKey key) entries = true →
    (∀ leaf ∈ leavesBelow blank entries,
      Selector.marksWithin blank.length leaf.parents = true) →
    leavesBelow (p :: blank) (markedEntries entries) =
      (leavesBelow blank entries).map (Leaf.behind p)
  | [], _, _ => rfl
  | (key, node) :: rest, hplain, hmark => by
    simp only [every_cons, Bool.and_eq_true, Bool.not_eq_true'] at hplain
    obtain ⟨⟨hkey, -⟩, hrest⟩ := hplain
    rw [leavesBelow] at hmark
    rw [markedEntries, leavesBelow, leavesBelow, List.map_append,
      leavesNode_markedEntry hblank p hkey fun leaf h => hmark leaf (List.mem_append_left _ h),
      leavesBelow_markedEntries hrest fun leaf h => hmark leaf (List.mem_append_right _ h)]

end Blank

/-! ## The block below the selector -/

theorem isAtKey_asDescendant (key : String) : Text.isAtKey (Selector.asDescendant key) = false := by
  rcases Selector.asDescendant_eq key with h | ⟨rest, h⟩
  · rw [h]
    decide
  · rw [h, Text.isAtKey, Text.beginsWith, String.toList_append]
    rfl

/-- An entry of a key that is no at-rule's keeps its key or has it marked. -/
theorem markedEntry_eq {key : String} (hkey : Text.isAtKey key = false) (node : Node) :
    markedEntry key node = (key, node) ∨ ∃ entries, node = .tree entries ∧
      markedEntry key node = (Selector.asDescendant key, node) := by
  cases node with
  | leaf value => exact Or.inl rfl
  | tree entries =>
    rw [markedEntry, hkey]
    split
    · exact Or.inl rfl
    · rw [if_neg (by simp)]
      split
      · exact Or.inl rfl
      · exact Or.inr ⟨entries, rfl, rfl⟩

/-- A condition that marking keys keeps holds everywhere in a block whose keys are marked. -/
theorem every_markedEntries {p : String → Node → Bool}
    (hp : ∀ key entries, p key (.tree entries) = true →
      p (Selector.asDescendant key) (.tree entries) = true) :
    ∀ {entries : List (String × Node)}, every (fun key _ => !Text.isAtKey key) entries = true →
      every p entries = true → every p (markedEntries entries) = true
  | [], _, _ => rfl
  | (key, node) :: rest, hplain, h => by
    simp only [every_cons, Bool.and_eq_true, Bool.not_eq_true'] at hplain h
    obtain ⟨⟨hkey, -⟩, hrest⟩ := hplain
    obtain ⟨⟨hself, hbelow⟩, h⟩ := h
    have hback := every_markedEntries hp hrest h
    rw [markedEntries]
    rcases markedEntry_eq hkey node with heq | ⟨entries, rfl, heq⟩
    · rw [heq, every_cons, hself, hbelow, hback]
      rfl
    · rw [heq, every_cons, hp key entries hself, hbelow, hback]
      rfl

/-- A block whose entries are values when they are marked is marked as it is. -/
theorem markedEntries_of_leaves : ∀ {entries : List (String × Node)},
    every (fun key _ => !Text.isAtKey key) entries = true →
    (∀ entry ∈ markedEntries entries, ∃ text, entry.2 = .leaf (.text text)) →
    markedEntries entries = entries
  | [], _, _ => rfl
  | (key, node) :: rest, hplain, h => by
    simp only [every_cons, Bool.and_eq_true, Bool.not_eq_true'] at hplain
    obtain ⟨⟨hkey, -⟩, hrest⟩ := hplain
    rw [markedEntries] at h ⊢
    rw [markedEntries_of_leaves hrest fun entry hentry => h entry (List.mem_cons_of_mem _ hentry)]
    rcases markedEntry_eq hkey node with heq | ⟨entries, rfl, heq⟩
    · rw [heq]
    · obtain ⟨text, htext⟩ := h _ List.mem_cons_self
      rw [heq] at htext
      exact absurd htext (by simp)

/-- Marking the keys of a block makes it no reference. -/
theorem reference?_markedEntries {block : StyleTree} (hplain : block.isPlain = true)
    (hdistinct : Entries.Distinct (markedEntries block)) (hblock : reference? block = none) :
    reference? (markedEntries block) = none := by
  cases h : reference? (markedEntries block) with
  | none => rfl
  | some value =>
    have hsame : markedEntries block = block := by
      refine markedEntries_of_leaves hplain fun entry hentry => ?_
      exact (of_mem_of_reference? hdistinct h hentry).2
    rw [hsame, hblock] at h
    exact absurd h (by simp)

/-- Above every leaf of a block below some keys the first key that is not blank is markable, and it
is one of those keys or next to them. Keys of the block that are marked stay apart. -/
structure Markable (segments : List String) (block : StyleTree) : Prop where
  keys : ∀ leaf ∈ leavesBelow segments block,
    Selector.marksWithin segments.length leaf.parents = true
  apart : segments.all Text.isBlank = true → Entries.Distinct (markedEntries block)

section Blank

variable {blank : List String} (hblank : ∀ key ∈ blank, Text.isBlank key = true)
  {block : StyleTree}

include hblank

theorem descendantTree_of_blank :
    Buckets.descendantTree blank block = nest blank block.marked := by
  rw [Buckets.descendantTree, Selector.dropWhile_blank hblank, Selector.takeWhile_blank hblank]

theorem descendantTree_blank (hmark : Markable blank block) :
    Buckets.descendantTree blank block = nest blank (markedEntries block) := by
  have hmarked : block.marked = markedEntries block :=
    Entries.ofList_of_distinct (hmark.apart (List.all_eq_true.mpr hblank))
  rw [descendantTree_of_blank hblank, hmarked]

theorem descendantTree_split {first : String} (hfirst : Text.isBlank first = false)
    (rest : List String) : Buckets.descendantTree (blank ++ first :: rest) block =
      nest (blank ++ Selector.asDescendant first :: rest) block := by
  rw [Buckets.descendantTree, Selector.dropWhile_split hblank hfirst,
    Selector.takeWhile_split hblank hfirst]

end Blank

/-- The leaves of a block below the selector of a mode are those of the block in its place, with the
first key above them marked. -/
theorem leaves_descendantTree {segments : List String} {block : StyleTree}
    (hplain : block.isPlain = true) (hblock : reference? block = none)
    (hmark : Markable segments block) (p : String) :
    reference? (Buckets.descendantTree segments block) = none ∧
      leavesBelow [p] (Buckets.descendantTree segments block) =
        (leavesBelow segments block).map (Leaf.behind p) := by
  rcases Selector.blank_or_split segments with hblank | ⟨blank, first, rest, rfl, hblank, hfirst⟩
  · have hreference := reference?_markedEntries hplain
      (hmark.apart (List.all_eq_true.mpr hblank)) hblock
    rw [descendantTree_blank hblank hmark]
    refine ⟨reference?_nest hreference segments, ?_⟩
    rw [leavesBelow_nest hreference]
    exact leavesBelow_markedEntries hblank p hplain hmark.keys
  · rw [descendantTree_split hblank hfirst]
    refine ⟨reference?_nest hblock _, ?_⟩
    rw [leavesBelow_nest hblock]
    exact leavesBelow_marked hblank p hfirst rest block

/-- A condition that marking keys keeps holds everywhere in the block of a mode. -/
theorem every_descendantTree {p : String → Node → Bool} {segments : List String}
    {block : StyleTree} (hplain : block.isPlain = true) (hmark : Markable segments block)
    (hp : ∀ key entries, p key (.tree entries) = true →
      p (Selector.asDescendant key) (.tree entries) = true)
    (hsegments : ∀ key ∈ segments, ∀ back, p key (.tree back) = true)
    (hblock : every p block = true) :
    every p (Buckets.descendantTree segments block) = true := by
  rcases Selector.blank_or_split segments with hblank | ⟨blank, first, rest, rfl, hblank, hfirst⟩
  · rw [descendantTree_blank hblank hmark]
    exact every_nest (fun key hkey back => hsegments key hkey _)
      (every_markedEntries hp hplain hblock)
  · rw [descendantTree_split hblank hfirst]
    refine every_nest (fun key hkey back => ?_) hblock
    rcases List.mem_append.mp hkey with hkey | hkey
    · exact hsegments key (List.mem_append_left _ hkey) _
    · rcases List.mem_cons.mp hkey with rfl | hkey
      · exact hp first _ (hsegments first (by simp) _)
      · exact hsegments key (by simp [hkey]) _

end StyleTree

/-! ## Declarations behind the selector -/

namespace Leaf

/-- The declarations of a leaf for every choice of alternatives, under the empty selector where the
choice joins to nothing. -/
def allDeclared (leaf : Leaf) : List Declared :=
  match leaf.value.written? leaf.property with
  | none => []
  | some css => (Selector.joined leaf.parents).map fun s => ⟨s, leaf.property, css⟩

theorem declared_eq_filter (leaf : Leaf) :
    leaf.declared = leaf.allDeclared.filter (·.selector != "") := by
  unfold declared allDeclared
  cases leaf.value.written? leaf.property with
  | none => rfl
  | some css =>
    dsimp only
    rw [Selector.ofPath_eq_filter_joined, List.filter_map]
    rfl

/-- Below other keys a leaf declares its property for every choice of alternatives, if those keys
have a selector for each. -/
theorem declared_of_ofPath {leaf : Leaf} {parents : List String} {f : String → String}
    (h : Selector.ofPath parents = (Selector.joined leaf.parents).map f) :
    declared { leaf with parents } = leaf.allDeclared.map (Declared.rename f) := by
  unfold declared allDeclared
  change (match leaf.value.written? leaf.property with
    | none => []
    | some css => (Selector.ofPath parents).map fun s => (⟨s, leaf.property, css⟩ : Declared)) = _
  rw [h]
  cases leaf.value.written? leaf.property with
  | none => rfl
  | some css => simp [Declared.rename]

/-- Below the selector of a mode a leaf declares its property for every choice of alternatives. -/
theorem declared_behind {p : String} (hcomma : ',' ∉ p.toList) (hp : Selector.join [p] ≠ "")
    {leaf : Leaf} (hfirst : ∀ first rest, leaf.parents.dropWhile Text.isBlank = first :: rest →
      Selector.isMarkable first = true) :
    (leaf.behind p).declared =
      leaf.allDeclared.map (Declared.rename (Selector.behind (Selector.join [p]))) :=
  declared_of_ofPath (Selector.ofPath_markFirst hcomma hp hfirst)

end Leaf

namespace StyleTree

/-- The declarations of a tree for every choice of alternatives, under the empty selector where the
choice joins to nothing. -/
def allDeclared (tree : StyleTree) : List Declared := tree.leaves.flatMap Leaf.allDeclared

theorem declared_eq_filter (tree : StyleTree) :
    tree.declared = tree.allDeclared.filter (·.selector != "") := by
  rw [declared, allDeclared, List.filter_flatMap]
  congr 1
  funext leaf
  exact leaf.declared_eq_filter

/-- Below the selector of a mode a block declares what it declares in its place for every choice of
alternatives, behind the selector. -/
theorem declared_mode {segments : List String} {block : StyleTree} (hplain : block.isPlain = true)
    (hblock : reference? block = none) (hmark : Markable segments block) {p : String}
    (hcomma : ',' ∉ p.toList) (hp : Selector.join [p] ≠ "") :
    declared [(p, .tree (Buckets.descendantTree segments block))] =
      (allDeclared (nest segments block)).map
        (Declared.rename (Selector.behind (Selector.join [p]))) := by
  obtain ⟨hreference, hleaves⟩ := leaves_descendantTree hplain hblock hmark p
  have hnest : (nest segments block).leaves = leavesBelow segments block := by
    rw [leaves, leavesBelow_nest hblock, List.nil_append]
  rw [declared, leaves, leavesBelow, leavesNode_of_block hreference, List.nil_append, hleaves,
    allDeclared, hnest, List.map_flatMap, leavesBelow, List.append_nil, List.flatMap_map,
    List.flatMap_def, List.flatMap_def]
  refine congrArg List.flatten (List.map_congr_left fun leaf hleaf => ?_)
  have hmarks := hmark.keys leaf hleaf
  exact Leaf.declared_behind hcomma hp fun _ _ => Selector.isMarkable_of_marksWithin hmarks

end StyleTree

end NestedStyles
