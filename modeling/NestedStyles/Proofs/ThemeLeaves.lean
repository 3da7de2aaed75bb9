import NestedStyles.Proofs.Merging
import NestedStyles.Proofs.ModeLeaves
import NestedStyles.Proofs.Numbers
import NestedStyles.Proofs.Writes
import NestedStyles.Variables

/-!
# Custom properties of the leaves of a theme

A walk of a theme visits its leaves in order (`StyleTree.walk_leaves`), and the custom properties of
the theme are declared leaf by leaf in the same order (`CustomProperties.ofEntries_eq_ofLeaves`). So
the properties of a theme are those of the leaves that a walk visits, up to the first number that is
not finite (`CustomProperties.ofTheme_leaves`). Themes with keys above them, or side by side, have
the leaves of their parts, and their properties follow (`CustomProperties.ofTheme_nest`).
-/

namespace NestedStyles

/-! ## Leaves that a walk visits -/

/-- The leaf that a visit is to, if it is to one. -/
def Visit.asLeaf? (visit : Visit) : Option Leaf :=
  visit.node.value?.map (⟨visit.parents, visit.key, ·⟩)

namespace StyleTree

mutual

theorem filterMap_asLeaf?_visitsNode (above : List String) (key : String) : ∀ node : Node,
    (visitsNode (above ++ [key]) node).filterMap Visit.asLeaf? = leavesNode above key node
  | .leaf value => by simp [visitsNode, leavesNode, Visit.asLeaf?, Node.value?]
  | .tree entries => by
    cases href : reference? entries with
    | some value => simp [visitsNode, leavesNode, Visit.asLeaf?, Node.value?, href]
    | none =>
      have hscope : (Visit.mk (above ++ [key]) (.tree entries)).asLeaf? = none := by
        simp [Visit.asLeaf?, Node.value?, href]
      rw [visitsNode_of_block href, leavesNode_of_block href, List.filterMap_append,
        filterMap_asLeaf?_visitsBelow (above ++ [key]) entries, List.filterMap_cons_none hscope,
        List.filterMap_nil, List.append_nil]

/-- The visits to leaves are those to the leaves of the tree. -/
theorem filterMap_asLeaf?_visitsBelow (above : List String) : ∀ entries : List (String × Node),
    (visitsBelow above entries).filterMap Visit.asLeaf? = leavesBelow above entries
  | [] => rfl
  | (key, node) :: rest => by
    rw [visitsBelow, leavesBelow, List.filterMap_append,
      filterMap_asLeaf?_visitsNode above key node, filterMap_asLeaf?_visitsBelow above rest]

end

/-- A walk that takes down the leaves it visits takes down the leaves of the tree. -/
theorem walk_leaves {ε : Type} (tree : StyleTree) :
    walk (fun leaves visit => .ok (leaves ++ visit.asLeaf?.toList)) [] tree =
      (.ok tree.leaves : Except ε (List Leaf)) := by
  have hrun (visits : List Visit) (leaves : List Leaf) :
      visits.foldlM (fun leaves visit => .ok (leaves ++ visit.asLeaf?.toList)) leaves =
        (.ok (leaves ++ visits.filterMap Visit.asLeaf?) : Except ε (List Leaf)) := by
    induction visits generalizing leaves with
    | nil => rw [List.filterMap_nil, List.append_nil]; rfl
    | cons visit rest ih =>
      rw [List.foldlM_cons, List.filterMap_cons]
      refine (ih _).trans ?_
      cases visit.asLeaf? <;> simp
  rw [walk_eq_foldlM, hrun, visits, filterMap_asLeaf?_visitsBelow]
  rfl

/-- Merging a tree into one that has none of its keys puts the two in a row. -/
theorem merge_of_disjoint {first second : StyleTree} (hdistinct : second.Distinct)
    (hdisjoint : first.keys.Disjoint second.keys) : first.merge second = first ++ second := by
  induction second generalizing first with
  | nil => exact (List.append_nil first).symm
  | cons entry rest ih =>
    obtain ⟨key, node⟩ := entry
    obtain ⟨hkey, hrest⟩ := List.nodup_cons.mp hdistinct
    have hnew : key ∉ first.keys := fun h => hdisjoint h List.mem_cons_self
    have hrow : (first ++ [(key, node)]).keys.Disjoint (Entries.keys rest) := by
      intro other hother hmem
      rw [Entries.keys, List.map_append, List.mem_append] at hother
      rcases hother with hother | hother
      · exact hdisjoint hother (List.mem_cons_of_mem key hmem)
      · exact hkey (List.mem_singleton.mp hother ▸ hmem)
    have hnode : mergeNode none node = node := by cases node <;> rfl
    rw [merge, Entries.upsert_of_not_mem hnew, hnode, ih hrest hrow, List.append_assoc,
      List.singleton_append]

end StyleTree

/-! ## Properties of leaves -/

theorem Value.css?_eq_none_iff {value : Value} : value.css? = none ↔ value = .null := by
  cases value <;> simp [Value.css?]

theorem Leaf.path_below (above : List String) (leaf : Leaf) :
    (leaf.below above).path = above ++ leaf.path :=
  List.append_assoc above leaf.parents [leaf.key]

namespace CustomProperties

/-- The custom properties of leaves below the keys `above`, declared one after another. -/
def ofLeaves (above : List String) (leaves : List Leaf) : Except CompileError CustomProperties :=
  (leaves.mapM fun leaf => declare (above ++ leaf.path) leaf.value).map List.flatten

/-- The custom property of a leaf below the keys `above`. -/
def ofLeaf (above : List String) (leaf : Leaf) : String × String :=
  (name (above ++ leaf.path), leaf.value.css?.getD "")

section Row

variable (above : List String)

theorem ofLeaves_singleton (leaf : Leaf) :
    ofLeaves above [leaf] = declare (above ++ leaf.path) leaf.value := by
  rw [ofLeaves, List.mapM_cons, List.mapM_nil]
  cases declare (above ++ leaf.path) leaf.value with
  | error e => rfl
  | ok properties => exact congrArg Except.ok (List.append_nil properties)

theorem ofLeaves_append (front back : List Leaf) :
    ofLeaves above (front ++ back) = do
      let first ← ofLeaves above front
      let others ← ofLeaves above back
      return first ++ others := by
  rw [ofLeaves, List.mapM_append, ofLeaves, ofLeaves]
  cases front.mapM fun leaf => declare (above ++ leaf.path) leaf.value with
  | error e => rfl
  | ok first =>
    cases back.mapM fun leaf => declare (above ++ leaf.path) leaf.value with
    | error e => rfl
    | ok others => exact congrArg Except.ok List.flatten_append

theorem ofLeaves_cons (leaf : Leaf) (rest : List Leaf) :
    ofLeaves above (leaf :: rest) = do
      let first ← declare (above ++ leaf.path) leaf.value
      let others ← ofLeaves above rest
      return first ++ others := by
  rw [← List.singleton_append, ofLeaves_append, ofLeaves_singleton]

/-- Leaves with more keys above them are declared below these. -/
theorem ofLeaves_below (outer : List String) (leaves : List Leaf) :
    ofLeaves above (leaves.map (Leaf.below outer)) = ofLeaves (above ++ outer) leaves := by
  rw [ofLeaves, List.mapM_map, ofLeaves]
  simp only [Function.comp_def, Leaf.path_below, List.append_assoc]
  rfl

end Row

mutual

theorem ofNode_eq (above : List String) (key : String) : ∀ node : Node,
    ofNode (above ++ [key]) node = ofLeaves [] (StyleTree.leavesNode above key node)
  | .leaf value => by
    rw [ofNode, StyleTree.leavesNode, ofLeaves_singleton]
    rfl
  | .tree entries => by
    rw [ofNode, StyleTree.leavesNode]
    cases StyleTree.reference? entries with
    | some value =>
      rw [ofLeaves_singleton]
      rfl
    | none => exact ofEntries_eq (above ++ [key]) entries

theorem ofEntries_eq (above : List String) : ∀ entries : List (String × Node),
    ofEntries above entries = ofLeaves [] (StyleTree.leavesBelow above entries)
  | [] => rfl
  | (key, node) :: rest => by
    rw [ofEntries, StyleTree.leavesBelow, ofLeaves_append, ofNode_eq above key node,
      ofEntries_eq above rest]

end

/-- The custom properties of a theme below the keys `above` are those of its leaves. -/
theorem ofEntries_eq_ofLeaves (above : List String) (theme : StyleTree) :
    ofEntries above theme = ofLeaves above theme.leaves := by
  rw [ofEntries_eq, StyleTree.leavesBelow_eq_map, ofLeaves_below]
  rfl

variable {above : List String}

theorem declare_of_finite {leaf : Leaf} (h : leaf.value.isFinite = true) :
    declare (above ++ leaf.path) leaf.value =
      .ok (if leaf.value ≠ .null then [ofLeaf above leaf] else []) := by
  rw [declare, Value.nonFinite?_eq_none_iff.mpr h, ofLeaf]
  cases leaf.value <;> rfl

/-- Leaves with finite numbers declare the properties of those that are not null. -/
theorem ofLeaves_of_finite {leaves : List Leaf} (h : ∀ leaf ∈ leaves, leaf.value.isFinite = true) :
    ofLeaves above leaves = .ok ((leaves.filter (·.value ≠ .null)).map (ofLeaf above)) := by
  induction leaves with
  | nil => rfl
  | cons leaf rest ih =>
    rw [ofLeaves_cons, declare_of_finite (h leaf (by simp)),
      ih fun other hother => h other (by simp [hother])]
    by_cases hvalue : leaf.value = .null
    · rw [List.filter_cons_of_neg (by simpa using hvalue), if_neg (not_not.mpr hvalue)]
      rfl
    · rw [List.filter_cons_of_pos (by simpa using hvalue), if_pos hvalue]
      rfl

/-- Other leaves fail with the first number that is not finite. -/
theorem ofLeaves_of_find? {leaves : List Leaf} {leaf : Leaf}
    (hleaf : leaves.find? (!·.value.isFinite) = some leaf) {n : Number}
    (hn : leaf.value.nonFinite? = some n) :
    ofLeaves above leaves = .error (.nonFinite (above ++ leaf.path) n) := by
  induction leaves with
  | nil => exact absurd hleaf (by simp)
  | cons first rest ih =>
    rw [ofLeaves_cons]
    rw [List.find?_cons] at hleaf
    split at hleaf
    · obtain rfl := Option.some.inj hleaf
      rw [declare, hn]
      rfl
    · next hfinite =>
      rw [declare_of_finite (by simpa using hfinite), ih hleaf]
      rfl

/-! ## The custom properties of a theme -/

/-- The property declares a value at a path. It is named by the keys of the path that are not empty,
with hyphens for underscores and between the keys, and has the value in CSS. -/
structure Declares (path : List String) (value : Value) (property : String × String) : Prop where
  name : property.1.toList = '-' :: '-' :: ['-'].intercalate
    ((path.filter (· != "")).map fun key => key.toList.map fun c => if c = '_' then '-' else c)
  css : value.css? = some property.2

theorem toList_name (path : List String) : (name path).toList =
    '-' :: '-' :: ['-'].intercalate
      ((path.filter (· != "")).map fun key =>
        key.toList.map fun c => if c = '_' then '-' else c) := by
  have hkeys : String.toList ∘ (fun key : String =>
        String.ofList (key.toList.map fun c => if c == '_' then '-' else c)) =
      fun key => key.toList.map fun c => if c = '_' then '-' else c :=
    funext fun key => by simp
  rw [name, String.toList_append, String.toList_intercalate, List.map_map, hkeys]
  rfl

/-- The property of a leaf declares it, unless it is null. -/
theorem declares_ofLeaf (above : List String) {leaf : Leaf} (h : leaf.value ≠ .null) :
    Declares (above ++ leaf.path) leaf.value (ofLeaf above leaf) := by
  refine ⟨toList_name _, ?_⟩
  obtain ⟨css, hcss⟩ := Option.ne_none_iff_exists'.mp (mt Value.css?_eq_none_iff.mp h)
  rw [ofLeaf, hcss, Option.getD_some]

/-- A theme declares the leaves that a walk of it visits, in order: each that is not null, by its
value in CSS and a name made of the group and the keys on the way to it. If a number in a leaf is
not finite, the result is the error of the first such leaf, with its path below the group and its
first such number. -/
theorem ofTheme_leaves (group : Option String) (theme : StyleTree) :
    StyleTree.walk (fun leaves visit => .ok (leaves ++ visit.asLeaf?.toList)) [] theme =
        (.ok theme.leaves : Except CompileError (List Leaf)) ∧
      ((∀ leaf ∈ theme.leaves, ∀ n ∈ leaf.value.numbers, n.isFinite = true) →
        ∃ properties, ofTheme group theme = .ok properties ∧
          List.Forall₂ (fun leaf => Declares (group.toList ++ leaf.path) leaf.value)
            (theme.leaves.filter (·.value ≠ .null)) properties) ∧
      ((∃ leaf ∈ theme.leaves, ∃ n ∈ leaf.value.numbers, n.isFinite = false) →
        ∃ leaf n, theme.leaves.find? (!·.value.isFinite) = some leaf ∧
          leaf.value.numbers.find? (!·.isFinite) = some n ∧
          ofTheme group theme = .error (.nonFinite (group.toList ++ leaf.path) n)) := by
  refine ⟨StyleTree.walk_leaves theme, fun hfinite => ?_, ?_⟩
  · have hvalues : ∀ leaf ∈ theme.leaves, leaf.value.isFinite = true := fun leaf hleaf =>
      List.all_eq_true.mpr (hfinite leaf hleaf)
    refine ⟨(theme.leaves.filter (·.value ≠ .null)).map (ofLeaf group.toList), ?_,
      List.forall₂_map_right_iff.mpr (List.forall₂_same.mpr fun leaf hleaf => ?_)⟩
    · rw [ofTheme, ofEntries_eq_ofLeaves, ofLeaves_of_finite hvalues]
    · exact declares_ofLeaf group.toList (by simpa using (List.mem_filter.mp hleaf).2)
  · rintro ⟨leaf, hleaf, n, hn, hinfinite⟩
    obtain hvalues | ⟨first, number, hfirst, hnumber⟩ := Leaf.finite_or_first theme.leaves
    · have hvalue := Value.isFinite_eq_false_iff.mpr ⟨n, hn, hinfinite⟩
      exact absurd ((hvalues leaf hleaf).symm.trans hvalue) (by simp)
    · refine ⟨first, number, hfirst, Value.nonFinite?_eq_find? _ ▸ hnumber, ?_⟩
      rw [ofTheme, ofEntries_eq_ofLeaves, ofLeaves_of_find? hfirst hnumber]

/-- A theme with a key that is empty, a null and a reference. -/
def device : StyleTree := [
  ("phone_s", .tree [("", .leaf (.text "8px")), ("unset", .leaf .null)]),
  ("accent", .tree [("var", .leaf (.text "var(--brand)"))])]

/-- The same theme with a number that is not finite, in a list. -/
def brokenDevice : StyleTree :=
  device ++ [("ratio", .leaf (.list [.text "1", .number .nan]))]

theorem ofTheme_leaves_device :
    (∃ properties, ofTheme (some "device") device = .ok properties ∧ properties.length = 2) ∧
      ∃ leaf n, brokenDevice.leaves.find? (!·.value.isFinite) = some leaf ∧
        ofTheme (some "device") brokenDevice = .error (.nonFinite ("device" :: leaf.path) n) := by
  constructor
  · obtain ⟨-, hproperties, -⟩ := ofTheme_leaves (some "device") device
    obtain ⟨properties, h, hall⟩ := hproperties (by decide)
    exact ⟨properties, h, hall.length_eq.symm⟩
  · obtain ⟨-, -, herror⟩ := ofTheme_leaves (some "device") brokenDevice
    obtain ⟨leaf, n, hleaf, -, h⟩ := herror (by decide)
    exact ⟨leaf, n, hleaf, h⟩

/-! ## Keys above a theme, and themes side by side -/

/-- Keys above a theme are keys on the way to its leaves. -/
theorem ofEntries_nest {theme : StyleTree} (hblock : StyleTree.reference? theme = none)
    (above keys : List String) :
    ofEntries above (StyleTree.nest keys theme) = ofEntries (above ++ keys) theme := by
  rw [ofEntries_eq, StyleTree.leavesBelow_nest hblock, ← ofEntries_eq]

/-- The custom properties of two themes in a row are those of the first and then those of the
second. -/
theorem ofEntries_append (above : List String) (first second : StyleTree) :
    ofEntries above (first ++ second) = do
      let front ← ofEntries above first
      let back ← ofEntries above second
      return front ++ back := by
  rw [ofEntries_eq, StyleTree.leavesBelow_append, ofLeaves_append, ← ofEntries_eq, ← ofEntries_eq]

/-- Leaves that have properties below some keys have them below any others: the values are the same,
and a name is that of the path of its leaf below these keys. -/
theorem ofLeaves_of_ok {above : List String} {leaves : List Leaf} {properties : CustomProperties}
    (h : ofLeaves above leaves = .ok properties) (other : List String) :
    ∃ others, ofLeaves other leaves = .ok others ∧
      others.map Prod.snd = properties.map Prod.snd ∧ others.map Prod.fst =
        (leaves.filter (·.value ≠ .null)).map fun leaf => name (other ++ leaf.path) := by
  obtain hvalues | ⟨leaf, n, hleaf, hn⟩ := Leaf.finite_or_first leaves
  · rw [ofLeaves_of_finite hvalues] at h
    obtain rfl := Except.ok.inj h
    refine ⟨_, ofLeaves_of_finite hvalues, ?_, ?_⟩
    · rw [List.map_map, List.map_map]
      rfl
    · rw [List.map_map]
      rfl
  · rw [ofLeaves_of_find? hleaf hn] at h
    exact absurd h (by simp)

/-- Leaves that fail below some keys fail below any others, with the same number. -/
theorem ofLeaves_of_error {above : List String} {leaves : List Leaf} {e : CompileError}
    (h : ofLeaves above leaves = .error e) : ∃ path n, e = .nonFinite (above ++ path) n ∧
      ∀ other, ofLeaves other leaves = .error (.nonFinite (other ++ path) n) := by
  obtain hvalues | ⟨leaf, n, hleaf, hn⟩ := Leaf.finite_or_first leaves
  · rw [ofLeaves_of_finite hvalues] at h
    exact absurd h (by simp)
  · rw [ofLeaves_of_find? hleaf hn] at h
    exact ⟨leaf.path, n, (Except.error.inj h).symm, fun other => ofLeaves_of_find? hleaf hn⟩

/-- A key above a theme is a group for it, and keys above it stand in front of the path of every
leaf: in the names, while the values stay the same and in their order, and in the path of an error.
The custom properties of two themes in a row are those of the first and then those of the second, or
the error that comes first; and merging a theme into one that has none of its keys puts the two in a
row. -/
theorem ofTheme_nest (group : Option String) (theme first second : StyleTree) :
    (StyleTree.reference? theme = none →
      (∀ key, ofTheme (some key) theme = ofTheme none (StyleTree.nest [key] theme)) ∧
      ∀ keys,
        (∀ properties, ofTheme none theme = .ok properties →
          ∃ nested, ofTheme none (StyleTree.nest keys theme) = .ok nested ∧
            nested.map Prod.snd = properties.map Prod.snd ∧ nested.map Prod.fst =
              (theme.leaves.filter (·.value ≠ .null)).map fun leaf => name (keys ++ leaf.path)) ∧
        ∀ e, ofTheme none theme = .error e → ∃ path n, e = .nonFinite path n ∧
          ofTheme none (StyleTree.nest keys theme) = .error (.nonFinite (keys ++ path) n)) ∧
      (ofTheme group (first ++ second) = do
        let front ← ofTheme group first
        let back ← ofTheme group second
        return front ++ back) ∧
      (second.Distinct → first.keys.Disjoint second.keys →
        StyleTree.merge first second = first ++ second) := by
  refine ⟨fun hblock => ⟨fun key => ?_, fun keys => ?_⟩, ofEntries_append _ first second,
    StyleTree.merge_of_disjoint⟩
  · exact (ofEntries_nest hblock [] [key]).symm
  · have hnest : ofTheme none (StyleTree.nest keys theme) = ofLeaves keys theme.leaves := by
      rw [ofTheme, Option.toList_none, ofEntries_nest hblock, List.nil_append,
        ofEntries_eq_ofLeaves]
    have hroot : ofTheme none theme = ofLeaves [] theme.leaves := ofEntries_eq_ofLeaves [] theme
    rw [hnest, hroot]
    refine ⟨fun properties h => ofLeaves_of_ok h keys, fun e h => ?_⟩
    obtain ⟨path, n, rfl, hother⟩ := ofLeaves_of_error h
    exact ⟨path, n, rfl, hother keys⟩

theorem ofTheme_nest_device :
    (∃ nested, ofTheme none (StyleTree.nest ["ui", "_"] device) = .ok nested ∧
        nested.map Prod.fst = ["--ui---phone-s", "--ui---accent"]) ∧
      (∃ path, ofTheme none (StyleTree.nest ["ui"] brokenDevice) =
        .error (.nonFinite ("ui" :: path) .nan)) ∧
      StyleTree.merge device [("ratio", .leaf .null)] = device ++ [("ratio", .leaf .null)] := by
  refine ⟨?_, ?_, ?_⟩
  · obtain ⟨hnest, -, -⟩ := ofTheme_nest none device device []
    obtain ⟨nested, h, -, hnames⟩ := ((hnest rfl).2 ["ui", "_"]).1 _ (by rfl)
    exact ⟨nested, h, hnames.trans (by decide)⟩
  · obtain ⟨hnest, -, -⟩ := ofTheme_nest none brokenDevice brokenDevice []
    have hbroken : ofTheme none brokenDevice = .error (.nonFinite ["ratio"] .nan) := by rfl
    obtain ⟨path, n, he, h⟩ := ((hnest rfl).2 ["ui"]).2 _ hbroken
    cases he
    exact ⟨_, h⟩
  · obtain ⟨-, -, hmerge⟩ := ofTheme_nest none device device [("ratio", .leaf .null)]
    exact hmerge (by simp [Entries.Distinct, Entries.keys]) (by simp [device, Entries.keys])

end CustomProperties

end NestedStyles
