import NestedStyles.Proofs.ModeSheet
import NestedStyles.Proofs.Passing

/-!
# The stylesheet of an automatic mode

The content of a mode is compiled twice, below the selector of the mode and below the one that takes
its place. Every key at its root that has rules below it is marked as a descendant
(`StyleTree.IsContent`), so both times the selectors are the same behind the selector at the root
(`StyleTree.declared_content`), and the two sections of the stylesheet differ in that selector only
(`StyleTree.compile_auto`).
-/

namespace NestedStyles

/-- The options have a mode, and it is the one that is automatic. -/
structure Options.IsAutoMode (options : Options) (name selector : String) (twin : AutoMode) :
    Prop where
  mode : options.IsMode name selector
  auto : options.auto = some [(name, twin)]
  single : ',' ∉ twin.selector.toList
  notKey : Text.isAtKey twin.selector = false
  /-- The selector that takes the place of the mode's selects. -/
  selects : Selector.join [twin.selector] ≠ ""

namespace StyleTree

/-! ## The content of the mode -/

/-- The content of a mode with plain blocks: what stands below a key of its root is marked. -/
structure IsContent (content : StyleTree) : Prop where
  plain : content.isPlain = true
  finite : content.isFinite = true
  distinct : content.isDistinct = true
  marked : ∀ key node, (key, node) ∈ content → node.isLeaf = true ∨ Selector.isMarked key = true

theorem IsContent.merge {a b : StyleTree} (ha : IsContent a) (hb : IsContent b) :
    IsContent (a.merge b) := by
  have hdistinct := isDistinct_merge ha.distinct hb.distinct
  refine ⟨isPlain_merge ha.plain hb.plain, isFinite_merge ha.finite hb.finite, hdistinct,
    fun key node hmem => ?_⟩
  have hget := (isDistinct_iff.mp hdistinct).1.get?_of_mem hmem
  rw [get?_merge (isDistinct_iff.mp hb.distinct).1] at hget
  cases hbget : b.get? key with
  | none =>
    rw [hbget] at hget
    exact ha.marked key node (Entries.mem_of_get? hget)
  | some new =>
    rw [hbget] at hget
    obtain rfl := Option.some.inj hget
    rcases hb.marked key new (Entries.mem_of_get? hbget) with hleaf | hmarked
    · cases haget : a.get? key with
      | none =>
        left
        cases new with
        | leaf value => rfl
        | tree entries => exact hleaf
      | some old =>
        refine (ha.marked key old (Entries.mem_of_get? haget)).imp (fun hold => ?_) id
        have hnew := (every_iff.mp (isDistinct_iff.mp hb.distinct).2 key new
          (Entries.mem_of_get? hbget)).1
        exact isLeaf_mergeNode hnew hold hleaf
    · exact Or.inr hmarked

/-- Of the entries of a block whose keys are marked those that are no leaves have a marked key. -/
theorem marked_of_mem_markedEntries {block : List (String × Node)}
    (hplain : every (fun key _ => !Text.isAtKey key) block = true)
    (hkeys : every (fun key _ => Selector.isSpelled key) block = true) {key : String} {node : Node}
    (h : (key, node) ∈ markedEntries block) :
    node.isLeaf = true ∨ Selector.isMarked key = true := by
  induction block with
  | nil => simp [markedEntries] at h
  | cons entry rest ih =>
    obtain ⟨k, n⟩ := entry
    simp only [every_cons, Bool.and_eq_true, Bool.not_eq_true'] at hplain hkeys
    rw [markedEntries] at h
    rcases List.mem_cons.mp h with h | h
    · cases n with
      | leaf value =>
        obtain ⟨-, rfl⟩ := Prod.mk.inj h
        exact Or.inl rfl
      | tree entries =>
        have hblank := Selector.isBlank_of_isSpelled hkeys.1.1
        by_cases hreference : (reference? entries).isSome = true
        · rw [markedEntry, if_pos hreference] at h
          obtain ⟨-, rfl⟩ := Prod.mk.inj h
          exact Or.inl hreference
        · rw [markedEntry, if_neg hreference, hplain.1.1, hblank] at h
          obtain ⟨rfl, -⟩ := Prod.mk.inj h
          exact Or.inr (Selector.isMarked_asDescendant (Selector.alternatives_ne_nil hkeys.1.1))
    · exact ih hplain.2 hkeys.2 h

/-- The content that a block is filed with, if no key above it or in it is blank. -/
theorem isContent_descendantTree {parents : List String} {block : StyleTree}
    (hparents : parents.any Text.isAtKey = false)
    (hspelled : ∀ key ∈ parents, Selector.isSpelled key = true) (hplain : block.isPlain = true)
    (hfinite : block.isFinite = true) (hdistinct : block.isDistinct = true)
    (hkeys : every (fun key _ => Selector.isSpelled key) block = true) :
    IsContent (Buckets.descendantTree parents block) := by
  cases parents with
  | nil =>
    rw [descendantTree_of_blank (by simp), nest_nil]
    have hmarking {p : String → Node → Bool}
        (hp : ∀ key entries, p key (.tree entries) = true →
          p (Selector.asDescendant key) (.tree entries) = true)
        (h : every p block = true) : every p block.marked = true :=
      every_ofList (every_markedEntries hp hplain h)
    refine ⟨hmarking (fun key _ _ => ?_) hplain, hmarking (fun _ _ _ => rfl) hfinite,
      isDistinct_iff.mpr ⟨Entries.distinct_ofList _,
        hmarking (fun _ _ h => h) (isDistinct_iff.mp hdistinct).2⟩, fun key node hmem => ?_⟩
    · rw [isAtKey_asDescendant]
      rfl
    · exact marked_of_mem_markedEntries hplain hkeys (Entries.mem_ofList hmem)
  | cons first rest =>
    rw [List.any_cons, Bool.or_eq_false_iff] at hparents
    have hfirst := hspelled first List.mem_cons_self
    have hsplit := @descendantTree_split [] (by simp) block first
      (Selector.isBlank_of_isSpelled hfirst) rest
    rw [List.nil_append, List.nil_append] at hsplit
    rw [hsplit]
    have hscope : (Selector.asDescendant first :: rest).any Text.isAtKey = false := by
      rw [List.any_cons, isAtKey_asDescendant, hparents.2]
      rfl
    refine ⟨isPlain_nest hscope hplain, isFinite_nest _ hfinite, isDistinct_nest _ hdistinct,
      fun key node hmem => Or.inr ?_⟩
    obtain ⟨rfl, -⟩ := Prod.mk.inj (List.mem_singleton.mp hmem)
    exact Selector.isMarked_asDescendant (Selector.alternatives_ne_nil hfirst)

/-- Every `@` key of the tree refers to the mode of this name and holds a block without `@` keys. -/
def refersOnlyTo (name : String) (tree : StyleTree) : Bool :=
  every (fun key node => !Text.isAtKey key ||
    (Target.name key == name && node.block?.any isPlain)) tree

/-- Every key of the tree has a character that is neither white space nor a comma. -/
def isSpelled (tree : StyleTree) : Bool := every (fun key _ => Selector.isSpelled key) tree

end StyleTree

/-! ## What a walk files -/

/-- What an `@` key begins with, its name does. -/
theorem Target.beginsWith_name {lead key : String} (hvisible : Text.StartsVisibly lead.toList)
    (hne : lead ≠ "") (h : Text.beginsWith ("@" ++ lead) key = true) :
    Text.beginsWith lead (Target.name key) = true := by
  rw [Text.beginsWith, List.isPrefixOf_iff_prefix, String.toList_append] at h
  obtain ⟨rest, hrest⟩ := h
  have hlist : lead.toList ≠ [] := mt String.toList_eq_nil_iff.mp hne
  have hat : Text.beginsWith "@" key = true := by
    rw [Text.beginsWith, ← hrest]
    rfl
  have hname : Target.name key = String.ofList (lead.toList ++ rest) := by
    have hdrop : key.toList.drop "@".toList.length = lead.toList ++ rest := by
      rw [← hrest]
      rfl
    rw [Target.name, Text.without?, if_pos hat, Option.getD_some, hdrop, Text.trimmedStart,
      String.toList_ofList, Text.trimStart_of_startsVisibly (hvisible.append hlist rest)]
  rw [hname, Text.beginsWith, String.toList_ofList, List.isPrefixOf_iff_prefix]
  exact List.prefix_append _ _

section Mode

variable {options : Options} {name p : String} (hmode : options.IsMode name p)

include hmode

theorem Options.IsMode.ofKey? {key : String} (hname : Target.name key = name) :
    Target.ofKey? options key = some (.mode p) := by
  rw [Target.ofKey?, hname, hmode.found]
  rfl

/-- A block at a key that names the mode is a reference to it. -/
theorem Options.IsMode.role {visit : Visit} (hkey : Text.isAtKey visit.key = true)
    (hname : Target.name visit.key = name) {block : StyleTree}
    (hblock : visit.node.block? = some block) : visit.role = .reference := by
  have hbegins {lead : String} (hvisible : Text.StartsVisibly lead.toList) (hne : lead ≠ "")
      (hnot : Text.beginsWith lead name = false) :
      Text.beginsWith ("@" ++ lead) visit.key = false :=
    Bool.eq_false_iff.mpr fun h => Bool.eq_false_iff.mp hnot
      (hname ▸ Target.beginsWith_name hvisible hne h)
  have hlayer : Text.beginsWith "@layer" visit.key = false :=
    @hbegins "layer" (Text.startsVisibly_cons.mpr (by decide)) (by decide) hmode.notLayer
  have hcontainer : Text.beginsWith "@container" visit.key = false :=
    @hbegins "container" (Text.startsVisibly_cons.mpr (by decide)) (by decide) hmode.notContainer
  have hpath : visit.path ≠ ["@media"] := by
    intro h
    have hmedia : visit.key = "@media" := by rw [Visit.key, h]; rfl
    rw [hmedia] at hname
    exact hmode.notMedia (hname.symm.trans (by decide))
  have hleaf : visit.node.isLeaf = false := by
    rw [← Bool.not_eq_true, ← Node.block?_eq_none_iff, hblock]
    simp
  rw [Node.eq_tree_of_block? hblock] at hleaf
  simp [Visit.role, Node.eq_tree_of_block? hblock, hleaf, hlayer, hcontainer, hpath, hkey]

end Mode

namespace StyleTree

section Mode

variable {options : Options} {name p : String} (hmode : options.IsMode name p) {tree : StyleTree}
  (hrefers : tree.refersOnlyTo name = true)

include hmode hrefers

/-- A visit to an `@` key refers to the mode, and any other is a declaration or a scope. -/
theorem role_of_refersOnlyTo {visit : Visit} (h : visit ∈ tree.visits) :
    (visit.role = .declaration ∨ visit.role = .scope) ∨
      visit.role = .reference ∧ Target.ofKey? options visit.key = some (.mode p) ∧
        ∃ block, visit.node.block? = some block ∧ block.isPlain = true := by
  obtain ⟨hself, -⟩ := every_of_mem_visitsBelow hrefers h
  by_cases hkey : Text.isAtKey visit.key = true
  · rw [hkey, Bool.not_true, Bool.false_or, Bool.and_eq_true, beq_iff_eq] at hself
    obtain ⟨hname, hblock⟩ := hself
    obtain ⟨block, hblock, hplain⟩ := (Option.any_eq_true _ _).mp hblock
    exact Or.inr ⟨hmode.role hkey hname hblock, hmode.ofKey? hname, block, hblock, hplain⟩
  · refine Or.inl (Decidable.byContradiction fun hrole => ?_)
    obtain ⟨hdeclaration, hscope⟩ := not_or.mp hrole
    exact hkey (Visit.isAtKey_of_role hdeclaration hscope)

/-- A tree that refers to the mode only fills no table and notes no statement. -/
theorem filings_of_refersOnlyTo : tree.filings options = [] ∧ tree.statements = [] := by
  have hnone : ∀ visit ∈ tree.visits, visit.filings options = [] ∧ visit.statement? = none := by
    intro visit hvisit
    unfold Visit.filings Visit.statement?
    split
    · exact ⟨rfl, rfl⟩
    · rcases role_of_refersOnlyTo hmode hrefers hvisit with (hrole | hrole) |
        ⟨hrole, htarget, block, hblock, -⟩
      · rw [hrole]
        exact ⟨rfl, rfl⟩
      · rw [hrole]
        exact ⟨rfl, rfl⟩
      · rw [hrole, hblock, htarget]
        exact ⟨rfl, rfl⟩
  constructor
  · exact List.flatMap_eq_nil_iff.mpr fun visit hvisit => (hnone visit hvisit).1
  · rw [statements, List.filterMap_eq_nil_iff.mpr fun visit hvisit => (hnone visit hvisit).2]
    rfl

/-- Every block of the mode is filed below its selector, and its content is marked. -/
theorem isContent_modeFiling (hfinite : tree.isFinite = true) (hdistinct : tree.isDistinct = true)
    (hspelled : tree.isSpelled = true) {filing : ModeFiling}
    (h : filing ∈ tree.modeFilings options) : filing.selector = p ∧ IsContent filing.content := by
  obtain ⟨visit, hvisit, hfiling⟩ := List.mem_filterMap.mp h
  obtain ⟨hin, hreference, -, hparents, hblock, htarget⟩ := Visit.modeFiling?_eq_some hfiling
  obtain ⟨htarget', hplain⟩ : Target.ofKey? options visit.key = some (.mode p) ∧
      filing.block.isPlain = true := by
    rcases role_of_refersOnlyTo hmode hrefers hvisit with (hrole | hrole) |
      ⟨-, htarget', block, hblock', hplain⟩
    · exact absurd (hrole.symm.trans hreference) (by simp)
    · exact absurd (hrole.symm.trans hreference) (by simp)
    · exact ⟨htarget', Option.some.inj (hblock'.symm.trans hblock) ▸ hplain⟩
  rw [htarget] at htarget'
  have hbelow {q : String → Node → Bool} (hq : every q tree = true) : every q filing.block = true :=
    every_of_block? (every_of_mem_visitsBelow hq hvisit).2 hblock
  obtain ⟨keys, hkeys, hspelledKeys⟩ := @keys_of_mem_visitsBelow
    (fun key _ => Selector.isSpelled key) (Selector.isSpelled · = true) (fun h _ => h) [] visit tree
    hspelled hvisit
  have hdistinctBlock : filing.block.isDistinct = true := by
    obtain ⟨hself, hinner⟩ := every_of_mem_visitsBelow (isDistinct_iff.mp hdistinct).2 hvisit
    have := (Node.block_of_block? hself hinner).1
    rwa [hblock] at this
  refine ⟨by simpa using htarget', ?_⟩
  rw [ModeFiling.content, hparents]
  refine isContent_descendantTree hin (fun key hkey => ?_) hplain (hbelow hfinite) hdistinctBlock
    (hbelow hspelled)
  rw [hkeys, List.nil_append] at hkey
  exact hspelledKeys key hkey

/-- The modes are nothing, or content below the selector of the mode. -/
theorem modesOf_of_refersOnlyTo (hfinite : tree.isFinite = true)
    (hdistinct : tree.isDistinct = true) (hspelled : tree.isSpelled = true) :
    tree.modesOf options = [] ∨
      ∃ content, tree.modesOf options = [(p, .tree content)] ∧ IsContent content := by
  refine mergeAll_of (p := fun modes => modes = [] ∨
    ∃ content, modes = [(p, .tree content)] ∧ IsContent content) (Or.inl rfl) ?_ fun modes h => ?_
  · rintro a b (rfl | ⟨first, rfl, hfirst⟩) (rfl | ⟨second, rfl, hsecond⟩)
    · exact Or.inl rfl
    · exact Or.inr ⟨second, rfl, hsecond⟩
    · exact Or.inr ⟨first, rfl, hfirst⟩
    · refine Or.inr ⟨merge first second, ?_, hfirst.merge hsecond⟩
      simp [merge, mergeNode, Entries.upsert]
  · obtain ⟨filing, hfiling, rfl⟩ := List.mem_map.mp h
    obtain ⟨rfl, hcontent⟩ := isContent_modeFiling hmode hrefers hfinite hdistinct hspelled hfiling
    exact Or.inr ⟨filing.content, rfl, hcontent⟩

end Mode

/-! ## What the content declares -/

/-- What the content of a mode declares for every choice of alternatives. Content that stands for a
reference has no key below which it could be declared. -/
def contentDeclared (content : StyleTree) : List Declared :=
  if (reference? content).isSome then [] else content.allDeclared

/-- The first key above a leaf of the content is marked. -/
theorem IsContent.head?_parents {content : StyleTree} (h : IsContent content) {leaf : Leaf}
    (hleaf : leaf ∈ content.leaves) : leaf.parents.head?.all Selector.isMarked = true := by
  have hbelow : ∀ entries : StyleTree,
      (∀ key node, (key, node) ∈ entries → node.isLeaf = true ∨ Selector.isMarked key = true) →
      leaf ∈ leavesBelow [] entries → leaf.parents.head?.all Selector.isMarked = true := by
    intro entries
    induction entries with
    | nil => simp [leavesBelow]
    | cons entry rest ih =>
      obtain ⟨key, node⟩ := entry
      intro hmarked hleaf
      rw [leavesBelow] at hleaf
      rcases List.mem_append.mp hleaf with hleaf | hleaf
      · cases hvalue : node.value? with
        | some value =>
          rw [leavesNode_of_value? hvalue, List.mem_singleton] at hleaf
          rw [hleaf]
          rfl
        | none =>
          have hkey := (hmarked key node List.mem_cons_self).resolve_left
            (by simp [Node.isLeaf, hvalue])
          cases node with
          | leaf value => exact absurd hvalue (by simp [Node.value?])
          | tree inner =>
            have hreference : reference? inner = none := hvalue
            rw [leavesNode_of_block hreference, leavesBelow_eq_map] at hleaf
            obtain ⟨other, -, rfl⟩ := List.mem_map.mp hleaf
            simpa [Leaf.below] using hkey
      · exact ih (fun k n hmem => hmarked k n (List.mem_cons_of_mem _ hmem)) hleaf
  exact hbelow content h.marked hleaf

/-- Below a selector the content declares what it declares for every choice, behind the selector. -/
theorem declared_content {content : StyleTree} (h : IsContent content) {q : String}
    (hcomma : ',' ∉ q.toList) (hq : Selector.join [q] ≠ "") :
    declared [(q, .tree content)] =
      content.contentDeclared.map (Declared.rename (Selector.behind (Selector.join [q]))) := by
  rw [declared, leaves, leavesBelow, leavesBelow, List.append_nil, contentDeclared]
  cases hreference : reference? content with
  | some value =>
    have hnone : Leaf.declared ⟨[], q, value⟩ = [] := by
      unfold Leaf.declared
      split <;> rfl
    rw [leavesNode, hreference, Option.isSome_some, if_pos rfl, List.map_nil, List.flatMap_cons,
      hnone]
    rfl
  | none =>
    rw [leavesNode_of_block hreference, leavesBelow_eq_map, Option.isSome_none,
      if_neg (by simp), allDeclared, List.map_flatMap, List.flatMap_map, List.flatMap_def,
      List.flatMap_def]
    refine congrArg List.flatten (List.map_congr_left fun leaf hleaf => ?_)
    have hjoined := Selector.joined_of_marked hcomma hq (h.head?_parents hleaf)
    exact Leaf.declared_of_ofPath (Selector.ofPath_of_joined hq hjoined)

end StyleTree

/-! ## The two sections -/

/-- The rules with their selectors behind a text. -/
def RuleSet.putBehind (text : String) (rules : RuleSet) : RuleSet :=
  rules.map fun rule => (text ++ rule.1, rule.2)

theorem RuleSet.putBehind_inj {text : String} {a b : RuleSet}
    (h : putBehind text a = putBehind text b) : a = b := by
  refine (List.map_inj_right fun x y hxy => ?_).mp h
  obtain ⟨hselector, hdeclarations⟩ := Prod.mk.inj hxy
  have hchars := congrArg String.toList hselector
  rw [String.toList_append, String.toList_append] at hchars
  exact Prod.ext (String.toList_inj.mp (List.append_cancel_left hchars)) hdeclarations

/-- What a selector adds behind another one. -/
def Selector.suffix (s : String) : String := if s = "" then "" else " " ++ s

theorem Selector.behind_eq (q s : String) : behind q s = q ++ suffix s := by
  unfold behind suffix
  split
  · exact (String.append_empty).symm
  · exact String.append_assoc

theorem Selector.suffix_inj {s t : String} (h : suffix s = suffix t) : s = t :=
  @behind_inj "" s t (by rw [behind_eq, behind_eq, h])

/-- The rules that declarations leave, with what each selector adds behind another one. -/
def RuleSet.suffixes (list : List Declared) : RuleSet :=
  ofDeclared (list.map (Declared.rename Selector.suffix))

namespace RuleSet

variable (list : List Declared)

/-- Declarations behind a selector leave the rules behind it. -/
theorem ofDeclared_behind (q : String) :
    ofDeclared (list.map (Declared.rename (Selector.behind q))) =
      putBehind q (suffixes list) := by
  rw [ofDeclared_rename list fun _ _ => Selector.behind_inj, suffixes,
    ofDeclared_rename list fun _ _ => Selector.suffix_inj, putBehind, List.map_map]
  exact List.map_congr_left fun rule _ => by rw [Selector.behind_eq]; rfl

theorem distinct_ofDeclared : (ofDeclared list).Distinct :=
  Entries.distinct_nil.foldl_upsert Declared.selector
    (fun d old => Entries.insert d.property d.value (old.getD [])) list

variable {list} {q : String} (hq : q ≠ "") (hvisible : Text.StartsVisibly q.toList)

include hq hvisible

/-- Rules behind a visible selector have a visible text. -/
theorem isVisible_putBehind (hne : list ≠ []) :
    IsVisible (putBehind q (suffixes list)).css := by
  rw [← ofDeclared_behind]
  refine isVisible_css (fun d hd => ?_) (by simpa using hne)
  obtain ⟨other, -, rfl⟩ := List.mem_map.mp hd
  refine ⟨Selector.behind_ne_empty hq _, ?_⟩
  change Text.StartsVisibly (Selector.behind q other.selector).toList
  rw [Selector.behind_eq, String.toList_append]
  exact hvisible.append (mt String.toList_eq_nil_iff.mp hq) _

theorem trimmed_putBehind : Text.trimmed (putBehind q (suffixes list)).css =
    (putBehind q (suffixes list)).css := by
  by_cases hnil : list = []
  · have hempty : (putBehind q (suffixes [])).css = "" := rfl
    rw [hnil, hempty]
    decide
  · exact (isVisible_putBehind hq hvisible hnil).trimmed

end RuleSet

/-- A block below a visible header is trimmed. -/
theorem Layout.trimmed_block {header : String} (hne : header ≠ "")
    (h : Text.StartsVisibly header.toList) (body : String) :
    Text.trimmed (block header body) = block header body := by
  have hlist : header.toList ≠ [] := mt String.toList_eq_nil_iff.mp hne
  refine IsVisible.trimmed ⟨fun hempty => ?_, ?_, ?_⟩
  · have := congrArg String.toList hempty
    simp [block, hne] at this
  · rw [block, String.toList_append, String.toList_append, String.toList_append, List.append_assoc,
      List.append_assoc]
    exact h.append hlist _
  · rw [block, String.toList_append]
    have hbrace : Text.EndsVisibly "\n\x7d".toList :=
      @Text.EndsVisibly.append ['\x7d'] (Text.endsVisibly_singleton.mpr (by decide))
        (by decide) ['\n']
    exact hbrace.append (by decide) _

/-- Rules in a block below a media query, if there are any. -/
def RuleSet.mediaBlock (query : String) (rules : RuleSet) : String :=
  if rules = [] then "" else Layout.block ("@media " ++ query) rules.css

theorem RuleSet.trimmed_mediaBlock (query : String) (rules : RuleSet) :
    Text.trimmed (mediaBlock query rules) = mediaBlock query rules := by
  unfold mediaBlock
  split
  · decide
  · refine Layout.trimmed_block (fun h => ?_) ?_ _
    · have := congrArg String.toList h
      simp at this
    · rw [String.toList_append]
      exact (Text.startsVisibly_cons.mpr (by decide) : Text.StartsVisibly "@media ".toList).append
        (by decide) _

/-- A part with rules behind a visible selector stands in its block. -/
theorem Part.placeCss_putBehind {part : Part} {query : String}
    (hheader : part.header? = some ("@media " ++ query)) {q : String} (hq : q ≠ "")
    (hvisible : Text.StartsVisibly q.toList) (list : List Declared) :
    part.placeCss (RuleSet.putBehind q (RuleSet.suffixes list)).css =
      RuleSet.mediaBlock query (RuleSet.putBehind q (RuleSet.suffixes list)) := by
  unfold placeCss RuleSet.mediaBlock
  rw [hheader]
  dsimp only
  by_cases hnil : list = []
  · subst hnil
    rfl
  · rw [if_neg (RuleSet.isVisible_putBehind hq hvisible hnil).ne_empty, if_neg]
    rw [RuleSet.putBehind, List.map_eq_nil_iff, RuleSet.suffixes, RuleSet.ofDeclared_eq_nil_iff,
      List.map_eq_nil_iff]
    exact hnil

namespace StyleTree

section Sections

variable {options : Options} {name p : String} {twin : AutoMode}
  (hoptions : options.IsAutoMode name p twin)

include hoptions

/-- A bucket with content of the mode is a part of its own, and the content is one more part below
the other selector. -/
theorem parts_of_content {found : Collected} {content : StyleTree}
    (htables : ∀ table, found.buckets.table table = [])
    (hmodes : found.buckets.modes = [(p, .tree content)]) :
    found.parts options true = ⟨none, false, false, [(p, .tree content)]⟩ ::
      if content.isEmpty then []
      else [⟨some ("@media " ++ twin.query), false, true, [(twin.selector, .tree content)]⟩] := by
  have hlayers : found.buckets.layers = [] := htables .layers
  have hcontainers : found.buckets.containers = [] := htables .containers
  have hmedia : found.buckets.media = [] := htables .media
  have hbuckets : found.buckets.autoBuckets options =
      if content.isEmpty then [] else [(twin.query, [(twin.selector, .tree content)])] := by
    have hget : found.buckets.modes.get? p = some (.tree content) := by simp [hmodes, Entries.get?]
    rw [Buckets.autoBuckets_eq _ (by simp [hoptions.auto]), hoptions.auto, Option.getD_some,
      List.filterMap_cons, List.filterMap_nil, Buckets.autoBucket?, hoptions.mode.found,
      Option.bind_some, Buckets.modeContent?, hget]
    cases content <;> rfl
  rw [Collected.parts, hlayers, hcontainers, hmedia, hbuckets, hmodes]
  cases content <;> rfl

theorem parts_of_no_modes {found : Collected} (htables : ∀ table, found.buckets.table table = [])
    (hmodes : found.buckets.modes = []) : found.parts options true = [] := by
  have hlayers : found.buckets.layers = [] := htables .layers
  have hcontainers : found.buckets.containers = [] := htables .containers
  have hmedia : found.buckets.media = [] := htables .media
  have hbuckets : found.buckets.autoBuckets options = [] := by
    rw [Buckets.autoBuckets_eq _ (by simp [hoptions.auto]), hoptions.auto]
    simp [Buckets.autoBucket?, hoptions.mode.found, Buckets.modeContent?, hmodes]
  rw [Collected.parts, hlayers, hcontainers, hmedia, hbuckets, hmodes]
  rfl

end Sections

/-- Content below a selector compiles to the rules of its declarations behind the selector. -/
theorem css_compile_content {options : Options} {content : StyleTree} (h : IsContent content)
    {part : Part} {q : String} (htree : part.tree = [(q, .tree content)])
    (hcomma : ',' ∉ q.toList) (hkey : Text.isAtKey q = false) (hq : Selector.join [q] ≠ "")
    (steps : Nat) (scope : List String) :
    (part.compile options (steps + 1) scope).map Stylesheet.css =
      .ok (part.placeCss
        (RuleSet.putBehind (Selector.join [q]) (RuleSet.suffixes content.contentDeclared)).css) := by
  have hplain : isPlain [(q, .tree content)] = true :=
    @isPlain_nest [q] (by simpa using hkey) content h.plain
  have hfinite : isFinite [(q, .tree content)] = true := isFinite_nest [q] h.finite
  rw [Part.map_css_compile, htree, css_compileWithin_of_isPlain options hplain hfinite,
    declared_content h hcomma hq, RuleSet.ofDeclared_behind]
  rfl

section Compile

variable {options : Options} {name p : String} {twin : AutoMode}
  (hoptions : options.IsAutoMode name p twin) {tree : StyleTree}
  (hrefers : tree.refersOnlyTo name = true) (hfinite : tree.isFinite = true)
  (hdistinct : tree.isDistinct = true) (hspelled : tree.isSpelled = true)

include hoptions hrefers hfinite hdistinct hspelled

/-- The parts compile to the rules behind the selector of the mode and to the same rules behind the
other selector, in the block of the media query. -/
theorem css_parts_of_mode {found : Collected} (hholds : Collected.Holds options tree found)
    (htables : ∀ table, found.buckets.table table = []) (steps : Nat) :
    ∃ mode list texts, found.buckets.modes.collect options [] = .ok mode ∧
      mode.rules = RuleSet.putBehind (Selector.join [p]) (RuleSet.suffixes list) ∧
      ((found.parts options true).mapM fun part : Part =>
        (part.compile options (steps + 1) []).map Stylesheet.css) = .ok texts ∧
      (∀ text ∈ texts, Text.trimmed text = text) ∧
      texts.filter (· != "") =
        [(RuleSet.putBehind (Selector.join [p]) (RuleSet.suffixes list)).css,
          RuleSet.mediaBlock twin.query
            (RuleSet.putBehind (Selector.join [twin.selector]) (RuleSet.suffixes list))].filter
          (· != "") := by
  rcases modesOf_of_refersOnlyTo hoptions.mode hrefers hfinite hdistinct hspelled with
    hnil | ⟨content, hmodes, hcontent⟩
  · rw [← hholds.modes] at hnil
    rw [parts_of_no_modes hoptions htables hnil, hnil]
    exact ⟨.empty, [], [], rfl, rfl, rfl, by simp, rfl⟩
  · rw [← hholds.modes] at hmodes
    have hplain : isPlain [(p, .tree content)] = true :=
      @isPlain_nest [p] (by simpa using hoptions.mode.notKey) content hcontent.plain
    obtain ⟨mode, hmode, hrules, -⟩ :=
      collect_plain options [] hplain (isFinite_nest [p] hcontent.finite)
    rw [declared_content hcontent hoptions.mode.single hoptions.mode.selects,
      RuleSet.ofDeclared_behind] at hrules
    have hfirst := @css_compile_content options content hcontent
      ⟨none, false, false, [(p, .tree content)]⟩ p rfl hoptions.mode.single hoptions.mode.notKey
      hoptions.mode.selects steps []
    have hsecond := @css_compile_content options content hcontent
      ⟨some ("@media " ++ twin.query), false, true, [(twin.selector, .tree content)]⟩
      twin.selector rfl hoptions.single hoptions.notKey hoptions.selects steps []
    have hvisible (words : List String) := Selector.startsVisibly_join words
    rw [Part.placeCss_putBehind rfl hoptions.selects (hvisible _)] at hsecond
    have htrimmed := @RuleSet.trimmed_putBehind (contentDeclared content) _ hoptions.mode.selects
      (hvisible _)
    rw [parts_of_content hoptions htables hmodes, hmodes]
    by_cases hnil : content = []
    · subst hnil
      refine ⟨mode, contentDeclared [], [(RuleSet.putBehind (Selector.join [p])
        (RuleSet.suffixes (contentDeclared []))).css], hmode, hrules, ?_, by simpa using htrimmed,
        rfl⟩
      rw [List.isEmpty_nil, if_pos rfl, List.mapM_cons, hfirst]
      rfl
    · refine ⟨mode, contentDeclared content, [(RuleSet.putBehind (Selector.join [p])
        (RuleSet.suffixes (contentDeclared content))).css, RuleSet.mediaBlock twin.query
        (RuleSet.putBehind (Selector.join [twin.selector])
          (RuleSet.suffixes (contentDeclared content)))], hmode, hrules, ?_, ?_, rfl⟩
      · rw [if_neg (by simpa using hnil), List.mapM_cons, hfirst, List.mapM_cons, hsecond]
        rfl
      · simpa using ⟨htrimmed, RuleSet.trimmed_mediaBlock _ _⟩

/-- An automatic mode is given twice, each time with the same rules: behind the selector of the
mode, and in a block below the media query behind the selector that takes its place. -/
theorem compile_auto :
    ∃ found mode sheet rules,
      tree.collect options [] = .ok found ∧
      found.buckets.modes.collect options [] = .ok mode ∧
      mode.rules = RuleSet.putBehind (Selector.join [p]) rules ∧
      Entries.Distinct rules ∧ (∀ rule ∈ rules, rule.2 ≠ []) ∧
      tree.compile options = .ok sheet ∧
      sheet.css = "\n\n".intercalate ([found.rules.css,
        (RuleSet.putBehind (Selector.join [p]) rules).css,
        RuleSet.mediaBlock twin.query
          (RuleSet.putBehind (Selector.join [twin.selector]) rules)].filter (· != "")) := by
  obtain ⟨found, hfound, hholds⟩ :=
    @Collected.exists_collect options [] tree (failure?_of_isFinite hfinite [])
  obtain ⟨hfilings, hstatements⟩ := filings_of_refersOnlyTo hoptions.mode hrefers
  have htables (table : Table) : found.buckets.table table = [] := by
    rw [hholds.tables, tableOf, hfilings]
    rfl
  have hown : Text.trimmed found.rules.css = found.rules.css := by
    rw [hholds.rules]
    exact RuleSet.trimmed_css fun d hd => startsVisibly_of_mem_flatMap hd
  obtain ⟨steps, hsteps⟩ := steps_eq_add_two options tree
  obtain ⟨mode, list, texts, hmode, hrules, hparts, htexts, hkept⟩ :=
    css_parts_of_mode hoptions hrefers hfinite hdistinct hspelled hholds htables steps
  have hcss := css_compile options tree
  rw [hsteps, css_compileWithin_succ options (steps + 1) true hfound, hparts, hholds.statements,
    hstatements] at hcss
  obtain ⟨sheet, hsheet, hsheetcss⟩ := Except.exists_of_map_ok hcss
  refine ⟨found, mode, sheet, RuleSet.suffixes list, hfound, hmode, hrules,
    RuleSet.distinct_ofDeclared _, fun rule => RuleSet.ne_nil_of_mem_ofDeclared _, hsheet, ?_⟩
  dsimp only at hsheetcss
  rw [hsheetcss, String.intercalate_nil, Layout.sections_cons_empty,
    Layout.sections_of_trimmed (by simpa using ⟨hown, htexts⟩)]
  refine congrArg ("\n\n".intercalate ·) ?_
  rw [← List.singleton_append, List.filter_append, hkept, ← List.filter_append]
  rfl

end Compile

/-- Two blocks of a mode share a selector, and the choice of nothing leaves declarations under the
selector of the mode itself. Both sections have the same rules. -/
theorem compile_auto_shared_selector :
    ∃ sheet rules,
      compile ((Options.empty.withMode "dark" ":root.dark").withAuto "dark" ".auto" "(dark)")
        [("card, _", .tree [("color", .leaf (.text "blue")),
            ("@dark", .tree [("color", .leaf (.text "red"))])]),
          ("@ dark", .tree [("p", .tree [("color", .leaf (.text "red"))]),
            ("color", .leaf (.text "white"))])] = .ok sheet ∧
      RuleSet.putBehind ":root.dark" rules = [(":root.dark .card", [("color", "red")]),
        (":root.dark", [("color", "white")]), (":root.dark p", [("color", "red")])] ∧
      sheet.css = "\n\n".intercalate [".card \x7b\n  color: blue;\n\x7d",
        (RuleSet.putBehind ":root.dark" rules).css,
        Layout.block "@media (dark)" (RuleSet.putBehind ".auto" rules).css] := by
  obtain ⟨found, mode, sheet, rules, hfound, hmode, hrules, -, -, hsheet, hcss⟩ :=
    @compile_auto ((Options.empty.withMode "dark" ":root.dark").withAuto "dark" ".auto" "(dark)")
      "dark" ":root.dark" ⟨".auto", "(dark)"⟩
      ⟨⟨rfl, by decide, by decide, by decide, by decide, by decide, by decide, by decide⟩, rfl,
        by decide, by decide, by decide⟩
      [("card, _", .tree [("color", .leaf (.text "blue")),
          ("@dark", .tree [("color", .leaf (.text "red"))])]),
        ("@ dark", .tree [("p", .tree [("color", .leaf (.text "red"))]),
          ("color", .leaf (.text "white"))])]
      (by decide) (by decide) (by decide) (by decide)
  obtain rfl := Except.ok.inj hfound
  obtain rfl := Except.ok.inj hmode
  obtain rfl : rules = [(" .card", [("color", "red")]), ("", [("color", "white")]),
      (" p", [("color", "red")])] :=
    RuleSet.putBehind_inj (hrules.symm.trans (by decide))
  refine ⟨sheet, [(" .card", [("color", "red")]), ("", [("color", "white")]),
    (" p", [("color", "red")])], hsheet, by decide, ?_⟩
  exact hcss.trans (by decide +kernel)

end StyleTree

end NestedStyles
