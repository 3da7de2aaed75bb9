import NestedStyles.Proofs.Below
import NestedStyles.Proofs.Operations

/-!
# What becomes of the nodes of a level

One level of collection takes in the nodes that no `@` key stands above. `StyleTree.ownVisits` lists
them from the top down without the selector scopes, which hold nothing of their own, and
`StyleTree.items` lists the entries of the `@media` map at the root in place of the map. An item has
one outcome (`LevelItem.outcome`): it is reported, it is filed by one operation on the buckets, it
is declared under its selectors, or its value has no text. What a walk finds is what these outcomes
leave, one after another (`Collected.eq_run_outcomes`), and nothing else
(`Collected.collect_outcomes`).
-/

namespace NestedStyles

open Buckets (Operation)

/-! ## Items -/

/-- What one level of collection accounts for. -/
inductive LevelItem where
  /-- A node that is no selector scope. -/
  | node (visit : Visit)
  /-- An entry of the `@media` map at the root. -/
  | mapEntry (key : String) (node : Node)

namespace StyleTree

mutual

/-- A node that is a leaf or has an `@` key, or what stands below it. -/
def ownVisitsNode (above : List String) (key : String) : Node → List Visit
  | .leaf value => [⟨above ++ [key], .leaf value⟩]
  | .tree entries =>
    if (reference? entries).isSome || Text.isAtKey key then [⟨above ++ [key], .tree entries⟩]
    else ownVisitsBelow (above ++ [key]) entries

/-- The nodes below some keys that no `@` key stands above, without the selector scopes. -/
def ownVisitsBelow (above : List String) : List (String × Node) → List Visit
  | [] => []
  | (key, node) :: rest => ownVisitsNode above key node ++ ownVisitsBelow above rest

end

/-- The nodes of a tree that no `@` key stands above, without the selector scopes, in the order of
the document. -/
def ownVisits (tree : StyleTree) : List Visit := ownVisitsBelow [] tree

end StyleTree

/-- The items of a node: the entries of the `@media` map at the root, or the node itself. -/
def Visit.items (visit : Visit) : List LevelItem :=
  match visit.node.block? with
  | some block =>
    if visit.path = ["@media"] then block.map fun entry => .mapEntry entry.1 entry.2
    else [.node visit]
  | none => [.node visit]

/-- What one level of collection accounts for, in the order of the document. -/
def StyleTree.items (tree : StyleTree) : List LevelItem := tree.ownVisits.flatMap Visit.items

/-! ## Outcomes -/

/-- What becomes of an item. -/
inductive Outcome where
  | reported (diagnostic : Diagnostic)
  /-- It notes a statement or files a block. -/
  | filed (operation : Operation)
  | declared (list : List Declared)
  /-- Its value has no text. -/
  | nothing

namespace Outcome

def diagnostic? : Outcome → Option Diagnostic
  | .reported diagnostic => some diagnostic
  | _ => none

def operation? : Outcome → Option Operation
  | .filed operation => some operation
  | _ => none

def declarations : Outcome → List Declared
  | .declared list => list
  | _ => []

/-- What is found with one more outcome. -/
def apply (found : Collected) : Outcome → Collected
  | .reported diagnostic => { found with diagnostics := found.diagnostics ++ [diagnostic] }
  | .filed operation => { found with buckets := operation.apply found.buckets }
  | .declared list => { found with
      rules := list.foldl (fun rules d => rules.declare d.selector d.property d.value) found.rules }
  | .nothing => found

end Outcome

namespace Visit

variable (options : Options) (scope : List String) (visit : Visit)

/-- The node is a text or nothing at an `@layer` key. -/
def namesLayers : Bool :=
  match visit.node with
  | .leaf (.text _) | .leaf .null => Text.beginsWith "@layer" visit.key
  | _ => false

/-- What becomes of a block at an `@` key. -/
def blockOutcome (block : StyleTree) : Outcome :=
  if Text.beginsWith "@layer" visit.key then .filed (.addLayer visit.key visit.parents block)
  else if Text.beginsWith "@container" visit.key then
    .filed (.addContainer visit.key visit.parents block)
  else
    match Target.ofKey? options visit.key with
    | some target => .filed (.add target visit.parents block)
    | none => .reported ⟨scope ++ visit.path, .unresolved visit.key⟩

/-- What becomes of a leaf at an `@` key. -/
def atLeafOutcome : Outcome :=
  if visit.namesLayers then .filed (.addStatement visit.key (Collected.layerNames visit.node))
  else .reported ⟨scope ++ visit.path, .withoutBlock visit.key⟩

/-- What becomes of a value. -/
def valueOutcome (value : Value) : Outcome :=
  match value.written? (Property.name visit.key) with
  | none => .nothing
  | some css =>
    match Selector.ofPath visit.parents with
    | [] => .reported ⟨scope ++ visit.path, .orphan (Property.name visit.key)⟩
    | selectors => .declared (selectors.map (⟨·, Property.name visit.key, css⟩))

end Visit

/-- What becomes of an item. -/
def LevelItem.outcome (options : Options) (scope : List String) : LevelItem → Outcome
  | .node visit =>
    if Text.isAtKey visit.key then
      match visit.node.block? with
      | some block => visit.blockOutcome options scope block
      | none => visit.atLeafOutcome scope
    else
      match visit.node.value? with
      | some value => visit.valueOutcome scope value
      | none => .nothing
  | .mapEntry key entry =>
    match entry.block?, Target.mapQuery? options key with
    | none, _ => .reported ⟨scope ++ ["@media", key], .invalidMediaEntry key⟩
    | some _, none => .reported ⟨scope ++ ["@media", key], .unresolved key⟩
    | some block, some query => .filed (.addMedia query [] block)

/-- The outcomes of the items of a tree. -/
def StyleTree.outcomes (options : Options) (scope : List String) (tree : StyleTree) :
    List Outcome :=
  tree.items.map (LevelItem.outcome options scope)

/-! ## The visits that matter -/

/-- A visit that a level accounts for: no `@` key stands above the node, and it is no selector
scope. -/
def Visit.isOwn (visit : Visit) : Bool :=
  !visit.inAtRule && (visit.node.isLeaf || Text.isAtKey visit.key)

@[simp] theorem Visit.isOwn_mk (above : List String) (key : String) (node : Node) :
    (Visit.mk (above ++ [key]) node).isOwn =
      (!above.any Text.isAtKey && (node.isLeaf || Text.isAtKey key)) := by
  rw [isOwn, key_mk, inAtRule_mk]

namespace StyleTree

mutual

theorem filter_isOwn_visitsNode {above : List String} (habove : above.any Text.isAtKey = false)
    (key : String) : ∀ node : Node,
      (visitsNode (above ++ [key]) node).filter Visit.isOwn = ownVisitsNode above key node
  | .leaf value => by
    rw [visitsNode, ownVisitsNode]
    simp [habove, Node.isLeaf, Node.value?]
  | .tree entries => by
    have hleaf : (Node.tree entries).isLeaf = (reference? entries).isSome := rfl
    rw [visitsNode, ownVisitsNode]
    by_cases href : (reference? entries).isSome = true
    · simp [habove, hleaf, href]
    rw [if_neg href, List.filter_append]
    by_cases hkey : Text.isAtKey key = true
    -- What stands below an `@` key is visited first, and passed over.
    · have hbelow : (visitsBelow (above ++ [key]) entries).filter Visit.isOwn = [] := by
        refine List.filter_eq_nil_iff.mpr fun visit hvisit => ?_
        simp [Visit.isOwn, inAtRule_of_mem_visitsBelow (by simp [hkey]) hvisit]
      simp [hbelow, habove, hkey]
    · rw [filter_isOwn_visitsBelow (by simp [habove, hkey]) entries]
      simp [hleaf, href, hkey]

/-- The level of a tree holds the visits that matter, in their order. -/
theorem filter_isOwn_visitsBelow {above : List String}
    (habove : above.any Text.isAtKey = false) : ∀ entries : List (String × Node),
      (visitsBelow above entries).filter Visit.isOwn = ownVisitsBelow above entries
  | [] => rfl
  | (key, node) :: rest => by
    rw [visitsBelow, ownVisitsBelow, List.filter_append, filter_isOwn_visitsNode habove key node,
      filter_isOwn_visitsBelow habove rest]

end

end StyleTree

/-! ## One visit -/

/-- What has a block is no leaf. -/
theorem Node.isLeaf_of_block? {node : Node} {block : StyleTree} (h : node.block? = some block) :
    node.isLeaf = false := by
  rw [Bool.eq_false_iff, Ne, ← Node.block?_eq_none_iff, h]
  simp

namespace Visit

variable {visit : Visit}

/-- What a leaf means to the compiler. -/
theorem role_of_no_block (h : visit.node.block? = none) : visit.role =
    if visit.namesLayers then .layerStatement
    else if Text.isAtKey visit.key then .reference else .declaration := by
  have hleaf := (Node.block?_eq_none_iff visit.node).mp h
  obtain ⟨path, value | entries⟩ := visit
  · cases value with
    | text s => rfl
    | null => rfl
    | _ => simp [role, namesLayers, Node.isLeaf, Node.value?]
  · simp [role, namesLayers, hleaf]

/-- What a block means to the compiler. -/
theorem role_of_block? {block : StyleTree} (h : visit.node.block? = some block) : visit.role =
    if Text.beginsWith "@layer" visit.key then .layerBlock
    else if Text.beginsWith "@container" visit.key then .containerBlock
    else if visit.path = ["@media"] then .mediaMap
    else if Text.isAtKey visit.key then .reference else .scope := by
  have hleaf := Node.isLeaf_of_block? h
  obtain ⟨path, value | entries⟩ := visit
  · exact absurd hleaf (by simp [Node.isLeaf, Node.value?])
  · simp [role, hleaf]

end Visit

namespace Collected

variable {options : Options} {scope : List String} {found found' : Collected} {visit : Visit}

/-- A visit that no level accounts for finds nothing. -/
theorem visit_of_not_isOwn (h : visit.isOwn = false) :
    Collected.visit options scope found visit = .ok found := by
  unfold Collected.visit
  split
  · rfl
  · next hin =>
    rw [Bool.not_eq_true] at hin
    rw [Visit.isOwn, hin, Bool.not_false, Bool.true_and, Bool.or_eq_false_iff] at h
    obtain ⟨hleaf, hkey⟩ := h
    rcases Visit.role_of_plain hkey with hrole | hrole
    · have hvalue : visit.node.value? = none := by
        rwa [Node.isLeaf, Option.isSome_eq_false_iff, Option.isNone_iff_eq_none] at hleaf
      rw [hrole, hvalue]
    · rw [hrole]

/-- What is found with the outcomes of a row of items. -/
def run (options : Options) (scope : List String) (found : Collected) (items : List LevelItem) :
    Collected :=
  (items.map (LevelItem.outcome options scope)).foldl Outcome.apply found

/-- A value has the outcome of its node. -/
theorem declare_eq {value : Value} (h : found.declare scope visit value = .ok found') :
    found' = (visit.valueOutcome scope value).apply found := by
  unfold declare at h
  unfold Visit.valueOutcome
  split at h
  · simp at h
  · dsimp only at h
    cases hwritten : value.written? (Property.name visit.key) with
    | none =>
      rw [hwritten] at h
      exact (Except.ok.inj h).symm
    | some css =>
      rw [hwritten] at h
      cases hpath : Selector.ofPath visit.parents with
      | nil =>
        rw [hpath] at h
        exact (Except.ok.inj h).symm
      | cons selector rest =>
        rw [hpath] at h
        rw [← Except.ok.inj h]
        simp only [Outcome.apply, List.foldl_map]

/-- The entries of the `@media` map have their outcomes. -/
theorem foldl_fileMedia (entries : StyleTree) : entries.foldl (fileMedia options scope) found =
    found.run options scope (entries.map fun entry => .mapEntry entry.1 entry.2) := by
  rw [run, List.map_map, List.foldl_map]
  congr 1
  funext found ⟨key, node⟩
  unfold fileMedia
  simp only [Function.comp_apply, LevelItem.outcome]
  cases node.block? with
  | none => rfl
  | some block => cases Target.mapQuery? options key <;> rfl

/-- A leaf has the outcome of its node. -/
theorem visit_of_no_block (hin : visit.inAtRule = false) (hblock : visit.node.block? = none)
    (h : Collected.visit options scope found visit = .ok found') :
    found' = (LevelItem.outcome options scope (.node visit)).apply found := by
  unfold Collected.visit at h
  rw [if_neg (by simp [hin]), Visit.role_of_no_block hblock] at h
  unfold LevelItem.outcome Visit.atLeafOutcome
  dsimp only
  rw [hblock]
  by_cases hkey : Text.isAtKey visit.key = true
  · simp only [if_pos hkey] at h ⊢
    by_cases hnames : visit.namesLayers = true
    · rw [if_pos hnames] at h ⊢
      exact (Except.ok.inj h).symm
    · rw [if_neg hnames] at h ⊢
      rw [← Except.ok.inj h, fileReference, hblock]
      rfl
  · have hnames : visit.namesLayers = false := by
      unfold Visit.namesLayers
      split
      · exact (Visit.not_beginsWith_of_plain (Bool.not_eq_true _ ▸ hkey)).1
      · exact (Visit.not_beginsWith_of_plain (Bool.not_eq_true _ ▸ hkey)).1
      · rfl
    rw [hnames, if_neg (by simp), if_neg hkey] at h
    rw [if_neg hkey]
    cases hvalue : visit.node.value? with
    | none =>
      rw [hvalue] at h
      exact (Except.ok.inj h).symm
    | some value =>
      rw [hvalue] at h
      exact declare_eq h

/-- The block of an `@` key has the outcomes of its items. -/
theorem visit_of_block {block : StyleTree} (hin : visit.inAtRule = false)
    (hkey : Text.isAtKey visit.key = true) (hblock : visit.node.block? = some block)
    (h : Collected.visit options scope found visit = .ok found') :
    found' = found.run options scope visit.items := by
  unfold Collected.visit at h
  rw [if_neg (by simp [hin]), Visit.role_of_block? hblock] at h
  have hitem : found.run options scope [.node visit] =
      (visit.blockOutcome options scope block).apply found := by
    simp only [run, List.map_singleton, List.foldl_cons, List.foldl_nil, LevelItem.outcome,
      if_pos hkey, hblock]
  unfold Visit.items
  rw [hblock]
  dsimp only
  -- The `@media` map is no layer and no container, so these come first in either order.
  have hmap (lead : String) (hlead : Text.beginsWith lead "@media" = false)
      (hbegins : Text.beginsWith lead visit.key = true) : visit.path ≠ ["@media"] := fun hpath => by
    rw [Visit.key, hpath] at hbegins
    exact absurd (hlead.symm.trans hbegins) (by simp)
  by_cases hlayer : Text.beginsWith "@layer" visit.key = true
  · rw [if_pos hlayer, hblock] at h
    rw [if_neg (hmap _ (by decide) hlayer), hitem, Visit.blockOutcome, if_pos hlayer]
    exact (Except.ok.inj h).symm
  rw [if_neg hlayer] at h
  by_cases hcontainer : Text.beginsWith "@container" visit.key = true
  · rw [if_pos hcontainer, hblock] at h
    rw [if_neg (hmap _ (by decide) hcontainer), hitem, Visit.blockOutcome, if_neg hlayer,
      if_pos hcontainer]
    exact (Except.ok.inj h).symm
  rw [if_neg hcontainer] at h
  by_cases hpath : visit.path = ["@media"]
  · rw [if_pos hpath] at h
    rw [if_pos hpath, ← foldl_fileMedia, ← Except.ok.inj h, Node.eq_tree_of_block? hblock]
    rfl
  · rw [if_neg hpath, if_pos hkey] at h
    rw [if_neg hpath, hitem, Visit.blockOutcome, if_neg hlayer, if_neg hcontainer,
      ← Except.ok.inj h, fileReference, hblock]
    cases Target.ofKey? options visit.key <;> rfl

/-- A visit that a level accounts for has the outcomes of its items. -/
theorem visit_of_isOwn (hown : visit.isOwn = true)
    (h : Collected.visit options scope found visit = .ok found') :
    found' = found.run options scope visit.items := by
  rw [Visit.isOwn, Bool.and_eq_true, Bool.not_eq_true'] at hown
  obtain ⟨hin, hself⟩ := hown
  cases hblock : visit.node.block? with
  | none =>
    unfold Visit.items
    rw [hblock]
    exact visit_of_no_block hin hblock h
  | some block =>
    rw [Node.isLeaf_of_block? hblock, Bool.false_or] at hself
    exact visit_of_block hin hself hblock h

/-! ## A walk -/

/-- A walk finds what the outcomes of the tree leave, one after another. -/
theorem eq_run_items {tree : StyleTree} (h : tree.collect options scope = .ok found) :
    found = run options scope .empty tree.items := by
  have hstep (found found' : Collected) (visit : Visit)
      (h : Collected.visit options scope found visit = .ok found') :
      found' = if visit.isOwn = true then found.run options scope visit.items else found := by
    split
    · next hown => exact visit_of_isOwn hown h
    · next hown =>
      rw [visit_of_not_isOwn (Bool.not_eq_true _ ▸ hown)] at h
      exact (Except.ok.inj h).symm
  rw [StyleTree.collect, StyleTree.walk_eq_foldlM] at h
  have hfold : found = tree.visits.foldl (fun found visit =>
      if visit.isOwn = true then found.run options scope visit.items else found) .empty :=
    view_foldlM_visit id hstep h
  refine hfold.trans ?_
  rw [← List.foldl_filter, StyleTree.visits, StyleTree.filter_isOwn_visitsBelow (by rfl), run,
    StyleTree.items, List.map_flatMap, List.foldl_flatMap]
  rfl

end Collected

/-! ## What the outcomes leave -/

namespace Outcome

variable (outcomes : List Outcome) (found : Collected)

/-- A report changes the diagnostics only. -/
theorem diagnostics_foldl : (outcomes.foldl apply found).diagnostics =
    found.diagnostics ++ outcomes.filterMap diagnostic? := by
  induction outcomes generalizing found with
  | nil => exact (List.append_nil _).symm
  | cons outcome rest ih =>
    rw [List.foldl_cons, ih]
    cases outcome with
    | reported diagnostic => exact List.append_assoc ..
    | _ => rfl

theorem rules_foldl : (outcomes.foldl apply found).rules =
    (outcomes.flatMap declarations).foldl
      (fun rules d => rules.declare d.selector d.property d.value) found.rules := by
  induction outcomes generalizing found with
  | nil => rfl
  | cons outcome rest ih =>
    rw [List.foldl_cons, ih, List.flatMap_cons, List.foldl_append]
    cases outcome <;> rfl

theorem buckets_foldl : (outcomes.foldl apply found).buckets =
    (outcomes.filterMap operation?).foldl Operation.apply found.buckets := by
  induction outcomes generalizing found with
  | nil => rfl
  | cons outcome rest ih =>
    rw [List.foldl_cons, ih, List.filterMap_cons]
    cases outcome <;> rfl

end Outcome

namespace StyleTree

variable {options : Options} {scope : List String} {tree : StyleTree} {found : Collected}

/-- One level of collection accounts for every node. What it finds is what the outcomes of its items
say, and nothing else: the reports in order, the rule set that the declarations leave, each
statement once, and in each bucket the blocks that are filed into it. -/
theorem collect_outcomes (h : tree.collect options scope = .ok found) :
    let outcomes := tree.outcomes options scope
    let operations := outcomes.filterMap Outcome.operation?
    found.diagnostics = outcomes.filterMap Outcome.diagnostic? ∧
      found.rules = RuleSet.ofDeclared (outcomes.flatMap Outcome.declarations) ∧
      found.buckets.statements = (operations.filterMap Operation.statement?).eraseDups ∧
      (∀ kind, found.buckets.keys kind =
        (operations.filterMap (Operation.key? kind)).eraseDups) ∧
      ∀ bucket, found.buckets.node? bucket =
        (operations.filter (·.bucket? = some bucket)).foldl Operation.write none := by
  intro outcomes operations
  have hrun : found = outcomes.foldl Outcome.apply .empty := Collected.eq_run_items h
  have hbuckets : found.buckets = Buckets.run operations := by
    rw [hrun, Outcome.buckets_foldl]
    rfl
  refine ⟨?_, ?_, ?_, fun kind => ?_, fun bucket => ?_⟩
  · rw [hrun, Outcome.diagnostics_foldl]
    rfl
  · rw [hrun, Outcome.rules_foldl]
    rfl
  · rw [hbuckets, Buckets.statements_run]
  · rw [hbuckets, Buckets.keys_run]
  · rw [hbuckets, Buckets.node?_run]

/-- A property without a selector, an unknown name and a text in the `@media` map are reported, the
rest is declared and filed. -/
theorem collect_outcomes_of_each_kind :
    ∃ found, collect (Options.empty.withMode "dark" ".dark") ["@layer a"]
        [("color", .leaf (.text "red")),
          ("p", .tree [("margin", .leaf (.text "0")), ("@layer", .leaf (.text "base")),
            ("@dark", .tree [("color", .leaf (.text "white"))]), ("@none", .tree [])]),
          ("@media", .tree [("print", .tree []), ("screen", .leaf (.text "x"))])] = .ok found ∧
      found.diagnostics = [⟨["@layer a", "color"], .orphan "color"⟩,
        ⟨["@layer a", "p", "@none"], .unresolved "@none"⟩,
        ⟨["@layer a", "@media", "screen"], .invalidMediaEntry "screen"⟩] ∧
      found.rules = RuleSet.ofDeclared [⟨"p", "margin", "0"⟩] ∧
      found.buckets.statements = ["@layer base;"] ∧
      found.buckets.keys (.table .media) = ["print"] ∧ found.buckets.keys .modes = [".dark"] := by
  obtain ⟨found, hfound, -⟩ := @Collected.exists_collect
    (Options.empty.withMode "dark" ".dark") ["@layer a"]
    [("color", .leaf (.text "red")),
      ("p", .tree [("margin", .leaf (.text "0")), ("@layer", .leaf (.text "base")),
        ("@dark", .tree [("color", .leaf (.text "white"))]), ("@none", .tree [])]),
      ("@media", .tree [("print", .tree []), ("screen", .leaf (.text "x"))])] (by decide +kernel)
  obtain ⟨hdiagnostics, hrules, hstatements, hkeys, -⟩ := collect_outcomes hfound
  refine ⟨found, hfound, hdiagnostics.trans (by decide +kernel), hrules.trans ?_,
    hstatements.trans (by decide +kernel), (hkeys _).trans (by decide +kernel),
    (hkeys _).trans (by decide +kernel)⟩
  exact congrArg RuleSet.ofDeclared (by decide +kernel)

end StyleTree

end NestedStyles
