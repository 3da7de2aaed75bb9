import NestedStyles.Proofs.Bare
import NestedStyles.Proofs.Changed

/-!
# Stylesheets of bare trees

The CSS of a tree does not depend on the names in its references, nor on the form that they are
given in at the keys of values. A walk sees the same at every visit, everything that is filed is
filed bare, and so the parts are bare as well (`Collected.parts_bare`,
`StyleTree.css_compileWithin_bare`).
-/

namespace NestedStyles

/-- What is found, with its references bare. -/
def Visit.bare (isValue : String → Bool) (visit : Visit) : Visit :=
  ⟨visit.path, StyleTree.bareNode isValue visit.key visit.node⟩

/-- The leaf with its reference bare. -/
def Leaf.bare (leaf : Leaf) : Leaf := { leaf with value := leaf.value.bare }

/-! ## Bare values -/

namespace Value

theorem bare_bare (value : Value) : value.bare.bare = value.bare := by cases value <;> rfl

theorem nonFinite?_bare (value : Value) : value.bare.nonFinite? = value.nonFinite? := by
  cases value <;> rfl

theorem written?_bare (value : Value) (property : String) :
    value.bare.written? property = value.written? property := by
  cases value <;> rfl

end Value

theorem Leaf.declared_bare (leaf : Leaf) : leaf.bare.declared = leaf.declared := by
  have hproperty : leaf.bare.property = leaf.property := rfl
  rw [declared, declared, hproperty, bare, Value.written?_bare]

namespace Node

variable {isValue : String → Bool} {key : String} {node : Node}

theorem layerNames_bareNode :
    Collected.layerNames (StyleTree.bareNode isValue key node) = Collected.layerNames node := by
  cases node with
  | leaf value => cases value <;> rfl
  | tree entries =>
    rw [StyleTree.bareNode]
    split
    · cases h : StyleTree.reference? entries with
      | none => rfl
      | some value =>
        obtain ⟨css, name, rfl⟩ := StyleTree.eq_reference_of_reference? h
        rfl
    · rfl

section Fits

variable (h : node.fits isValue key = true)

include h

theorem isLeaf_bareNode : (StyleTree.bareNode isValue key node).isLeaf = node.isLeaf := by
  cases node with
  | leaf value => rfl
  | tree entries =>
    cases hkey : isValue key with
    | true =>
      obtain ⟨value, hvalue⟩ := StyleTree.exists_reference_of_fits h hkey
      rw [StyleTree.bareNode_reference hkey hvalue, isLeaf, isLeaf, value?, value?, hvalue]
      rfl
    | false =>
      rw [StyleTree.bareNode_tree hkey]
      exact StyleTree.isSome_reference?_bare entries

theorem value?_bareNode : (StyleTree.bareNode isValue key node).value?.map Value.bare =
    node.value?.map Value.bare := by
  cases node with
  | leaf value => exact congrArg some value.bare_bare
  | tree entries =>
    cases hkey : isValue key with
    | true =>
      obtain ⟨value, hvalue⟩ := StyleTree.exists_reference_of_fits h hkey
      rw [StyleTree.bareNode_reference hkey hvalue, value?, value?, hvalue]
      exact congrArg some value.bare_bare
    | false =>
      rw [StyleTree.bareNode_tree hkey]
      exact StyleTree.map_bare_reference?_bare entries

theorem entries_bareNode (hleaf : node.isLeaf = false) :
    (StyleTree.bareNode isValue key node).entries = StyleTree.bare isValue node.entries := by
  cases node with
  | leaf value => exact absurd hleaf (by simp [isLeaf, value?])
  | tree entries =>
    rw [isLeaf, Option.isSome_eq_false_iff, Option.isNone_iff_eq_none] at hleaf
    rw [StyleTree.bareNode_tree (StyleTree.not_isValue_of_fits h hleaf)]
    rfl

theorem block?_bareNode : (StyleTree.bareNode isValue key node).block? =
    node.block?.map (StyleTree.bare isValue) := by
  cases node with
  | leaf value => rfl
  | tree entries =>
    cases hkey : isValue key with
    | true =>
      obtain ⟨value, hvalue⟩ := StyleTree.exists_reference_of_fits h hkey
      rw [StyleTree.bareNode_reference hkey hvalue, block?, block?, hvalue]
      rfl
    | false =>
      rw [StyleTree.bareNode_tree hkey, block?, block?, StyleTree.isSome_reference?_bare]
      split <;> rfl

end Fits

end Node

/-! ## Visits of a bare tree -/

namespace StyleTree

variable {isValue : String → Bool}

theorem visitsNode_of_isLeaf {path : List String} {node : Node} (h : node.isLeaf = true) :
    visitsNode path node = [⟨path, node⟩] := by
  cases node with
  | leaf value => rfl
  | tree entries => exact if_pos h

mutual

theorem visitsNode_bareNode {above : List String} {key : String} : ∀ {node : Node},
    node.fits isValue key = true → nodeEvery (Node.fits isValue) node = true →
      visitsNode (above ++ [key]) (bareNode isValue key node) =
        (visitsNode (above ++ [key]) node).map (Visit.bare isValue)
  | .leaf value, _, _ => by
    rw [bareNode, visitsNode, visitsNode, List.map_singleton, Visit.bare, Visit.key_mk, bareNode]
  | .tree entries, hself, hbelow => by
    have hnode : Visit.bare isValue ⟨above ++ [key], .tree entries⟩ =
        ⟨above ++ [key], bareNode isValue key (.tree entries)⟩ := by
      rw [Visit.bare, Visit.key_mk]
    cases href : reference? entries with
    | some value =>
      have hleaf : (Node.tree entries).isLeaf = true := Option.isSome_iff_exists.mpr ⟨value, href⟩
      rw [visitsNode_of_isLeaf hleaf, List.map_singleton, hnode,
        visitsNode_of_isLeaf ((Node.isLeaf_bareNode hself).trans hleaf)]
    | none =>
      rw [visitsNode_of_block href, List.map_append, List.map_singleton, hnode,
        bareNode_tree (not_isValue_of_fits hself href),
        visitsNode_of_block (reference?_bare_eq_none href), visitsBelow_bare hbelow]

/-- The visits of a tree with its references bare are the visits of the tree, bare. -/
theorem visitsBelow_bare {above : List String} : ∀ {entries : List (String × Node)},
    every (Node.fits isValue) entries = true →
      visitsBelow above (bare isValue entries) =
        (visitsBelow above entries).map (Visit.bare isValue)
  | [], _ => rfl
  | (key, node) :: rest, h => by
    simp only [every_cons, Bool.and_eq_true] at h
    obtain ⟨⟨hself, hbelow⟩, hrest⟩ := h
    rw [bare, visitsBelow, visitsBelow, List.map_append, visitsNode_bareNode hself hbelow,
      visitsBelow_bare hrest]

end

end StyleTree

namespace Visit

variable {options : Options} {isValue : String → Bool} {visit : Visit}

@[simp] theorem key_bare : (visit.bare isValue).key = visit.key := rfl

@[simp] theorem inAtRule_bare : (visit.bare isValue).inAtRule = visit.inAtRule := rfl

theorem isLeaf_of_mediaMap (hrole : visit.role = .mediaMap) : visit.node.isLeaf = false := by
  refine Bool.eq_false_iff.mpr fun hleaf => ?_
  have hchoice {c : Prop} [Decidable c] {a b : Role} (ha : a ≠ .mediaMap) (hb : b ≠ .mediaMap) :
      (if c then a else b) ≠ .mediaMap := by
    split
    · exact ha
    · exact hb
  unfold role at hrole
  split at hrole
  · exact hchoice (by simp) (hchoice (by simp) (by simp)) hrole
  · exact hchoice (by simp) (hchoice (by simp) (by simp)) hrole
  · rw [if_pos hleaf] at hrole
    exact hchoice (by simp) (by simp) hrole

section Fits

variable (h : visit.node.fits isValue visit.key = true)

include h

theorem role_bare : (visit.bare isValue).role = visit.role := by
  have hleaf := Node.isLeaf_bareNode h
  obtain ⟨path, node⟩ := visit
  cases node with
  | leaf value => cases value <;> rfl
  | tree entries =>
    cases hkey : isValue (Visit.mk path (.tree entries)).key with
    | false =>
      rw [StyleTree.bareNode_tree hkey] at hleaf
      unfold role
      rw [bare, StyleTree.bareNode_tree hkey]
      dsimp only
      rw [hleaf]
      rfl
    | true =>
      obtain ⟨value, hvalue⟩ := StyleTree.exists_reference_of_fits h hkey
      obtain ⟨css, name, rfl⟩ := StyleTree.eq_reference_of_reference? hvalue
      have hsome : (Node.tree entries).isLeaf = true := Option.isSome_iff_exists.mpr ⟨_, hvalue⟩
      unfold role
      rw [bare, StyleTree.bareNode_reference hkey hvalue]
      dsimp only [Value.bare]
      rw [hsome]
      rfl

theorem leaf?_bare : (visit.bare isValue).leaf?.map Leaf.bare = visit.leaf?.map Leaf.bare := by
  have hvalue := Node.value?_bareNode h
  have hleaf (value? : Option Value) :
      (value?.map (⟨visit.parents, visit.key, ·⟩ : Value → Leaf)).map Leaf.bare =
        (value?.map Value.bare).map (⟨visit.parents, visit.key, ·⟩) := by
    cases value? <;> rfl
  rw [leaf?, leaf?, inAtRule_bare, role_bare h]
  split
  · rfl
  · split
    · exact (hleaf _).trans ((congrArg _ hvalue).trans (hleaf _).symm)
    · rfl

theorem statement?_bare : (visit.bare isValue).statement? = visit.statement? := by
  rw [statement?, statement?, inAtRule_bare, role_bare h]
  simp only [bare, Node.layerNames_bareNode]
  rfl

theorem failure?_bare (scope : List String) :
    (visit.bare isValue).failure? scope = visit.failure? scope := by
  have hbind (leaf? : Option Leaf) :
      (leaf?.bind fun leaf => leaf.value.nonFinite?.map (.nonFinite (scope ++ visit.path))) =
        (leaf?.map Leaf.bare).bind fun leaf =>
          leaf.value.nonFinite?.map (CompileError.nonFinite (scope ++ visit.path)) := by
    cases leaf? with
    | none => rfl
    | some leaf =>
      rw [Option.map_some, Option.bind_some, Option.bind_some, Leaf.bare, Value.nonFinite?_bare]
  refine (hbind _).trans ?_
  rw [leaf?_bare h]
  exact (hbind _).symm

theorem modeFiling?_bare : (visit.bare isValue).modeFiling? options =
    (visit.modeFiling? options).map (ModeFiling.change (StyleTree.bare isValue)) :=
  modeFiling?_change rfl (role_bare h) (Node.block?_bareNode h)

omit h in
/-- The entries of the `@media` map with their references bare are filed bare. -/
theorem filterMap_ofMapEntry?_bare {entries : StyleTree}
    (hentries : StyleTree.every (Node.fits isValue) entries = true) :
    (StyleTree.bare isValue entries).filterMap (Filing.ofMapEntry? options) =
      (entries.filterMap (Filing.ofMapEntry? options)).map
        (Filing.change (StyleTree.bare isValue)) := by
  induction entries with
  | nil => rfl
  | cons entry rest ih =>
    obtain ⟨key, node⟩ := entry
    simp only [StyleTree.every_cons, Bool.and_eq_true] at hentries
    have hentry := @Filing.ofMapEntry?_change options (StyleTree.bare isValue) key node _
      (Node.block?_bareNode hentries.1.1)
    rw [StyleTree.bare, List.filterMap_cons, List.filterMap_cons, hentry, ih hentries.2]
    cases Filing.ofMapEntry? options (key, node) <;> rfl

theorem filings_bare (hbelow : StyleTree.nodeEvery (Node.fits isValue) visit.node = true) :
    (visit.bare isValue).filings options =
      (visit.filings options).map (Filing.change (StyleTree.bare isValue)) := by
  refine filings_change rfl (role_bare h) (Node.block?_bareNode h) rfl fun hrole => ?_
  have hentries : StyleTree.every (Node.fits isValue) visit.node.entries = true :=
    StyleTree.every_iff.mpr fun _ _ => StyleTree.nodeEvery_of_mem_entries hbelow
  rw [bare, Node.entries_bareNode h (isLeaf_of_mediaMap hrole), filterMap_ofMapEntry?_bare hentries]

end Fits

end Visit

namespace StyleTree

/-! ## What is found with the references bare -/

section Found

variable {options : Options} {isValue : String → Bool} {tree : StyleTree}
  (htree : every (Node.fits isValue) tree = true)

include htree

theorem fits_visit {visit : Visit} (hvisit : visit ∈ tree.visits) :
    visit.node.fits isValue visit.key = true ∧
      nodeEvery (Node.fits isValue) visit.node = true ∧
      ∀ key ∈ visit.parents, isValue key = false := by
  obtain ⟨hself, hbelow⟩ := every_of_mem_visitsBelow htree hvisit
  obtain ⟨keys, hparents, hkeys⟩ := keys_of_mem_visitsBelow (c := fun key => isValue key = false)
    (fun h href => not_isValue_of_fits h href) htree hvisit
  exact ⟨hself, hbelow, by simpa [hparents] using hkeys⟩

theorem visits_bare : (bare isValue tree).visits = tree.visits.map (Visit.bare isValue) :=
  visitsBelow_bare htree

/-- What is seen at the visits is what is seen in the tree, changed, if it is at each of them. -/
theorem filterMap_visits_bare {α β : Type} {f : Visit → Option β} {g : Visit → Option α}
    {change : α → β}
    (h : ∀ visit ∈ tree.visits, f (visit.bare isValue) = (g visit).map change) :
    (bare isValue tree).visits.filterMap f = (tree.visits.filterMap g).map change := by
  rw [visits_bare htree, List.filterMap_map]
  exact filterMap_change h

theorem filterMap_visits_same_bare {α : Type} {f : Visit → Option α}
    (h : ∀ visit ∈ tree.visits, f (visit.bare isValue) = f visit) :
    (bare isValue tree).visits.filterMap f = tree.visits.filterMap f := by
  have hseen := @filterMap_visits_bare isValue tree htree α α f f id fun visit hvisit => by
    rw [h visit hvisit, Option.map_id, id]
  rw [hseen, List.map_id]

/-- The same texts are declared. -/
theorem declared_bare : (bare isValue tree).ownLeaves.flatMap Leaf.declared =
    tree.ownLeaves.flatMap Leaf.declared := by
  have hleaves : (bare isValue tree).ownLeaves.map Leaf.bare = tree.ownLeaves.map Leaf.bare := by
    rw [ownLeaves, List.map_filterMap]
    refine filterMap_visits_bare htree fun visit hvisit => ?_
    exact Visit.leaf?_bare (fits_visit htree hvisit).1
  have hdeclared (leaves : List Leaf) :
      leaves.flatMap Leaf.declared = (leaves.map Leaf.bare).flatMap Leaf.declared := by
    rw [List.flatMap_map]
    exact congrArg (leaves.flatMap ·) (funext fun leaf => leaf.declared_bare.symm)
  rw [hdeclared, hleaves, ← hdeclared]

theorem statements_bare : (bare isValue tree).statements = tree.statements := by
  rw [statements, statements, filterMap_visits_same_bare htree fun visit hvisit => ?_]
  exact Visit.statement?_bare (fits_visit htree hvisit).1

/-- The same error ends the walk, if one does. -/
theorem failure?_bare (scope : List String) :
    (bare isValue tree).failure? scope = tree.failure? scope := by
  rw [failure?, failure?, ← List.head?_filterMap, ← List.head?_filterMap,
    filterMap_visits_same_bare htree fun visit hvisit => ?_]
  exact Visit.failure?_bare (fits_visit htree hvisit).1 scope

end Found

/-! ## What is filed with the references bare -/

/-- A block at a node of a tree that fits does. -/
theorem Fits.of_block? {isValue : String → Bool} {key : String} {node : Node} {block : StyleTree}
    (hself : node.fits isValue key = true) (hbelow : nodeEvery (Node.fits isValue) node = true)
    (h : node.block? = some block) : Fits isValue block := by
  refine ⟨?_, every_of_block? hbelow h⟩
  obtain rfl : node = .tree block := Node.eq_tree_of_block? h
  exact distinct_of_fits hself

/-- A map in a tree that fits does. -/
theorem Fits.of_get? {isValue : String → Bool} {tree : StyleTree} (h : Fits isValue tree)
    {key : String} {entries : StyleTree} (hget : tree.get? key = some (.tree entries)) :
    Fits isValue entries := by
  obtain ⟨hself, hbelow⟩ := every_iff.mp h.below _ _ (Entries.mem_of_get? hget)
  exact ⟨distinct_of_fits hself, hbelow⟩

/-- On trees that fit, making references bare commutes with merging. -/
theorem keepsMerges_bare (isValue : String → Bool) : KeepsMerges (Fits isValue) (bare isValue) :=
  ⟨Fits.nil, Fits.merge, rfl, fun ha hb => bare_merge ha.below hb.below⟩

section Filed

variable {options : Options} {isValue : String → Bool} {tree : StyleTree}
  (htree : every (Node.fits isValue) tree = true)

include htree

theorem fits_filing {filing : Filing} (h : filing ∈ tree.filings options) :
    Fits isValue filing.block ∧ ∀ key ∈ filing.parents, isValue key = false := by
  obtain ⟨visit, hvisit, hfiling⟩ := List.mem_flatMap.mp h
  obtain ⟨hself, hbelow, hparents⟩ := fits_visit htree hvisit
  obtain ⟨-, -, ⟨habove, hblock, -⟩ | ⟨habove, entry, hentry, hblock, -⟩⟩ :=
    Visit.mem_filings hfiling
  · rw [habove, hblock]
    refine ⟨?_, hparents⟩
    cases hnode : visit.node.block? with
    | none => exact Fits.nil
    | some block => exact Fits.of_block? hself hbelow hnode
  · obtain ⟨hentryself, hentrybelow⟩ := nodeEvery_of_mem_entries hbelow hentry
    rw [habove]
    exact ⟨Fits.of_block? hentryself hentrybelow hblock, by simp⟩

theorem fits_modeFiling (hkeys : options.Separates isValue) {filing : ModeFiling}
    (h : filing ∈ tree.modeFilings options) :
    Fits isValue filing.block ∧ (∀ key ∈ filing.parents, isValue key = false) ∧
      isValue filing.selector = false := by
  obtain ⟨visit, hvisit, hfiling⟩ := List.mem_filterMap.mp h
  obtain ⟨hself, hbelow, hparents⟩ := fits_visit htree hvisit
  obtain ⟨-, -, -, habove, hblock, htarget⟩ := Visit.modeFiling?_eq_some hfiling
  exact ⟨Fits.of_block? hself hbelow hblock, habove ▸ hparents,
    hkeys.modes _ (Entries.mem_of_get? (Target.mode_of_ofKey? htarget))⟩

theorem filings_bare :
    (bare isValue tree).filings options =
      (tree.filings options).map (Filing.change (bare isValue)) := by
  rw [filings, filings, visits_bare htree, List.flatMap_map, List.map_flatMap, List.flatMap_def,
    List.flatMap_def]
  refine congrArg List.flatten (List.map_congr_left fun visit hvisit => ?_)
  obtain ⟨hself, hbelow, -⟩ := fits_visit htree hvisit
  exact Visit.filings_bare hself hbelow

theorem modeFilings_bare : (bare isValue tree).modeFilings options =
    (tree.modeFilings options).map (ModeFiling.change (bare isValue)) :=
  filterMap_visits_bare htree fun _ hvisit => Visit.modeFiling?_bare (fits_visit htree hvisit).1

/-- Every bucket of a table has its references bare. -/
theorem tableOf_bare (table : Table) : (bare isValue tree).tableOf options table =
    (tree.tableOf options table).map fun entry => (entry.1, bare isValue entry.2) := by
  refine tableOf_change (keepsMerges_bare isValue) (filings_bare htree) (fun filing hfiling => ?_)
    table
  obtain ⟨hblock, hparents⟩ := fits_filing htree hfiling
  exact ⟨Fits.nest hparents hblock, (bare_nest hparents _).symm⟩

section Modes

variable (hkeys : options.Separates isValue)

include hkeys

theorem fits_modeFiling_tree {filing : ModeFiling} (h : filing ∈ tree.modeFilings options) :
    Fits isValue filing.tree := by
  obtain ⟨hblock, hparents, hselector⟩ := fits_modeFiling htree hkeys h
  exact Fits.nest (by simpa using hselector) (Fits.descendantTree hkeys.marked hparents hblock)

theorem fits_modesOf : Fits isValue (tree.modesOf options) := by
  refine mergeAll_of Fits.nil (fun _ _ => Fits.merge) fun content hcontent => ?_
  obtain ⟨filing, hfiling, rfl⟩ := List.mem_map.mp hcontent
  exact fits_modeFiling_tree htree hkeys hfiling

/-- The bucket of the modes has its references bare. -/
theorem modesOf_bare :
    (bare isValue tree).modesOf options = bare isValue (tree.modesOf options) := by
  refine modesOf_change (keepsMerges_bare isValue) (modeFilings_bare htree)
    fun filing hfiling => ⟨fits_modeFiling_tree htree hkeys hfiling, ?_⟩
  obtain ⟨hblock, hparents, hselector⟩ := fits_modeFiling htree hkeys hfiling
  rw [ModeFiling.tree, ModeFiling.tree, bare_nest (by simpa using hselector), ModeFiling.content,
    ModeFiling.content, ← bare_descendantTree hkeys.marked hparents hblock]
  rfl

end Modes

end Filed

end StyleTree

namespace Buckets

variable {options : Options} {isValue : String → Bool} {buckets left : Buckets}
  (hkeys : options.Separates isValue)
  (hleft : left.modes = StyleTree.bare isValue buckets.modes)

include hkeys hleft

/-- The bucket of an automatic mode has its references bare. -/
theorem autoBucket?_bare {entry : String × AutoMode} (hentry : entry ∈ options.auto.getD []) :
    left.autoBucket? options entry = (buckets.autoBucket? options entry).map fun bucket =>
      (bucket.1, StyleTree.bare isValue bucket.2) := by
  rw [autoBucket?, autoBucket?]
  cases hselector : options.modes.get? entry.1 with
  | none => rfl
  | some selector =>
    have hmode : isValue selector = false := hkeys.modes _ (Entries.mem_of_get? hselector)
    have hauto : isValue entry.2.selector = false := hkeys.auto entry hentry
    rw [Option.bind_some, Option.bind_some, modeContent?, modeContent?, hleft,
      StyleTree.get?_bare]
    rcases buckets.modes.get? selector with _ | value | content
    · rfl
    · rfl
    · have hpart : StyleTree.bare isValue [(entry.2.selector, .tree content)] =
          [(entry.2.selector, .tree (StyleTree.bare isValue content))] := by
        rw [StyleTree.bare, StyleTree.bareNode_tree hauto]
        rfl
      rw [Option.map_some, StyleTree.bareNode_tree hmode]
      cases content with
      | nil => rfl
      | cons first rest => exact congrArg (fun tree => some (entry.2.query, tree)) hpart.symm

section Filed

variable (hfits : StyleTree.Fits isValue buckets.modes)

include hfits

omit hleft in
theorem fits_autoBucket? {entry : String × AutoMode} (hentry : entry ∈ options.auto.getD [])
    {bucket : String × StyleTree} (h : buckets.autoBucket? options entry = some bucket) :
    StyleTree.Fits isValue bucket.2 := by
  obtain ⟨content, hcontent, rfl⟩ := Option.map_eq_some_iff.mp h
  obtain ⟨selector, -, hmode⟩ := Option.bind_eq_some_iff.mp hcontent
  exact @StyleTree.Fits.nest _ [entry.2.selector] (by simpa using hkeys.auto entry hentry) _
    (hfits.of_get? (get?_of_modeContent? hmode))

/-- Every bucket of the automatic modes has its references bare. -/
theorem autoBuckets_bare : left.autoBuckets options =
    (buckets.autoBuckets options).map fun entry => (entry.1, StyleTree.bare isValue entry.2) := by
  have hlist : (options.auto.getD []).filterMap (left.autoBucket? options) =
      ((options.auto.getD []).filterMap (buckets.autoBucket? options)).map fun bucket =>
        (bucket.1, StyleTree.bare isValue bucket.2) :=
    filterMap_change fun _ => autoBucket?_bare hkeys hleft
  rw [autoBuckets_eq_foldl, autoBuckets_eq_foldl, hlist, List.foldl_map]
  refine @StyleTree.KeepsMerges.foldl_fileUnder _ _ (StyleTree.keepsMerges_bare isValue) _ Prod.fst
    (fun _ => []) Prod.snd (fun bucket => StyleTree.bare isValue bucket.2) _
    (fun bucket hbucket => ⟨?_, rfl⟩) [] (by simp)
  obtain ⟨entry, hentry, hfiled⟩ := List.mem_filterMap.mp hbucket
  exact fits_autoBucket? hkeys hfits hentry hfiled

end Filed

end Buckets

/-! ## The CSS with the references bare -/

/-- The part with its references bare. -/
def Part.bare (isValue : String → Bool) (part : Part) : Part :=
  { part with tree := StyleTree.bare isValue part.tree }

namespace Collected

variable {options : Options} {isValue : String → Bool} (hkeys : options.Separates isValue)
  {tree : StyleTree} (htree : StyleTree.every (Node.fits isValue) tree = true)
  {found left : Collected} (hfound : Holds options tree found)

include hkeys htree hfound

/-- The parts of a tree with its references bare are those of the tree, bare. -/
theorem parts_bare (hleft : Holds options (StyleTree.bare isValue tree) left) (auto : Bool) :
    left.parts options auto = (found.parts options auto).map (Part.bare isValue) := by
  have htable (table : Table) : left.buckets.table table =
      (found.buckets.table table).map fun entry => (entry.1, StyleTree.bare isValue entry.2) := by
    rw [hleft.tables, hfound.tables, StyleTree.tableOf_bare htree]
  have hmodes : left.buckets.modes = StyleTree.bare isValue found.buckets.modes := by
    rw [hleft.modes, hfound.modes, StyleTree.modesOf_bare htree hkeys]
  have hempty : left.buckets.modes.isEmpty = found.buckets.modes.isEmpty := by
    rw [hmodes, StyleTree.bare_eq_map, List.isEmpty_map]
  have hauto := Buckets.autoBuckets_bare hkeys hmodes
    (hfound.modes ▸ StyleTree.fits_modesOf htree hkeys)
  have hlayers : left.buckets.layers = _ := htable .layers
  have hcontainers : left.buckets.containers = _ := htable .containers
  have hmedia : left.buckets.media = _ := htable .media
  rw [parts, parts, hlayers, hcontainers, hmedia, hempty, hmodes, hauto]
  simp only [List.map_append, List.map_map]
  congr 1
  · congr 1
    split <;> rfl
  · split
    · rw [List.map_map]; rfl
    · rfl

theorem fits_of_mem_parts {auto : Bool} {part : Part} (h : part ∈ found.parts options auto) :
    StyleTree.Fits isValue part.tree := by
  refine of_mem_parts (p := fun _ t => StyleTree.Fits isValue t) hfound (fun _ a b ha hb => ?_)
    (fun filing hfiling => ?_) (fun _ => StyleTree.fits_modeFiling_tree htree hkeys)
    (fun modes hmodes selector content hget entry hentry => ?_) h
  · exact StyleTree.Fits.merge (ha.elim (fun hnil => hnil ▸ StyleTree.Fits.nil) id) hb
  · obtain ⟨hblock, hparents⟩ := StyleTree.fits_filing htree hfiling
    exact StyleTree.Fits.nest hparents hblock
  · exact StyleTree.Fits.nest (by simpa using hkeys.auto entry hentry) (hmodes.of_get? hget)

end Collected

namespace StyleTree

variable {options : Options} {isValue : String → Bool} (hkeys : options.Separates isValue)

include hkeys

/-- The same text is compiled with the references bare, in any number of steps. -/
theorem css_compileWithin_bare (steps : Nat) : ∀ (scope : List String) (auto : Bool)
    {tree : StyleTree}, every (Node.fits isValue) tree = true →
    ((bare isValue tree).compileWithin options steps scope auto).map Stylesheet.css =
      (tree.compileWithin options steps scope auto).map Stylesheet.css := by
  induction steps with
  | zero => exact fun _ _ _ _ => rfl
  | succ steps ih =>
    intro scope auto tree htree
    refine css_compileWithin_congr (failure?_bare htree scope) (statements_bare htree)
      (declared_bare htree) fun found left hfound hleft => congrArg (Except.map _) ?_
    rw [Collected.parts_bare hkeys htree hfound hleft, List.mapM_map]
    refine mapM_congr fun part hpart => ?_
    rw [Function.comp_apply, Part.map_css_compile, Part.map_css_compile]
    exact congrArg (Except.map part.placeCss)
      (ih _ _ (Collected.fits_of_mem_parts hkeys htree hfound hpart).below)

end StyleTree

end NestedStyles
