import NestedStyles.Proofs.Filings

/-!
# What a walk finds

A walk fails at the first number it declares that is not finite, and otherwise it finds what its
visits find one by one, in order: leaves that are declared, names of layers, blocks for the three
tables and blocks of modes (`Collected.Holds`). What a visit finds depends on the node and the keys
above it only (`Visit.leaf?`, `Visit.statement?`, `Visit.filings`, `Visit.modeFiling?`).
-/

namespace NestedStyles

namespace Visit

variable (scope : List String) (visit : Visit)

/-- The leaf that a visit declares. -/
def leaf? : Option Leaf :=
  if visit.inAtRule then none
  else
    match visit.role with
    | .declaration => visit.node.value?.map (⟨visit.parents, visit.key, ·⟩)
    | _ => none

/-- The error that a visit ends a walk with. -/
def failure? : Option CompileError :=
  visit.leaf?.bind fun leaf => leaf.value.nonFinite?.map (.nonFinite (scope ++ visit.path))

variable {options : Options} {visit}

theorem leaf?_eq_some {leaf : Leaf} (h : visit.leaf? = some leaf) :
    visit.inAtRule = false ∧ visit.role = .declaration ∧ visit.node.value? = some leaf.value ∧
      leaf.parents = visit.parents ∧ leaf.key = visit.key := by
  unfold leaf? at h
  split at h
  · simp at h
  · next hin =>
    split at h
    · next hrole =>
      obtain ⟨value, hvalue, rfl⟩ := Option.map_eq_some_iff.mp h
      exact ⟨Bool.not_eq_true _ ▸ hin, hrole, hvalue, rfl, rfl⟩
    · simp at h

/-- What is neither a declaration nor a scope stands at an `@` key. -/
theorem isAtKey_of_role (h : visit.role ≠ .declaration) (hscope : visit.role ≠ .scope) :
    Text.isAtKey visit.key = true := by
  by_cases hlayer : Text.beginsWith "@layer" visit.key = true
  · exact Text.isAtKey_of_beginsWith (by decide) hlayer
  by_cases hcontainer : Text.beginsWith "@container" visit.key = true
  · exact Text.isAtKey_of_beginsWith (by decide) hcontainer
  by_cases hmap : visit.path = ["@media"]
  · rw [key, hmap]
    decide
  refine Decidable.byContradiction fun hkey => ?_
  rw [Bool.not_eq_true] at hkey hlayer hcontainer
  unfold role at h hscope
  simp only [hlayer, hcontainer, hkey, hmap] at h hscope
  split at h
  · simp at h
  · simp at h
  · split at h
    · simp at h
    · next hleaf => simp [hleaf] at hscope

/-- A filing is the block of the visit's own node, below the keys above it, or the block of an entry
of the `@media` map. -/
theorem mem_filings {filing : Filing} (h : filing ∈ visit.filings options) :
    visit.inAtRule = false ∧ Text.isAtKey visit.key = true ∧
      (filing.parents = visit.parents ∧ filing.block = visit.node.block?.getD [] ∧
          (filing.table ≠ .media ∧ filing.header = Text.trimmed visit.key ∨ filing.table = .media ∧
            Target.ofKey? options visit.key = some (.media filing.header)) ∨
        filing.parents = [] ∧ ∃ entry ∈ visit.node.entries, entry.2.block? = some filing.block ∧
          filing.table = .media ∧ Target.mapQuery? options entry.1 = some filing.header) := by
  unfold filings at h
  split at h
  · simp at h
  next hin =>
  rw [Bool.not_eq_true] at hin
  have hkey (hrole : visit.role ≠ .declaration) (hscope : visit.role ≠ .scope) :=
    isAtKey_of_role hrole hscope
  split at h
  · next hrole =>
    obtain rfl := List.mem_singleton.mp h
    exact ⟨hin, hkey (by simp [hrole]) (by simp [hrole]), Or.inl ⟨rfl, rfl, Or.inl ⟨by simp, rfl⟩⟩⟩
  · next hrole =>
    obtain rfl := List.mem_singleton.mp h
    exact ⟨hin, hkey (by simp [hrole]) (by simp [hrole]), Or.inl ⟨rfl, rfl, Or.inl ⟨by simp, rfl⟩⟩⟩
  · next hrole =>
    obtain ⟨entry, hentry, hfiling⟩ := List.mem_filterMap.mp h
    refine ⟨hin, hkey (by simp [hrole]) (by simp [hrole]), Or.inr ?_⟩
    unfold Filing.ofMapEntry? at hfiling
    split at hfiling
    · next block query hblock hquery =>
      obtain rfl := Option.some.inj hfiling
      exact ⟨rfl, entry, hentry, hblock, rfl, hquery⟩
    · simp at hfiling
  · next hrole =>
    split at h
    · next block query hblock htarget =>
      obtain rfl := List.mem_singleton.mp h
      exact ⟨hin, hkey (by simp [hrole]) (by simp [hrole]),
        Or.inl ⟨rfl, by rw [hblock]; rfl, Or.inr ⟨rfl, htarget⟩⟩⟩
    · simp at h
  · simp at h

theorem modeFiling?_eq_some {filing : ModeFiling} (h : visit.modeFiling? options = some filing) :
    visit.inAtRule = false ∧ visit.role = .reference ∧ Text.isAtKey visit.key = true ∧
      filing.parents = visit.parents ∧ visit.node.block? = some filing.block ∧
      Target.ofKey? options visit.key = some (.mode filing.selector) := by
  unfold modeFiling? at h
  split at h
  · simp at h
  · next hin =>
    split at h
    · next block selector hrole hblock htarget =>
      obtain rfl := Option.some.inj h
      exact ⟨Bool.not_eq_true _ ▸ hin, hrole,
        isAtKey_of_role (by simp [hrole]) (by simp [hrole]), rfl, hblock, htarget⟩
    · simp at h

end Visit

namespace StyleTree

variable (options : Options) (scope : List String) (tree : StyleTree)

/-- The leaves that a walk of the tree declares, in the order of the document. -/
def ownLeaves : List Leaf := tree.visits.filterMap Visit.leaf?

/-- The statements that a walk of the tree notes, each once. -/
def statements : List String := (tree.visits.filterMap Visit.statement?).eraseDups

/-- The blocks of modes that a walk of the tree files, in the order of the document. -/
def modeFilings : List ModeFiling := tree.visits.filterMap (Visit.modeFiling? options)

/-- The bucket of the modes after a walk of the tree. -/
def modesOf : StyleTree := mergeAll ((tree.modeFilings options).map ModeFiling.tree)

/-- The error that ends a walk of the tree. -/
def failure? : Option CompileError := tree.visits.findSome? (Visit.failure? scope)

variable {options tree}

/-- The keys of the tree of the modes are the selectors that blocks are filed under. -/
theorem exists_modeFiling_of_mem {key : String} {node : Node}
    (h : (key, node) ∈ tree.modesOf options) :
    ∃ filing ∈ tree.modeFilings options, filing.selector = key := by
  obtain ⟨t, ht, new, hmem⟩ := exists_of_mem_mergeAll h
  obtain ⟨filing, hfiling, rfl⟩ := List.mem_map.mp ht
  exact ⟨filing, hfiling, (Prod.mk.inj (List.mem_singleton.mp hmem)).1.symm⟩

/-- A walk of a tree with finite numbers does not fail. -/
theorem failure?_of_isFinite {tree : StyleTree} (h : tree.isFinite = true) (scope : List String) :
    tree.failure? scope = none := by
  refine List.findSome?_eq_none_iff.mpr fun visit hvisit => ?_
  obtain ⟨hfinite, -⟩ := every_of_mem_visitsBelow h hvisit
  rw [Visit.failure?, Option.bind_eq_none_iff]
  intro leaf hleaf
  rw [Option.map_eq_none_iff]
  obtain ⟨-, -, hvalue, -⟩ := Visit.leaf?_eq_some hleaf
  cases hnode : visit.node with
  | leaf other =>
    rw [hnode] at hfinite hvalue
    obtain rfl := Option.some.inj hvalue
    simpa [Node.isFinite] using hfinite
  | tree entries =>
    rw [hnode] at hvalue
    obtain ⟨css, name, hreference⟩ := eq_reference_of_reference? hvalue
    rw [hreference]
    rfl

end StyleTree

namespace Collected

/-! ## One visit -/

section Visit

variable {options : Options} {scope : List String} {found found' : Collected} {visit : Visit}

theorem visit_declaration {leaf : Leaf} (h : visit.leaf? = some leaf) :
    Collected.visit options scope found visit = found.declare scope visit leaf.value ∧
      leaf.parents = visit.parents ∧ leaf.key = visit.key := by
  obtain ⟨hin, hrole, hvalue, hparents, hkey⟩ := Visit.leaf?_eq_some h
  refine ⟨?_, hparents, hkey⟩
  rw [Collected.visit, hin, if_neg (by simp), hrole]
  simp [hvalue]

/-- A visit that declares no leaf changes no rules and does not fail. -/
theorem visit_of_no_leaf (h : visit.leaf? = none) :
    ∃ found', Collected.visit options scope found visit = .ok found' ∧
      found'.rules = found.rules := by
  have hmedia (entries : StyleTree) (found : Collected) :
      (entries.foldl (fileMedia options scope) found).rules = found.rules := by
    induction entries generalizing found with
    | nil => rfl
    | cons entry rest ih =>
      rw [List.foldl_cons, ih]
      unfold fileMedia
      dsimp only
      split <;> rfl
  have hreference : (fileReference options scope found visit).rules = found.rules := by
    unfold fileReference
    split <;> rfl
  unfold Visit.leaf? at h
  unfold Collected.visit
  by_cases hin : visit.inAtRule = true
  · rw [if_pos hin]
    exact ⟨found, rfl, rfl⟩
  rw [if_neg hin] at h ⊢
  cases hrole : visit.role with
  | scope => exact ⟨_, rfl, rfl⟩
  | declaration =>
    rw [hrole, Option.map_eq_none_iff] at h
    rw [h]
    exact ⟨found, rfl, rfl⟩
  | layerStatement => exact ⟨_, rfl, rfl⟩
  | layerBlock => exact ⟨_, rfl, rfl⟩
  | containerBlock => exact ⟨_, rfl, rfl⟩
  | mediaMap => exact ⟨_, rfl, hmedia _ _⟩
  | reference => exact ⟨_, rfl, hreference⟩

theorem visit_of_failure {e : CompileError} (h : visit.failure? scope = some e) :
    Collected.visit options scope found visit = .error e := by
  obtain ⟨leaf, hleaf, hnumber⟩ := Option.bind_eq_some_iff.mp h
  obtain ⟨number, hsome, rfl⟩ := Option.map_eq_some_iff.mp hnumber
  rw [(visit_declaration hleaf).1, declare, hsome]

theorem exists_declare {value : Value} (h : value.nonFinite? = none) :
    ∃ found', found.declare scope visit value = .ok found' := by
  unfold declare
  rw [h]
  dsimp only
  split
  · exact ⟨_, rfl⟩
  · split <;> exact ⟨_, rfl⟩

theorem exists_visit (h : visit.failure? scope = none) :
    ∃ found', Collected.visit options scope found visit = .ok found' := by
  cases hleaf : visit.leaf? with
  | none =>
    obtain ⟨found', hfound, -⟩ := @visit_of_no_leaf options scope found visit hleaf
    exact ⟨found', hfound⟩
  | some leaf =>
    rw [Visit.failure?, hleaf, Option.bind_some, Option.map_eq_none_iff] at h
    rw [(visit_declaration hleaf).1]
    exact exists_declare h

/-- A declaration writes what its leaf declares. -/
theorem rules_declare {leaf : Leaf} (hparents : leaf.parents = visit.parents)
    (hkey : leaf.key = visit.key) (h : found.declare scope visit leaf.value = .ok found') :
    found'.rules = leaf.declared.foldl
      (fun rules d => rules.declare d.selector d.property d.value) found.rules := by
  unfold declare at h
  unfold Leaf.declared Leaf.property
  rw [hparents, hkey]
  cases hfinite : leaf.value.nonFinite? with
  | some number => simp [hfinite] at h
  | none =>
    rw [hfinite] at h
    dsimp only at h
    cases hwritten : leaf.value.written? (Property.name visit.key) with
    | none =>
      rw [hwritten] at h
      rw [← Except.ok.inj h]
      rfl
    | some css =>
      rw [hwritten] at h
      cases hpath : Selector.ofPath visit.parents with
      | nil =>
        rw [hpath] at h
        rw [← Except.ok.inj h]
        rfl
      | cons s rest =>
        rw [hpath] at h
        rw [← Except.ok.inj h, List.foldl_map]

/-- A visit writes what the leaf that it declares does. -/
theorem rules_visit (h : Collected.visit options scope found visit = .ok found') :
    found'.rules = match visit.leaf? with
      | some leaf => leaf.declared.foldl
          (fun rules d => rules.declare d.selector d.property d.value) found.rules
      | none => found.rules := by
  cases hleaf : visit.leaf? with
  | none =>
    obtain ⟨other, hother, hrules⟩ := @visit_of_no_leaf options scope found visit hleaf
    rw [h, Except.ok.injEq] at hother
    subst hother
    exact hrules
  | some leaf =>
    obtain ⟨hvisit, hparents, hkey⟩ := @visit_declaration options scope found visit leaf hleaf
    rw [hvisit] at h
    exact rules_declare hparents hkey h

/-- A visit notes its statement, unless it is there. -/
theorem statements_visit (h : Collected.visit options scope found visit = .ok found') :
    found'.buckets.statements = match visit.statement? with
      | some s => if s ∈ found.buckets.statements then found.buckets.statements
          else found.buckets.statements ++ [s]
      | none => found.buckets.statements := by
  rw [buckets_visit h]
  cases visit.modeFiling? options <;> cases visit.statement? <;>
    simp only [Option.toList_none, Option.toList_some, List.foldl_nil, List.foldl_cons,
      Buckets.statements_fileMode, Buckets.statements_foldl_file, Buckets.note] <;>
    split <;> rfl

/-- A visit merges the block of a mode into the bucket of the modes. -/
theorem modes_visit (h : Collected.visit options scope found visit = .ok found') :
    found'.buckets.modes = match visit.modeFiling? options with
      | some filing => found.buckets.modes.merge filing.tree
      | none => found.buckets.modes := by
  rw [buckets_visit h]
  cases visit.modeFiling? options <;> cases visit.statement? <;>
    simp [Buckets.statements_foldl_file, Buckets.fileMode]

end Visit

/-! ## A walk -/

section Walk

variable {options : Options} {scope : List String} {tree : StyleTree}

theorem foldlM_visit_of_failure {e : CompileError} {visits : List Visit} {found : Collected}
    (h : visits.findSome? (Visit.failure? scope) = some e) :
    visits.foldlM (Collected.visit options scope) found = .error e := by
  induction visits generalizing found with
  | nil => simp at h
  | cons visit rest ih =>
    rw [List.findSome?_cons] at h
    rw [List.foldlM_cons]
    cases hvisit : visit.failure? scope with
    | some other =>
      rw [hvisit, Option.some.injEq] at h
      rw [visit_of_failure hvisit, h]
      rfl
    | none =>
      rw [hvisit] at h
      obtain ⟨next, hnext⟩ := @exists_visit options scope found visit hvisit
      rw [hnext]
      exact ih h

theorem exists_foldlM_visit {visits : List Visit} {found : Collected}
    (h : visits.findSome? (Visit.failure? scope) = none) :
    ∃ found', visits.foldlM (Collected.visit options scope) found = .ok found' := by
  induction visits generalizing found with
  | nil => exact ⟨found, rfl⟩
  | cons visit rest ih =>
    rw [List.findSome?_cons] at h
    split at h
    · simp at h
    · next hvisit =>
      obtain ⟨next, hnext⟩ := @exists_visit options scope found visit hvisit
      rw [List.foldlM_cons, hnext]
      exact ih h

/-- A walk ends with the first error. -/
theorem collect_of_failure {e : CompileError} (h : tree.failure? scope = some e) :
    tree.collect options scope = .error e := by
  rw [StyleTree.collect, StyleTree.walk_eq_foldlM]
  exact foldlM_visit_of_failure h

/-- What is found in a tree: the rules of its own leaves, and everything that its visits file. -/
structure Holds (options : Options) (tree : StyleTree) (found : Collected) : Prop where
  rules : found.rules = RuleSet.ofDeclared (tree.ownLeaves.flatMap Leaf.declared)
  statements : found.buckets.statements = tree.statements
  tables : ∀ table, found.buckets.table table = tree.tableOf options table
  modes : found.buckets.modes = tree.modesOf options

/-- Texts noted one after another, each unless it is there. -/
theorem foldl_note (statements start : List String) :
    statements.foldl (fun list s => if s ∈ list then list else list ++ [s]) start =
      start ++ (statements.filter (· ∉ start)).eraseDups := by
  induction statements generalizing start with
  | nil => simp
  | cons s rest ih =>
    rw [List.foldl_cons, ih]
    by_cases hs : s ∈ start
    · simp [hs]
    · rw [if_neg hs, List.filter_cons_of_pos (by simpa using hs), List.eraseDups_cons,
        List.append_assoc, List.singleton_append, List.filter_filter]
      congr 3
      refine List.filter_congr fun t _ => ?_
      rw [Bool.eq_iff_iff]
      simp [not_or, and_comm]

/-- A walk that ends with no error has found what the tree holds. -/
theorem holds_collect {found : Collected} (h : tree.collect options scope = .ok found) :
    Holds options tree found := by
  have hwalk := h
  rw [StyleTree.collect, StyleTree.walk_eq_foldlM] at hwalk
  refine ⟨?_, ?_, table_collect h, ?_⟩
  · rw [StyleTree.ownLeaves, RuleSet.ofDeclared, List.foldl_flatMap, List.foldl_filterMap]
    exact view_foldlM_visit Collected.rules
      (fun _ _ visit h => (rules_visit h).trans (by cases visit.leaf? <;> rfl)) hwalk
  · have hnote := foldl_note (tree.visits.filterMap Visit.statement?) []
    rw [List.foldl_filterMap, List.filter_eq_self.mpr (by simp), List.nil_append] at hnote
    rw [StyleTree.statements]
    refine (view_foldlM_visit (fun found => found.buckets.statements)
      (fun _ _ visit h => (statements_visit h).trans ?_) hwalk).trans hnote
    cases visit.statement? <;> rfl
  · rw [StyleTree.modesOf, StyleTree.modeFilings, StyleTree.mergeAll, List.foldl_map,
      List.foldl_filterMap]
    exact view_foldlM_visit (fun found => found.buckets.modes)
      (fun _ _ visit h => (modes_visit h).trans (by cases visit.modeFiling? options <;> rfl)) hwalk

/-- A tree that has no error in it collects to what it holds. -/
theorem exists_collect (h : tree.failure? scope = none) :
    ∃ found, tree.collect options scope = .ok found ∧ Holds options tree found := by
  obtain ⟨found, hfound⟩ : ∃ found, tree.collect options scope = .ok found := by
    rw [StyleTree.collect, StyleTree.walk_eq_foldlM]
    exact exists_foldlM_visit h
  exact ⟨found, hfound, holds_collect hfound⟩

end Walk

end Collected

end NestedStyles
