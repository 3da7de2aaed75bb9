import NestedStyles.Proofs.Merging

/-!
# What a walk files

A walk files blocks into three tables of buckets, for layers, container queries and media queries,
it notes statements that name layers, and it files the blocks of modes (`Collected.buckets_visit`).
`StyleTree.filings` lists the blocks of the tables in the order of the document, each with the keys
above it, and a bucket is what merging its filings in that order leaves
(`StyleTree.get?_table_collect`).
-/

namespace NestedStyles

namespace StyleTree

mutual

theorem every_of_mem_visitsNode {p : String → Node → Bool} {above : List String} {key : String}
    {visit : Visit} : ∀ {node : Node}, p key node = true → nodeEvery p node = true →
      visit ∈ visitsNode (above ++ [key]) node →
      p visit.key visit.node = true ∧ nodeEvery p visit.node = true
  | .leaf value, hself, hbelow, h => by
    rw [visitsNode, List.mem_singleton] at h
    subst h
    rw [Visit.key_mk]
    exact ⟨hself, hbelow⟩
  | .tree entries, hself, hbelow, h => by
    have hnode : ∀ visit : Visit, visit = ⟨above ++ [key], .tree entries⟩ →
        p visit.key visit.node = true ∧ nodeEvery p visit.node = true := by
      rintro _ rfl
      rw [Visit.key_mk]
      exact ⟨hself, hbelow⟩
    rw [visitsNode] at h
    split at h
    · exact hnode visit (List.mem_singleton.mp h)
    · rcases List.mem_append.mp h with h | h
      · exact every_of_mem_visitsBelow hbelow h
      · exact hnode visit (List.mem_singleton.mp h)

/-- A condition on all nodes of a tree holds of the nodes that a walk visits. -/
theorem every_of_mem_visitsBelow {p : String → Node → Bool} {above : List String} {visit : Visit} :
    ∀ {entries : List (String × Node)}, every p entries = true →
      visit ∈ visitsBelow above entries →
      p visit.key visit.node = true ∧ nodeEvery p visit.node = true
  | [], _, h => by simp [visitsBelow] at h
  | (key, node) :: rest, hevery, h => by
    simp only [every_cons, Bool.and_eq_true] at hevery
    obtain ⟨⟨hself, hbelow⟩, hrest⟩ := hevery
    rcases List.mem_append.mp h with h | h
    · exact every_of_mem_visitsNode hself hbelow h
    · exact every_of_mem_visitsBelow hrest h

end

end StyleTree

/-! ## What is filed -/

/-- A table of buckets. -/
inductive Table where
  | layers
  | containers
  | media
deriving DecidableEq

/-- A block that is filed into the bucket of a header. -/
structure Filing where
  table : Table
  header : String
  /-- The keys above the block. -/
  parents : List String
  block : StyleTree

/-- The tree that a filing merges into its bucket. -/
def Filing.tree (filing : Filing) : StyleTree := StyleTree.nest filing.parents filing.block

/-- A block that is filed under the selector of a mode. -/
structure ModeFiling where
  selector : String
  /-- The keys above the block. -/
  parents : List String
  block : StyleTree

/-- The block below the keys above it, marked as a descendant of the mode's selector. -/
def ModeFiling.content (filing : ModeFiling) : StyleTree :=
  Buckets.descendantTree filing.parents filing.block

/-- The tree that a filing merges into the bucket of the modes. -/
def ModeFiling.tree (filing : ModeFiling) : StyleTree :=
  StyleTree.nest [filing.selector] filing.content

namespace Buckets

/-- A table of the buckets. -/
def table (buckets : Buckets) : Table → Entries StyleTree
  | .layers => buckets.layers
  | .containers => buckets.containers
  | .media => buckets.media

/-- The buckets with another table. -/
def setTable (buckets : Buckets) (table : Table) (entries : Entries StyleTree) : Buckets :=
  match table with
  | .layers => { buckets with layers := entries }
  | .containers => { buckets with containers := entries }
  | .media => { buckets with media := entries }

/-- Files one block. -/
def file (buckets : Buckets) (filing : Filing) : Buckets :=
  buckets.setTable filing.table
    (fileUnder filing.header filing.parents filing.block (buckets.table filing.table))

theorem table_setTable (buckets : Buckets) (t t' : Table) (entries : Entries StyleTree) :
    (buckets.setTable t entries).table t' = if t = t' then entries else buckets.table t' := by
  cases t <;> cases t' <;> rfl

/-- A filing changes no table but its own. -/
theorem table_file (buckets : Buckets) (filing : Filing) (t : Table) :
    (buckets.file filing).table t =
      if filing.table = t then fileUnder filing.header filing.parents filing.block (buckets.table t)
      else buckets.table t := by
  rw [file, table_setTable]
  split
  · next h => rw [h]
  · rfl

/-- The filings of a table are its own history. -/
theorem table_foldl_file (filings : List Filing) (buckets : Buckets) (t : Table) :
    (filings.foldl file buckets).table t =
      (filings.filter (·.table = t)).foldl
        (fun entries f => fileUnder f.header f.parents f.block entries) (buckets.table t) := by
  induction filings generalizing buckets with
  | nil => rfl
  | cons filing rest ih =>
    rw [List.foldl_cons, ih, table_file]
    by_cases h : filing.table = t
    · simp [h]
    · simp [h]

/-- Notes a statement, unless it is there. -/
def note (buckets : Buckets) (statement : String) : Buckets :=
  if statement ∈ buckets.statements then buckets
  else { buckets with statements := buckets.statements ++ [statement] }

/-- Files one block of a mode. -/
def fileMode (buckets : Buckets) (filing : ModeFiling) : Buckets :=
  { buckets with modes := buckets.modes.merge filing.tree }

@[simp] theorem table_note (buckets : Buckets) (statement : String) (t : Table) :
    (buckets.note statement).table t = buckets.table t := by
  unfold note
  split
  · rfl
  · cases t <;> rfl

@[simp] theorem table_fileMode (buckets : Buckets) (filing : ModeFiling) (t : Table) :
    (buckets.fileMode filing).table t = buckets.table t := by
  cases t <;> rfl

@[simp] theorem modes_note (buckets : Buckets) (statement : String) :
    (buckets.note statement).modes = buckets.modes := by
  unfold note
  split <;> rfl

@[simp] theorem statements_fileMode (buckets : Buckets) (filing : ModeFiling) :
    (buckets.fileMode filing).statements = buckets.statements := rfl

theorem statements_file (buckets : Buckets) (filing : Filing) :
    (buckets.file filing).statements = buckets.statements ∧
      (buckets.file filing).modes = buckets.modes := by
  unfold file setTable
  split <;> exact ⟨rfl, rfl⟩

/-- Filings into the tables change neither the statements nor the modes. -/
theorem statements_foldl_file (filings : List Filing) (buckets : Buckets) :
    (filings.foldl file buckets).statements = buckets.statements ∧
      (filings.foldl file buckets).modes = buckets.modes := by
  induction filings generalizing buckets with
  | nil => exact ⟨rfl, rfl⟩
  | cons filing rest ih =>
    rw [List.foldl_cons, (ih _).1, (ih _).2]
    exact statements_file buckets filing

end Buckets

/-- The filing of an entry of the `@media` map. -/
def Filing.ofMapEntry? (options : Options) (entry : String × Node) : Option Filing :=
  match entry.2.block?, Target.mapQuery? options entry.1 with
  | some block, some query => some ⟨.media, query, [], block⟩
  | _, _ => none

/-- The blocks that a visit files, one unless it is to the `@media` map. -/
def Visit.filings (options : Options) (visit : Visit) : List Filing :=
  if visit.inAtRule then []
  else
    match visit.role with
    | .layerBlock =>
      [⟨.layers, Text.trimmed visit.key, visit.parents, visit.node.block?.getD []⟩]
    | .containerBlock =>
      [⟨.containers, Text.trimmed visit.key, visit.parents, visit.node.block?.getD []⟩]
    | .mediaMap => visit.node.entries.filterMap (Filing.ofMapEntry? options)
    | .reference =>
      match visit.node.block?, Target.ofKey? options visit.key with
      | some block, some (.media query) => [⟨.media, query, visit.parents, block⟩]
      | _, _ => []
    | _ => []

/-- The statement that a visit notes. -/
def Visit.statement? (visit : Visit) : Option String :=
  if visit.inAtRule then none
  else
    match visit.role with
    | .layerStatement => some (Buckets.statement visit.key (Collected.layerNames visit.node))
    | _ => none

/-- The block that a visit files under the selector of a mode. -/
def Visit.modeFiling? (options : Options) (visit : Visit) : Option ModeFiling :=
  if visit.inAtRule then none
  else
    match visit.role, visit.node.block?, Target.ofKey? options visit.key with
    | .reference, some block, some (.mode selector) => some ⟨selector, visit.parents, block⟩
    | _, _, _ => none

/-- The blocks that a walk of the tree files, in the order of the document. -/
def StyleTree.filings (options : Options) (tree : StyleTree) : List Filing :=
  tree.visits.flatMap (Visit.filings options)

/-- The buckets of one table that the filings leave. -/
def StyleTree.tableOf (options : Options) (tree : StyleTree) (table : Table) : Entries StyleTree :=
  ((tree.filings options).filter (·.table = table)).foldl
    (fun entries f => fileUnder f.header f.parents f.block entries) []

namespace Collected

variable {options : Options} {scope : List String} {found found' : Collected}

theorem buckets_declare {visit : Visit} {value : Value}
    (h : found.declare scope visit value = .ok found') : found'.buckets = found.buckets := by
  unfold declare at h
  split at h
  · simp at h
  · dsimp only at h
    split at h
    · rw [← Except.ok.inj h]
    · split at h
      · exact Except.ok.inj h ▸ rfl
      · exact Except.ok.inj h ▸ rfl

theorem buckets_fileMedia (entry : String × Node) :
    (fileMedia options scope found entry).buckets =
      (Filing.ofMapEntry? options entry).toList.foldl Buckets.file found.buckets := by
  obtain ⟨key, node⟩ := entry
  unfold fileMedia Filing.ofMapEntry?
  dsimp only
  cases node.block? with
  | none => rfl
  | some block => cases Target.mapQuery? options key <;> rfl

theorem buckets_foldl_fileMedia (entries : StyleTree) :
    (entries.foldl (fileMedia options scope) found).buckets =
      (entries.filterMap (Filing.ofMapEntry? options)).foldl Buckets.file found.buckets := by
  induction entries generalizing found with
  | nil => rfl
  | cons entry rest ih =>
    rw [List.foldl_cons, ih, buckets_fileMedia, List.filterMap_cons]
    cases Filing.ofMapEntry? options entry <;> rfl

/-- What a visit changes in the buckets: it notes a statement, files blocks into the tables or files
the block of a mode. -/
theorem buckets_visit {visit : Visit} (h : Collected.visit options scope found visit = .ok found') :
    found'.buckets = (visit.modeFiling? options).toList.foldl Buckets.fileMode
      ((visit.filings options).foldl Buckets.file
        (visit.statement?.toList.foldl Buckets.note found.buckets)) := by
  unfold Collected.visit at h
  unfold Visit.filings Visit.modeFiling? Visit.statement?
  by_cases hin : visit.inAtRule = true
  · simp only [if_pos hin] at h ⊢
    rw [← Except.ok.inj h]
    rfl
  simp only [if_neg hin] at h ⊢
  cases hrole : visit.role with
  | declaration =>
    rw [hrole] at h
    dsimp only at h
    split at h
    · rw [← Except.ok.inj h]
      rfl
    · rw [buckets_declare h]
      rfl
  | mediaMap =>
    rw [hrole] at h
    rw [← Except.ok.inj h, buckets_foldl_fileMedia]
    rfl
  | reference =>
    rw [hrole] at h
    rw [← Except.ok.inj h]
    unfold fileReference
    cases visit.node.block? with
    | none => rfl
    | some block =>
      cases Target.ofKey? options visit.key with
      | none => rfl
      | some target => cases target <;> rfl
  | _ =>
    rw [hrole] at h
    rw [← Except.ok.inj h]
    rfl

/-- What each visit of a run changes in a view of what is found, the run changes one by one. -/
theorem view_foldlM_visit {α : Type} (view : Collected → α) {change : α → Visit → α}
    (hvisit : ∀ found found' visit, Collected.visit options scope found visit = .ok found' →
      view found' = change (view found) visit) {visits : List Visit}
    (h : visits.foldlM (Collected.visit options scope) found = .ok found') :
    view found' = visits.foldl change (view found) := by
  induction visits generalizing found with
  | nil =>
    rw [← Except.ok.inj h]
    rfl
  | cons visit rest ih =>
    rw [List.foldlM_cons] at h
    cases hone : Collected.visit options scope found visit with
    | error e =>
      rw [hone] at h
      simp [bind, Except.bind] at h
    | ok next =>
      rw [hone] at h
      rw [ih h, List.foldl_cons, hvisit found next visit hone]

/-- A walk leaves a table as the filings of the table leave it. -/
theorem table_collect {tree : StyleTree} (h : tree.collect options scope = .ok found) (t : Table) :
    found.buckets.table t = tree.tableOf options t := by
  have hnil : Buckets.empty.table t = [] := by cases t <;> rfl
  rw [StyleTree.collect, StyleTree.walk_eq_foldlM] at h
  rw [StyleTree.tableOf, StyleTree.filings, List.filter_flatMap, List.foldl_flatMap, ← hnil]
  refine view_foldlM_visit (fun found => found.buckets.table t) (fun _ _ visit hvisit => ?_) h
  rw [buckets_visit hvisit]
  cases visit.modeFiling? options <;> cases visit.statement? <;> simp [Buckets.table_foldl_file]

end Collected

/-! ## Buckets as merges -/

namespace StyleTree

/-- The filings into one bucket. -/
def filedUnder (options : Options) (table : Table) (header : String) (tree : StyleTree) :
    List Filing :=
  (tree.filings options).filter fun f => f.table = table && f.header = header

/-- The trees of the filings into one bucket, merged one after another. -/
def bucket (options : Options) (table : Table) (header : String) (tree : StyleTree) : StyleTree :=
  mergeAll ((tree.filedUnder options table header).map Filing.tree)

/-- A bucket is what its filings merge to, and there is one as soon as there is a filing. -/
theorem get?_table_collect {options : Options} {scope : List String} {tree : StyleTree}
    {found : Collected} (h : tree.collect options scope = .ok found) (table : Table)
    (header : String) :
    (found.buckets.table table).get? header =
      if tree.filedUnder options table header = [] then none
      else some (tree.bucket options table header) := by
  have hfiled : ((tree.filings options).filter (·.table = table)).filter (·.header = header) =
      tree.filedUnder options table header := by
    rw [List.filter_filter, filedUnder]
    exact List.filter_congr fun f _ => Bool.and_comm _ _
  have hfold := Entries.get?_foldl_upsert Filing.header
    (fun f old => merge (old.getD []) f.tree) header
    ((tree.filings options).filter (·.table = table)) []
  rw [Collected.table_collect h table, tableOf]
  refine hfold.trans ?_
  rw [hfiled, Entries.get?_nil]
  split
  · next hnil => rw [hnil, List.foldl_nil]
  · next hne =>
    rw [bucket, mergeAll, List.foldl_map]
    exact foldl_some_getD [] (fun (tree : StyleTree) (f : Filing) => merge tree f.tree) hne

end StyleTree

end NestedStyles
