import NestedStyles.Proofs.Depth
import NestedStyles.Proofs.ModeSheet

/-!
# The table of media queries

The key `@media` at the root holds blocks by their media query. The same blocks may stand at the
root one by one, each behind `@media` and its query in full: both forms file the same blocks under
the same queries, in the same order (`StyleTree.collect_mediaTable`), and so they compile to the
same (`StyleTree.compile_mediaTable`).
-/

namespace NestedStyles

/-- The key that gives a media query in full. -/
def mediaKey (query : String) : String := "@media " ++ query

/-! ## The query of a key -/

theorem mediaKey_eq_at (query : String) : mediaKey query = "@" ++ ("media " ++ query) := by
  rw [← String.append_assoc]
  rfl

theorem isAtKey_mediaKey (query : String) : Text.isAtKey (mediaKey query) = true :=
  mediaKey_eq_at query ▸ isAtKey_at _

namespace Target

variable {query : String}

theorem toList_mediaKey (query : String) :
    (mediaKey query).toList = "@media".toList ++ ' ' :: query.toList := by
  simp [mediaKey, String.toList_append]

/-- The query of a key in full, without the white space around it. -/
theorem literalMedia?_mediaKey (h : Text.isBlank query = false) :
    literalMedia? (mediaKey query) = some (Text.trimmed query) := by
  have hrest : Text.without? "@media" (mediaKey query) = some (" " ++ query) := by
    refine Text.without?_append ?_
    rw [toList_mediaKey, String.toList_append]
    rfl
  have htrimmed : Text.trimmed (" " ++ query) = Text.trimmed query := by
    rw [Text.trimmed, Text.trimmed, String.toList_append]
    rfl
  have hne : Text.trimmed query ≠ "" := by
    intro hempty
    have hnil : Text.trim query.toList = [] := String.ofList_eq_empty_iff.mp hempty
    rw [Text.isBlank, List.all_eq_true.mpr (Text.trim_eq_nil hnil)] at h
    exact absurd h (by simp)
  have hspace : (" " ++ query).toList.head?.any Text.isSpace = true := by
    rw [String.toList_append]
    rfl
  rw [literalMedia?, hrest, Option.bind_some]
  simp only [hspace, htrimmed, bne_iff_ne.mpr hne, Bool.and_self, if_true]

theorem name_mediaKey (query : String) : name (mediaKey query) = "media " ++ query := by
  have hvisible : Text.trimStart ("media " ++ query).toList = ("media " ++ query).toList := by
    rw [String.toList_append]
    rfl
  rw [mediaKey_eq_at, name_at (by rw [Text.trimmedStart, hvisible, String.ofList_toList])]

theorem ofKey?_mediaKey {options : Options} (h : Text.isBlank query = false)
    (hmode : options.modes.get? ("media " ++ query) = none) :
    ofKey? options (mediaKey query) = some (.media (Text.trimmed query)) := by
  rw [ofKey?, name_mediaKey, hmode, literalMedia?_mediaKey h]
  rfl

/-- A key of the table that is no at-rule's is a query in full. -/
theorem mapQuery?_of_plain {options : Options} (h : Text.isBlank query = false)
    (hkey : Text.isAtKey query = false) :
    mapQuery? options query = some (Text.trimmed query) := by
  have hat : Text.beginsWith "@" query = false := hkey
  have hmedia : Text.beginsWith "@media" query = false := Bool.eq_false_iff.mpr fun hbegins =>
    Bool.eq_false_iff.mp hkey (Text.isAtKey_of_beginsWith (by decide) hbegins)
  have hliteral : literalMedia? query = none := by
    rw [literalMedia?, Text.without?, hmedia]
    rfl
  rw [mapQuery?, hliteral, Option.none_or, Text.without?, hat]
  simp [h]

end Target

/-! ## The two forms -/

/-- The entry of a table of media queries holds a block at a query in full, and no mode has the name
that the key of the query gives. -/
structure Options.IsQuery (options : Options) (entry : String × StyleTree) : Prop where
  visible : Text.isBlank entry.1 = false
  plain : Text.isAtKey entry.1 = false
  block : StyleTree.reference? entry.2 = none
  unnamed : options.modes.get? ("media " ++ entry.1) = none

namespace StyleTree

/-- Blocks by their media query, as the entries of the table. -/
def mediaTable (blocks : Entries StyleTree) : StyleTree :=
  blocks.map fun entry => (entry.1, .tree entry.2)

/-- Blocks by their media query, each behind its own `@media`. -/
def mediaEntries (blocks : Entries StyleTree) : StyleTree :=
  blocks.map fun entry => (mediaKey entry.1, .tree entry.2)

variable {options : Options} {scope : List String} {blocks : Entries StyleTree}

/-- A table that holds no value stands for no reference. -/
theorem reference?_mediaTable (blocks : Entries StyleTree) :
    reference? (mediaTable blocks) = none := by
  cases href : reference? (mediaTable blocks) with
  | none => rfl
  | some value =>
    obtain ⟨⟨css, hvar⟩, -⟩ := isSome_reference?.mp (Option.isSome_iff_exists.mpr ⟨value, href⟩)
    obtain ⟨entry, -, hentry⟩ := List.mem_map.mp (Entries.mem_of_get? hvar)
    exact absurd (Prod.mk.inj hentry).2 (by simp)

/-- A key in full that gives a query is a reference. -/
theorem role_mediaKey (query : String) {block : StyleTree} (hblock : reference? block = none) :
    (Visit.mk [mediaKey query] (.tree block)).role = .reference := by
  have hleaf : (Node.tree block).isLeaf = false := Node.isLeaf_of_block hblock
  have hkey : (Visit.mk [mediaKey query] (.tree block)).key = mediaKey query := rfl
  have hpath : mediaKey query ≠ "@media" := by
    intro heq
    have hlist := Target.toList_mediaKey query
    rw [heq] at hlist
    exact absurd hlist (by simp)
  have hbegins (lead : String) : Text.beginsWith lead (mediaKey query) =
      lead.toList.isPrefixOf ("@media".toList ++ ' ' :: query.toList) := by
    rw [Text.beginsWith, Target.toList_mediaKey]
  simp only [Visit.role, hleaf, hkey, hbegins, Text.isAtKey]
  simp [hpath]

/-- The visit to an `@media` key files its block. -/
theorem visit_mediaKey {query : String} (hvisible : Text.isBlank query = false)
    {block : StyleTree} (hblock : reference? block = none)
    (hmode : options.modes.get? ("media " ++ query) = none) (found : Collected) :
    Collected.visit options scope found ⟨[mediaKey query], .tree block⟩ =
      .ok (found.mapBuckets (·.addMedia (Text.trimmed query) [] block)) := by
  have hkey : (Visit.mk [mediaKey query] (.tree block)).key = mediaKey query := rfl
  rw [Collected.visit, role_mediaKey query hblock, Collected.fileReference,
    Node.block?_of_block hblock, hkey, Target.ofKey?_mediaKey hvisible hmode]
  rfl

section Walk

variable (found : Collected)

/-- Files blocks by their media query, without the white space around it. -/
def fileQueries (blocks : Entries StyleTree) : Collected :=
  blocks.foldl (fun found entry =>
    found.mapBuckets (·.addMedia (Text.trimmed entry.1) [] entry.2)) found

/-- Of the entry of an `@` key only the entry itself is taken in. -/
theorem foldlM_visitsNode_at {key : String} (hkey : Text.isAtKey key = true) {block : StyleTree}
    (hblock : reference? block = none) :
    (visitsNode [key] (.tree block)).foldlM (Collected.visit options scope) found =
      Collected.visit options scope found ⟨[key], .tree block⟩ := by
  rw [visitsNode_of_block hblock, List.foldlM_append,
    Collected.foldlM_visitsBelow_inAtRule options scope found (by simp [hkey])]
  change List.foldlM (Collected.visit options scope) found [_] = _
  rw [List.foldlM_cons]
  exact bind_pure (Collected.visit options scope found _)

variable (h : ∀ entry ∈ blocks, options.IsQuery entry)

include h

/-- The table files its blocks one after another. -/
theorem foldl_fileMedia_mediaTable :
    (mediaTable blocks).foldl (Collected.fileMedia options scope) found =
      fileQueries found blocks := by
  induction blocks generalizing found with
  | nil => rfl
  | cons entry rest ih =>
    obtain ⟨⟨hvisible, hplain, hblock, -⟩, hrest⟩ := List.forall_mem_cons.mp h
    have hfile : Collected.fileMedia options scope found (entry.1, .tree entry.2) =
        found.mapBuckets (·.addMedia (Text.trimmed entry.1) [] entry.2) := by
      rw [Collected.fileMedia, Node.block?_of_block hblock,
        Target.mapQuery?_of_plain hvisible hplain]
      rfl
    rw [mediaTable, List.map_cons, List.foldl_cons, hfile]
    exact ih _ hrest

theorem visit_mediaTable :
    Collected.visit options scope found ⟨["@media"], .tree (mediaTable blocks)⟩ =
      .ok (fileQueries found blocks) := by
  have hrole : (Visit.mk ["@media"] (.tree (mediaTable blocks))).role = .mediaMap := by
    have hleaf : (Node.tree (mediaTable blocks)).isLeaf = false :=
      Node.isLeaf_of_block (reference?_mediaTable blocks)
    have hkey : (Visit.mk ["@media"] (.tree (mediaTable blocks))).key = "@media" := rfl
    have hlayer : Text.beginsWith "@layer" "@media" = false := by decide
    have hcontainer : Text.beginsWith "@container" "@media" = false := by decide
    simp [Visit.role, hleaf, hkey, hlayer, hcontainer]
  rw [Collected.visit, hrole]
  exact congrArg Except.ok (foldl_fileMedia_mediaTable found h)

/-- The entries file their blocks one after another. -/
theorem foldlM_visitsBelow_mediaEntries :
    (visitsBelow [] (mediaEntries blocks)).foldlM (Collected.visit options scope) found =
      .ok (fileQueries found blocks) := by
  induction blocks generalizing found with
  | nil => rfl
  | cons entry rest ih =>
    obtain ⟨⟨hvisible, -, hblock, hmode⟩, hrest⟩ := List.forall_mem_cons.mp h
    rw [mediaEntries, List.map_cons, visitsBelow, List.foldlM_append, List.nil_append,
      foldlM_visitsNode_at found (isAtKey_mediaKey _) hblock,
      visit_mediaKey hvisible hblock hmode]
    exact ih _ hrest

end Walk

variable {before after : StyleTree}

/-- A tree with a table of media queries at its root collects to the same as the tree with the
entries in its place. -/
theorem collect_mediaTable (h : ∀ entry ∈ blocks, options.IsQuery entry) (scope : List String) :
    collect options scope (before ++ ("@media", .tree (mediaTable blocks)) :: after) =
      collect options scope (before ++ mediaEntries blocks ++ after) := by
  have htable (found : Collected) :
      (visitsNode ["@media"] (.tree (mediaTable blocks))).foldlM (Collected.visit options scope)
        found = (visitsBelow [] (mediaEntries blocks)).foldlM (Collected.visit options scope)
          found := by
    rw [foldlM_visitsNode_at found (by decide) (reference?_mediaTable blocks),
      visit_mediaTable found h, foldlM_visitsBelow_mediaEntries found h]
  rw [collect, collect, walk_eq_foldlM, walk_eq_foldlM]
  simp only [visits, visitsBelow_append, visitsBelow, List.foldlM_append, List.nil_append, htable,
    bind_assoc]

/-- The table of media queries at the root compiles to the same as entries of its own for the
queries, each behind `@media`, where the table stood. The queries are not blank and do not begin
with `@`, and no mode is named by one. -/
theorem compile_mediaTable (hflat : options.IsFlat)
    (h : ∀ entry ∈ blocks, options.IsQuery entry) :
    compile options (before ++ ("@media", .tree (mediaTable blocks)) :: after) =
      compile options (before ++ mediaEntries blocks ++ after) :=
  compile_congr hflat (collect_mediaTable h)

/-- The table holds a query with white space around it, one that an entry behind the table gives as
well, and a block with a mode in it. -/
theorem compile_mediaTable_shared_query :
    compile (Options.empty.withMode "dark" ".dark")
        ([("p", .tree [("color", .leaf (.text "red"))])] ++
          ("@media", .tree (mediaTable
            [("\u2003print ", [("nav", .tree [("display", .leaf (.text "none"))])]),
              ("(min-width: 1px)",
                [("@dark", .tree [("p", .tree [("margin", .leaf .null)])])])])) ::
          [("div", .tree [("@media print", .tree [("color", .leaf (.text "black"))])])]) =
      compile (Options.empty.withMode "dark" ".dark")
        [("p", .tree [("color", .leaf (.text "red"))]),
          ("@media \u2003print ", .tree [("nav", .tree [("display", .leaf (.text "none"))])]),
          ("@media (min-width: 1px)", .tree [("@dark", .tree [("p", .tree
            [("margin", .leaf .null)])])]),
          ("div", .tree [("@media print", .tree [("color", .leaf (.text "black"))])])] :=
  compile_mediaTable ⟨by decide, by decide⟩ fun entry hentry => by
    rcases List.mem_cons.mp hentry with rfl | hentry
    · exact ⟨by decide, by decide, by decide, by decide⟩
    · obtain rfl := List.mem_singleton.mp hentry
      exact ⟨by decide, by decide, by decide, by decide⟩

end StyleTree

end NestedStyles
