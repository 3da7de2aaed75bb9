import NestedStyles.Proofs.CleanText
import NestedStyles.Proofs.Depth
import NestedStyles.Proofs.Passing

/-!
# The texts of a stylesheet

Statements, headers, selectors and properties are made of the keys of a tree, of the media queries
and of a few signs. So they are free of characters that no sign is, if the keys and the queries are
free of them (`StyleTree.free_declared`, `StyleTree.free_header_of_mem_parts`). A header begins with
an `@`, whatever the keys are (`StyleTree.header_of_mem_parts`).
-/

namespace NestedStyles

open Layout Text

/-! ## Headers -/

namespace Text

/-- An `@` key begins with `@`. -/
theorem exists_of_isAtKey {key : String} (h : isAtKey key = true) :
    ∃ rest, key.toList = '@' :: rest := by
  obtain ⟨rest, hrest⟩ := List.isPrefixOf_iff_prefix.mp h
  exact ⟨rest, hrest.symm⟩

/-- An `@` key that is trimmed begins with `@`. -/
theorem exists_of_trimmed {key : String} (h : isAtKey key = true) :
    ∃ rest, (trimmed key).toList = '@' :: rest := by
  obtain ⟨rest, hrest⟩ := exists_of_isAtKey h
  have hfront := trimEnd_front key.toList
  have hstart : trimStart key.toList = key.toList :=
    trimStart_of_startsVisibly (hrest ▸ startsVisibly_cons.mpr (by decide))
  rw [trimmed, String.toList_ofList]
  cases htrim : trim key.toList with
  | nil => exact absurd (trim_eq_nil htrim '@' (by simp [hrest])) (by decide)
  | cons c text =>
    rw [← hstart, ← trim, htrim, hstart, hrest, List.cons_prefix_cons] at hfront
    exact ⟨text, by rw [hfront.1]⟩

end Text

namespace Target

variable {bad : Char → Bool} {key query : String} (hkey : Free bad key.toList)

include hkey

theorem free_literalMedia? (h : literalMedia? key = some query) : Free bad query.toList := by
  obtain ⟨rest, hrest, h⟩ := Option.bind_eq_some_iff.mp h
  unfold Text.without? at hrest
  split at hrest
  · obtain rfl := Option.some.inj hrest
    dsimp only at h
    split at h
    · obtain rfl := Option.some.inj h
      refine Free.trimmed ?_
      rw [String.toList_ofList]
      exact hkey.of_mem fun c hc => List.mem_of_mem_drop hc
    · simp at h
  · simp at hrest

variable {options : Options} (hqueries : ∀ entry ∈ options.queries, Free bad entry.2.toList)

include hqueries

/-- A free key that refers to a media query refers to a free one. -/
theorem free_ofKey? (h : ofKey? options key = some (.media query)) : Free bad query.toList := by
  unfold ofKey? at h
  rcases Option.or_eq_some_iff.mp h with h | ⟨-, h⟩
  · simp at h
  rcases Option.or_eq_some_iff.mp h with h | ⟨-, h⟩
  · obtain ⟨other, hliteral, hquery⟩ := Option.map_eq_some_iff.mp h
    obtain rfl := Target.media.inj hquery
    exact free_literalMedia? hkey hliteral
  · obtain ⟨other, hname, hquery⟩ := Option.map_eq_some_iff.mp h
    obtain rfl := Target.media.inj hquery
    exact hqueries _ (Entries.mem_of_get? hname)

/-- A free key of the `@media` map refers to a free media query. -/
theorem free_mapQuery? (h : mapQuery? options key = some query) : Free bad query.toList := by
  unfold mapQuery? at h
  rcases Option.or_eq_some_iff.mp h with h | ⟨-, h⟩
  · exact free_literalMedia? hkey h
  split at h
  · exact hqueries _ (Entries.mem_of_get? h)
  · split at h
    · simp at h
    · exact Option.some.inj h ▸ Free.trimmed hkey

end Target

/-- A leaf has a clean value. -/
def Node.isClean : Node → Bool
  | .leaf value => value.isClean
  | .tree _ => true

/-! ## Statements -/

/-- A statement begins with the `@` of its key, ends with a `;`, and is free before it if the key
and the names are. -/
theorem Buckets.exists_of_statement {bad : Char → Bool} (hspace : bad ' ' = false) {key : String}
    (hkey : Free bad key.toList) (h : isAtKey key = true) {names : Option String}
    (hnames : Free bad (names.getD "").toList) :
    ∃ front, Free bad ('@' :: front) ∧ key.toList <+: '@' :: front ∧
      (Buckets.statement key names).toList = '@' :: front ++ [';'] := by
  obtain ⟨rest, hrest⟩ := Text.exists_of_isAtKey h
  unfold Buckets.statement
  dsimp only
  split
  · exact ⟨rest, hrest ▸ hkey, hrest ▸ List.prefix_refl _, by simp [hrest]⟩
  · refine ⟨rest ++ ([' '] ++ (Text.trimmed (names.getD "")).toList), ?_, ?_, by simp [hrest]⟩
    · rw [← List.cons_append, ← hrest]
      exact hkey.append ((Free.nil.cons hspace).append hnames.trimmed)
    · rw [hrest]
      exact List.prefix_append ('@' :: rest) _

namespace StyleTree

/-- A statement is that of an `@layer` key without a block. -/
theorem exists_of_mem_statements {tree : StyleTree} {statement : String}
    (h : statement ∈ tree.statements) : ∃ visit ∈ tree.visits, visit.role = .layerStatement ∧
      statement = Buckets.statement visit.key (Collected.layerNames visit.node) := by
  obtain ⟨visit, hvisit, hstatement⟩ := List.mem_filterMap.mp (List.mem_eraseDups.mp h)
  unfold Visit.statement? at hstatement
  split at hstatement
  · simp at hstatement
  split at hstatement
  · next hrole => exact ⟨visit, hvisit, hrole, (Option.some.inj hstatement).symm⟩
  · simp at hstatement

/-! ## What begins with `@` -/

section Parts

variable {options : Options} {tree : StyleTree} {found : Collected} {auto : Bool} {part : Part}

theorem header_of_mem_filings {filing : Filing} (h : filing ∈ tree.filings options) :
    ∃ rest, (filing.table.under filing.header).toList = '@' :: rest := by
  obtain ⟨visit, -, hfiling⟩ := List.mem_flatMap.mp h
  have hmedia (query : String) : ∃ rest, (Table.media.under query).toList = '@' :: rest :=
    ⟨"media ".toList ++ query.toList, String.toList_append ..⟩
  obtain ⟨-, hkey, ⟨-, -, ⟨htable, hheader⟩ | ⟨htable, -⟩⟩ | ⟨-, entry, -, -, htable, -⟩⟩ :=
    Visit.mem_filings hfiling
  · obtain ⟨rest, hrest⟩ := Text.exists_of_trimmed hkey
    refine ⟨rest, ?_⟩
    rw [hheader]
    cases hcase : filing.table with
    | layers => exact hrest
    | containers => exact hrest
    | media => exact absurd hcase htable
  · exact htable ▸ hmedia _
  · exact htable ▸ hmedia _

/-- The header of a part begins with an `@`. -/
theorem header_of_mem_parts (hholds : Collected.Holds options tree found)
    (h : part ∈ found.parts options auto) {header : String} (hheader : part.header? = some header) :
    ∃ rest, header.toList = '@' :: rest := by
  refine @Collected.of_mem_parts options auto tree found
    (fun header? _ => ∀ header, header? = some header → ∃ rest, header.toList = '@' :: rest) hholds
    (fun _ _ _ _ hb => hb) (fun filing hfiling header hheader => ?_) (fun _ _ => by simp)
    (fun _ _ _ _ _ entry hentry header hheader => ?_) part h header hheader
  · exact Option.some.inj hheader ▸ header_of_mem_filings hfiling
  · exact Option.some.inj hheader ▸ ⟨"media ".toList ++ entry.2.query.toList,
      String.toList_append ..⟩

end Parts

/-! ## What is clean -/

section Values

variable {options : Options} {r q : String → Node → Bool} (hpasses : Passes options r q)
  (hclean : ∀ {key node}, r key node = true → node.isClean = true) {tree : StyleTree}
  (htree : everyRoot r q tree)

include hpasses hclean htree

/-- What is written of a clean leaf is clean. -/
theorem clean_value_of_declared {d : Declared} (h : d ∈ tree.ownLeaves.flatMap Leaf.declared) :
    Clean d.value.toList := by
  obtain ⟨leaf, hleaf, hd⟩ := List.mem_flatMap.mp h
  obtain ⟨visit, hvisit, hleaf⟩ := List.mem_filterMap.mp hleaf
  obtain ⟨-, -, hvalue, -, -⟩ := Visit.leaf?_eq_some hleaf
  obtain ⟨hwritten, -, -⟩ := Leaf.mem_declared.mp hd
  obtain ⟨hroot, hinner, -⟩ := passes_visit hpasses htree hvisit
  refine Value.clean_written? ?_ hwritten
  cases hnode : visit.node with
  | leaf value =>
    rw [hnode] at hvalue hroot
    obtain rfl := Option.some.inj hvalue
    exact @hclean visit.key _ hroot
  | tree entries =>
    rw [hnode] at hvalue hinner
    obtain ⟨css, name, hreference⟩ := eq_reference_of_reference? hvalue
    rw [hreference] at hvalue ⊢
    have hvar := every_iff.mp hinner _ _ (Entries.mem_of_get? (get?_var_of_reference? hvalue))
    exact @hclean "var" (.leaf (.text css)) (hpasses.root hvar.1)

end Values

/-! ## What is free -/

section Free

variable {bad : Char → Bool} {options : Options} {r q : String → Node → Bool}
  (hpasses : Passes options r q)
  (hfree : ∀ {key node}, r key node = true → Free bad key.toList) {tree : StyleTree}
  (htree : everyRoot r q tree)

include hpasses hfree htree

/-- Selectors and properties are free if the keys are. -/
theorem free_declared (hbad : Spared bad) {d : Declared}
    (h : d ∈ tree.ownLeaves.flatMap Leaf.declared) :
    Free bad d.selector.toList ∧ Free bad d.property.toList := by
  obtain ⟨leaf, hleaf, hd⟩ := List.mem_flatMap.mp h
  obtain ⟨visit, hvisit, hleaf⟩ := List.mem_filterMap.mp hleaf
  obtain ⟨-, -, -, hparents, hkey⟩ := Visit.leaf?_eq_some hleaf
  obtain ⟨-, hproperty, hselector⟩ := Leaf.mem_declared.mp hd
  obtain ⟨hroot, -, habove, -⟩ := passes_visit hpasses htree hvisit
  refine ⟨Selector.free_of_mem_ofPath hbad (fun k hk => hfree (habove k (hparents ▸ hk) []))
    hselector, ?_⟩
  rw [hproperty, Leaf.property, hkey]
  exact Property.free_name hbad (hfree hroot)

variable (hqueries : ∀ entry ∈ options.queries, Free bad entry.2.toList)
  (hsigns : Free bad "@media ".toList)

include hqueries hsigns

theorem free_header_of_mem_filings {filing : Filing} (h : filing ∈ tree.filings options) :
    Free bad (filing.table.under filing.header).toList := by
  obtain ⟨visit, hvisit, hfiling⟩ := List.mem_flatMap.mp h
  obtain ⟨hroot, hinner, -⟩ := passes_visit hpasses htree hvisit
  have hkey := hfree hroot
  have hmedia {query : String} (hquery : Free bad query.toList) :
      Free bad (Table.media.under query).toList := by
    rw [Table.under, String.toList_append]
    exact hsigns.append hquery
  obtain ⟨-, -, ⟨-, -, ⟨htable, hheader⟩ | ⟨htable, htarget⟩⟩ |
    ⟨-, entry, hentry, -, htable, hquery⟩⟩ := Visit.mem_filings hfiling
  · rw [hheader]
    cases hcase : filing.table with
    | layers => exact hkey.trimmed
    | containers => exact hkey.trimmed
    | media => exact absurd hcase htable
  · rw [htable]
    exact hmedia (Target.free_ofKey? hkey hqueries htarget)
  · have hentry := hpasses.root (nodeEvery_of_mem_entries hinner hentry).1
    rw [htable]
    exact hmedia (Target.free_mapQuery? (hfree hentry) hqueries hquery)

/-- The header of a part is free if the keys and the media queries are. -/
theorem free_header_of_mem_parts
    (hauto : ∀ entry ∈ options.auto.getD [], Free bad entry.2.query.toList) {found : Collected}
    (hholds : Collected.Holds options tree found) {auto : Bool} {part : Part}
    (h : part ∈ found.parts options auto) {header : String} (hheader : part.header? = some header) :
    Free bad header.toList := by
  refine @Collected.of_mem_parts options auto tree found
    (fun header? _ => ∀ header, header? = some header → Free bad header.toList) hholds
    (fun _ _ _ _ hb => hb) (fun filing hfiling header hheader => ?_) (fun _ _ => by simp)
    (fun _ _ _ _ _ entry hentry header hheader => ?_) part h header hheader
  · exact Option.some.inj hheader ▸
      free_header_of_mem_filings hpasses hfree htree hqueries hsigns hfiling
  · rw [← Option.some.inj hheader, String.toList_append]
    exact hsigns.append (hauto entry hentry)

end Free

end StyleTree

end NestedStyles
