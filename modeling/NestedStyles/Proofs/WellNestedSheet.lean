import NestedStyles.Proofs.FreeTexts
import NestedStyles.Proofs.LaidSheet
import NestedStyles.Proofs.PlainSheet

/-!
# Well-nested stylesheets

A tree of clean texts compiles to CSS that is well nested (`StyleTree.wellNested_compile`): what is
found in it is laid out, its parts are trees of clean texts again, and a block that stands around a
part has a clean header. No key may begin with white space, since a property stands behind its
indentation as it is; the selector of a mode may, unless it is white space only. Then it is not
marked, and where the bucket of the modes is compiled again it can become a property.
-/

namespace NestedStyles

open Layout Text

/-- The media queries and selectors of the tables are clean. -/
structure Options.IsClean (options : Options) : Prop where
  queries : ∀ entry ∈ options.queries, Clean entry.2.toList
  modes : ∀ entry ∈ options.modes, Clean entry.2.toList
  auto : ∀ entry ∈ options.auto.getD [],
    Clean entry.2.selector.toList ∧ Clean entry.2.query.toList

/-- No selector of a mode, nor one that takes its place, is white space only. -/
structure Options.IsUnspaced (options : Options) : Prop where
  modes : ∀ entry ∈ options.modes, isBlank entry.2 = true → entry.2 = ""
  auto : ∀ entry ∈ options.auto.getD [],
    isBlank entry.2.selector = true → entry.2.selector = ""

/-- A clean text that begins with `@` stands before a block. -/
theorem Layout.isHeader_of_at {header : String} (hclean : Clean header.toList)
    (h : ∃ rest, header.toList = '@' :: rest) : IsHeader header := by
  obtain ⟨rest, hrest⟩ := h
  refine ⟨hclean, fun hempty => ?_, hrest ▸ startsVisibly_cons.mpr (by decide)⟩
  rw [hempty] at hrest
  exact absurd hrest (by simp)

/-- A statement of clean texts is laid out. -/
theorem Layout.isLaid_of_statement {key : String} (hclean : Clean key.toList)
    (h : isAtKey key = true) {names : Option String} (hnames : Clean (names.getD "").toList) :
    IsLaid (Buckets.statement key names) := by
  obtain ⟨front, hfront, -, htext⟩ := Buckets.exists_of_statement (by decide) hclean h hnames
  refine ⟨_, @Laid.line 0 _ ?_ (startsVisibly_cons.mpr (by decide))
    (@List.getLast?_concat _ ('@' :: front) ';'), htext.trans (text_singleton _).symm⟩
  exact Free.append hfront (by decide)

/-! ## Trees of clean texts -/

namespace StyleTree

/-- The key and the value are clean, and the key is not white space only. -/
def isCleanRoot (key : String) (node : Node) : Bool :=
  decide (Clean key.toList) && (!isBlank key || key == "") && node.isClean

/-- The key and the value are clean, and the key does not begin with white space. -/
def isCleanEntry (key : String) (node : Node) : Bool :=
  decide (Clean key.toList) && !key.toList.head?.any isSpace && node.isClean

/-- The keys and values of the tree are clean, and no key begins with white space. -/
def isClean (tree : StyleTree) : Bool := every isCleanEntry tree

theorem isCleanRoot_iff {key : String} {node : Node} : isCleanRoot key node = true ↔
    Clean key.toList ∧ (isBlank key = true → key = "") ∧ node.isClean = true := by
  simp only [isCleanRoot, Bool.and_eq_true, decide_eq_true_eq, Bool.or_eq_true, Bool.not_eq_true',
    beq_iff_eq, and_assoc]
  cases isBlank key <;> simp

theorem isCleanEntry_iff {key : String} {node : Node} : isCleanEntry key node = true ↔
    Clean key.toList ∧ StartsVisibly key.toList ∧ node.isClean = true := by
  simp only [isCleanEntry, Bool.and_eq_true, decide_eq_true_eq, Bool.not_eq_true', and_assoc]
  cases key.toList with
  | nil => simp [startsVisibly_nil]
  | cons c rest => simp [startsVisibly_cons]

/-- A blank text that begins visibly is empty. -/
theorem eq_empty_of_isBlank {key : String} (hblank : isBlank key = true)
    (h : StartsVisibly key.toList) : key = "" := by
  cases hkey : key.toList with
  | nil => exact String.toList_eq_nil_iff.mp hkey
  | cons c rest =>
    rw [isBlank, hkey, List.all_cons, startsVisibly_cons.mp (hkey ▸ h)] at hblank
    exact absurd hblank (by simp)

/-- A key that is marked begins with its mark. -/
theorem startsVisibly_asDescendant (key : String) :
    StartsVisibly (Selector.asDescendant key).toList := by
  rcases Selector.asDescendant_eq key with hempty | ⟨rest, hrest⟩
  · rw [hempty]
    exact startsVisibly_nil
  · rw [hrest, String.toList_append]
    exact startsVisibly_cons.mpr (by decide)

section Options

variable {options : Options} (hoptions : options.IsClean) (hunspaced : options.IsUnspaced)

include hoptions hunspaced

theorem isCleanRoot_mode {name selector : String} (h : options.modes.get? name = some selector)
    (entries : StyleTree) : isCleanRoot selector (.tree entries) = true :=
  have hmem := Entries.mem_of_get? h
  isCleanRoot_iff.mpr ⟨hoptions.modes _ hmem, hunspaced.modes _ hmem, rfl⟩

/-- The parts of a tree of clean texts are of clean texts. -/
theorem passes_isClean : Passes options isCleanRoot isCleanEntry where
  root h := by
    obtain ⟨hclean, hstarts, hnode⟩ := isCleanEntry_iff.mp h
    exact isCleanRoot_iff.mpr ⟨hclean, fun hblank => eq_empty_of_isBlank hblank hstarts, hnode⟩
  mapRoot h := h
  map h := h
  marked _ h := isCleanEntry_iff.mpr
    ⟨Selector.free_asDescendant spared_isMark (isCleanRoot_iff.mp h).1,
      startsVisibly_asDescendant _, rfl⟩
  blank hblank h := by
    obtain ⟨-, hempty, -⟩ := isCleanRoot_iff.mp h
    rw [hempty hblank]
    exact isCleanEntry_iff.mpr ⟨Clean.nil, startsVisibly_nil, rfl⟩
  mode h := isCleanRoot_mode hoptions hunspaced h
  auto entry hentry _ := isCleanRoot_iff.mpr
    ⟨(hoptions.auto entry hentry).1, hunspaced.auto entry hentry, rfl⟩

end Options

/-! ## What is found in a tree -/

section Found

variable {options : Options} (hpasses : Passes options isCleanRoot isCleanEntry)
  {tree : StyleTree} (htree : everyRoot isCleanRoot isCleanEntry tree)

include hpasses htree

/-- The declarations of a tree of clean texts are of clean texts. -/
theorem isClean_declared {d : Declared} (h : d ∈ tree.ownLeaves.flatMap Leaf.declared) :
    d.IsClean := by
  obtain ⟨leaf, hleaf, hd⟩ := List.mem_flatMap.mp h
  obtain ⟨visit, hvisit, hleaf⟩ := List.mem_filterMap.mp hleaf
  obtain ⟨-, -, -, hparents, hkey⟩ := Visit.leaf?_eq_some hleaf
  obtain ⟨-, hproperty, hselector⟩ := Leaf.mem_declared.mp hd
  rw [hparents] at hselector
  -- A leaf at the root has no selector, and below the root no key begins with white space.
  obtain ⟨key, entries, hentries, hbelow⟩ :
      ∃ key entries, (key, .tree entries) ∈ tree ∧ visit ∈ visitsBelow [key] entries := by
    refine (root_of_mem_visits hvisit).resolve_left ?_
    rintro ⟨key, hpath, -⟩
    rw [Visit.parents, hpath] at hselector
    exact absurd hselector (by simp [show Selector.ofPath [] = [] from rfl])
  obtain ⟨hnode, -⟩ := every_of_mem_visitsBelow (htree _ _ hentries).2 hbelow
  obtain ⟨-, hstarts, -⟩ := isCleanEntry_iff.mp hnode
  obtain ⟨hne, hvisible⟩ := Selector.startsVisibly_of_mem_ofPath hselector
  obtain ⟨hfree, hname⟩ := free_declared hpasses (fun h => (isCleanRoot_iff.mp h).1) htree
    spared_isMark h
  refine ⟨⟨hfree, hne, hvisible⟩, hname, ?_,
    clean_value_of_declared hpasses (fun h => (isCleanRoot_iff.mp h).2.2) htree h⟩
  rw [hproperty, Leaf.property, hkey]
  exact Property.startsVisibly_name hstarts

/-- The statements of a tree of clean texts are laid out. -/
theorem isLaid_statement {statement : String} (h : statement ∈ tree.statements) :
    IsLaid statement := by
  obtain ⟨visit, hvisit, hrole, rfl⟩ := exists_of_mem_statements h
  obtain ⟨hclean, -, hnode⟩ := isCleanRoot_iff.mp (passes_visit hpasses htree hvisit).1
  have hnames : Clean ((Collected.layerNames visit.node).getD "").toList := by
    unfold Collected.layerNames
    split
    · next names hleaf =>
      rw [hleaf] at hnode
      exact of_decide_eq_true hnode
    · exact Clean.nil
  have hkey : isAtKey visit.key = true :=
    Visit.isAtKey_of_role (by simp [hrole]) (by simp [hrole])
  exact isLaid_of_statement hclean hkey hnames

end Found

section Headers

variable {options : Options} (hoptions : options.IsClean)
  (hpasses : Passes options isCleanRoot isCleanEntry) {tree : StyleTree}
  (htree : everyRoot isCleanRoot isCleanEntry tree)

include hoptions hpasses htree

/-- A part of a tree of clean texts stands under a header, if it stands in a block. -/
theorem isHeader_of_mem_parts {found : Collected} (hholds : Collected.Holds options tree found)
    {auto : Bool} {part : Part} (h : part ∈ found.parts options auto) {header : String}
    (hheader : part.header? = some header) : IsHeader header :=
  isHeader_of_at (free_header_of_mem_parts hpasses (fun h => (isCleanRoot_iff.mp h).1) htree
    hoptions.queries (by decide) (fun entry hentry => (hoptions.auto entry hentry).2) hholds h
    hheader) (header_of_mem_parts hholds h hheader)

end Headers

/-! ## Stylesheets -/

section Compile

variable {options : Options} (hoptions : options.IsClean) (hunspaced : options.IsUnspaced)

include hoptions hunspaced

/-- In any number of steps a tree of clean texts compiles to CSS that is laid out, if there is
any. -/
theorem isLaid_compileWithin (steps : Nat) : ∀ {scope : List String} {auto : Bool}
    {tree : StyleTree} {sheet : Stylesheet}, everyRoot isCleanRoot isCleanEntry tree →
    tree.compileWithin options steps scope auto = .ok sheet →
      sheet.css = "" ∨ IsLaid sheet.css := by
  induction steps with
  | zero => exact fun _ h => absurd h (by simp [compileWithin])
  | succ steps ih =>
    intro scope auto tree sheet htree h
    have hpasses := passes_isClean hoptions hunspaced
    obtain ⟨found, sheets, hfound, hsheets, rfl⟩ := exists_of_compileWithin options steps auto h
    have hholds := Collected.holds_collect hfound
    dsimp only [Stylesheet.assemble]
    refine isLaid_sections fun css hcss => ?_
    rcases List.mem_cons.mp hcss with rfl | hcss
    · rw [hholds.statements]
      by_cases hnil : tree.statements = []
      · exact Or.inl (by rw [hnil]; rfl)
      · exact Or.inr (intercalate_of IsLaid.next hnil fun _ => isLaid_statement hpasses htree)
    rcases List.mem_cons.mp hcss with rfl | hcss
    · rw [hholds.rules]
      exact RuleSet.isLaid_css fun _ => isClean_declared hpasses htree
    obtain ⟨placed, hplaced, rfl⟩ := List.mem_map.mp hcss
    obtain ⟨part, hpart, hcompile⟩ := exists_of_mem_mapM hsheets hplaced
    obtain ⟨inner, hinner, rfl⟩ := Except.exists_of_map_ok hcompile
    have hlaid := ih (everyRoot_of_mem_parts hpasses htree hholds hpart) hinner
    rw [Part.css_place, Part.placeCss]
    cases hheader : part.header? with
    | none => exact hlaid
    | some header =>
      dsimp only
      split
      · exact Or.inl rfl
      · next hne =>
        exact Or.inr ((hlaid.resolve_left hne).block
          (isHeader_of_mem_parts hoptions hpasses htree hholds hpart hheader))

/-- The CSS of a tree of clean texts is well nested. -/
theorem wellNested_compile {tree : StyleTree} (htree : tree.isClean = true) {sheet : Stylesheet}
    (h : tree.compile options = .ok sheet) : WellNested sheet.css := by
  have hpasses := passes_isClean hoptions hunspaced
  have hcss := css_compile options tree
  rw [h] at hcss
  obtain ⟨inner, hinner, hsame⟩ := Except.exists_of_map_ok hcss.symm
  rw [← hsame]
  rcases isLaid_compileWithin hoptions hunspaced _ (everyRoot_of_every hpasses.root htree) hinner
    with hempty | hlaid
  · rw [hempty]
    exact wellNested_empty
  · exact hlaid.wellNested

end Compile

/-- The statement of a layer, and a mode that is given behind its own selector and once more in a
block as an automatic mode. -/
theorem wellNested_compile_layer_and_mode :
    ∃ sheet, compile ((Options.empty.withMode "dark" ".dark").withAuto "dark" ":root" "(dark)")
        [("@layer", .leaf (.text "base")),
          ("@dark", .tree [("p", .tree [("color", .leaf (.text "red"))])])] = .ok sheet ∧
      sheet.css = "@layer base;\n\n.dark p \x7b\n  color: red;\n\x7d\n\n" ++
        "@media (dark) \x7b\n  :root p \x7b\n    color: red;\n  \x7d\n\x7d" ∧
      WellNested sheet.css := by
  refine Except.exists_of_toOption_map (by decide +kernel) fun sheet hsheet _ => ?_
  exact @wellNested_compile
    ((Options.empty.withMode "dark" ".dark").withAuto "dark" ":root" "(dark)")
    ⟨by decide, by decide, by decide⟩ ⟨by decide, by decide⟩
    [("@layer", .leaf (.text "base")),
      ("@dark", .tree [("p", .tree [("color", .leaf (.text "red"))])])] (by decide) sheet hsheet

/-- The selector of a mode that is a space stands unmarked between the selector of another mode and
its content. Where two blocks leave a `var` and a `name` there, it has become a property, and its
line begins with three spaces. -/
theorem not_wellNested_spaced_mode :
    ((Options.empty.withMode "dark" " ").withMode "light" ".x").IsClean ∧
    ((Options.empty.withMode "dark" " ").withMode "light" ".x").IsFlat ∧
    isClean [("@dark", .tree [
      ("@light", .tree [("var", .leaf (.text "v")),
        ("name", .leaf (.number (.finite false 5629499534213120 (-50))))]),
      ("@ light", .tree [("name", .leaf (.text "n"))])])] = true ∧
    ∃ sheet, compile ((Options.empty.withMode "dark" " ").withMode "light" ".x")
        [("@dark", .tree [
          ("@light", .tree [("var", .leaf (.text "v")),
            ("name", .leaf (.number (.finite false 5629499534213120 (-50))))]),
          ("@ light", .tree [("name", .leaf (.text "n"))])])] = .ok sheet ∧
      sheet.css = ".x \x7b\n   : v;\n\x7d" ∧ ¬ WellNested sheet.css := by
  refine ⟨⟨by decide, by decide, by decide⟩, ⟨by decide, by decide⟩, by decide, ?_⟩
  refine Except.exists_of_toOption_map (by decide +kernel) fun sheet _ hcss => ?_
  intro h
  rw [hcss] at h
  exact absurd h.indented (by decide)

end StyleTree

end NestedStyles
