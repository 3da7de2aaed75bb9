import NestedStyles.Proofs.FreeTexts
import NestedStyles.Proofs.LaidSheet
import NestedStyles.Proofs.PlainSheet
import NestedStyles.Proofs.TopLevel

/-!
# Layer statements

A tree gives its layer statements before everything else and each of them once. The modes of a tree
are compiled as a tree of their own, and its CSS stands at the top level behind that of the tree: so
the parts of a stylesheet are the statements and the blocks of the tree, those of its modes, those
of the modes in these, and so on (`StyleTree.compile_topLevel`). If the modes have no statements,
then all statements come first and no two are the same. A statement of a mode may come late, and
once more (`StyleTree.late_statement`).
-/

namespace NestedStyles

open Layout Text

/-! ## Trees whose texts are free of separators -/

/-- The characters that separate the parts of a stylesheet are no signs of a selector and the
lowercase form of none. -/
theorem Text.spared_isSeparator : Spared isSeparator where
  signs := by decide
  lowercase hc _ h := by
    refine of_mem_lowercase (fun hbad => ?_) (by decide) (by decide +kernel) (by decide)
      loweringRuns_clean hc h
    rw [isSeparator, Bool.or_eq_true] at hbad
    rcases hbad with hbad | hbad
    · exact toNat_mem_markCodes hbad
    · rw [beq_iff_eq.mp hbad]
      decide

/-- No separator stands in the text of the item. -/
def Item.isUnbroken : Item → Bool
  | .text s => decide (Free isSeparator s.toList)
  | .number _ => true

/-- No separator stands in a text of the value. -/
def Value.isUnbroken : Value → Bool
  | .text s => decide (Free isSeparator s.toList)
  | .list items => items.all Item.isUnbroken
  | .reference css _ => decide (Free isSeparator css.toList)
  | _ => true

/-- No separator stands in the value of a leaf. -/
def Node.isUnbroken : Node → Bool
  | .leaf value => value.isUnbroken
  | .tree _ => true

theorem Node.isClean_of_isUnbroken {node : Node} (h : node.isUnbroken = true) :
    node.isClean = true := by
  cases node with
  | tree entries => rfl
  | leaf value =>
    cases value with
    | text s => exact decide_eq_true (clean_of_free (of_decide_eq_true h))
    | number n => rfl
    | bool b => rfl
    | null => rfl
    | reference css name => exact decide_eq_true (clean_of_free (of_decide_eq_true h))
    | list items =>
      refine List.all_eq_true.mpr fun item hitem => ?_
      have hunbroken := List.all_eq_true.mp h item hitem
      cases item with
      | text s => exact decide_eq_true (clean_of_free (of_decide_eq_true hunbroken))
      | number n => rfl

/-- No separator stands in the media queries and selectors of the tables. -/
structure Options.IsUnbroken (options : Options) : Prop where
  queries : ∀ entry ∈ options.queries, Free isSeparator entry.2.toList
  modes : ∀ entry ∈ options.modes, Free isSeparator entry.2.toList
  auto : ∀ entry ∈ options.auto.getD [],
    Free isSeparator entry.2.selector.toList ∧ Free isSeparator entry.2.query.toList

/-! ## Outlines of rules -/

namespace RuleSet

/-- A rule is a block. -/
theorem outline_rule {rule : String × Declarations} (hfree : Free isSeparator rule.1.toList)
    (hne : rule.1 ≠ "") (hstarts : StartsVisibly rule.1.toList) (hnil : rule.2 ≠ [])
    (h : ∀ declaration ∈ rule.2, Clean declaration.1.toList ∧ Clean declaration.2.toList) :
    Outline (RuleSet.rule rule) [RuleSet.rule rule] := by
  have hlist : rule.1.toList ≠ [] := mt String.toList_eq_nil_iff.mp hne
  have hlines : Layout.Balanced (text ((rule.2.map lineText).map (padded 1))) := by
    rw [Layout.Balanced, openBehind_text]
    refine Clean.balanced fun c hc => ?_
    obtain ⟨line, hline, hc⟩ := List.mem_flatten.mp hc
    obtain ⟨_, htext, rfl⟩ := List.mem_map.mp hline
    obtain ⟨declaration, hdeclaration, rfl⟩ := List.mem_map.mp htext
    obtain ⟨hproperty, hvalue⟩ := h declaration hdeclaration
    exact (clean_lineText hproperty hvalue).padded 1 c hc
  have hbody : Layout.Balanced
      (['\n'] ++ (text ((rule.2.map lineText).map (padded 1)) ++ ['\n'])) :=
    Layout.Balanced.append rfl (hlines.append rfl)
  refine Outline.block (hfree.append (by decide : Free isSeparator [' '])) (by simp)
    (hstarts.append hlist _) hbody ?_
  rw [toList_rule hnil]
  simp

/-- The rules of declarations are blocks. -/
theorem isBlocks_css {list : List Declared}
    (h : ∀ d ∈ list, (Free isSeparator d.selector.toList ∧ Clean d.property.toList) ∧
      (d.selector ≠ "" ∧ StartsVisibly d.selector.toList) ∧ Clean d.value.toList) :
    IsBlocks (ofDeclared list).css := by
  refine @Outline.isBlocks _ ((Declared.selectors list).map (Declared.block list)) ?_
    fun block hblock => ?_
  · have hrow := @Outline.intercalate "\n\n" (by decide) (fun block => [block])
      ((Declared.selectors list).map (Declared.block list)) fun block hblock => ?_
    · rw [css_ofDeclared]
      simpa using hrow
    · obtain ⟨s, hs, rfl⟩ := List.mem_map.mp hblock
      obtain ⟨rule, hrule, hnil, ⟨d, hd, hselector⟩, hdeclarations⟩ := exists_rule hs
      obtain ⟨⟨hfree, -⟩, ⟨hne, hstarts⟩, -⟩ := h d hd
      rw [hselector] at hfree hne hstarts
      have houtline := outline_rule hfree hne hstarts hnil fun declaration hdeclaration => by
        obtain ⟨other, hother, rfl⟩ := hdeclarations declaration hdeclaration
        exact ⟨(h other hother).1.2, (h other hother).2.2⟩
      rw [hrule] at houtline
      refine ⟨fun hempty => ?_, houtline⟩
      have := congrArg String.toList hempty
      simp [Declared.block] at this
  · obtain ⟨s, -, rfl⟩ := List.mem_map.mp hblock
    rw [isBlock, Declared.block, String.toList_append]
    exact beq_iff_eq.mpr List.getLast?_concat

end RuleSet

namespace StyleTree

/-- No separator stands in the key and the value. -/
def isUnbrokenEntry (key : String) (node : Node) : Bool :=
  decide (Free isSeparator key.toList) && node.isUnbroken

/-- No separator stands in the keys and values of the tree. -/
def isUnbroken (tree : StyleTree) : Bool := every isUnbrokenEntry tree

theorem isUnbrokenEntry_iff {key : String} {node : Node} : isUnbrokenEntry key node = true ↔
    Free isSeparator key.toList ∧ node.isUnbroken = true := by
  rw [isUnbrokenEntry, Bool.and_eq_true, decide_eq_true_eq]

theorem free_of_isUnbrokenEntry {key : String} {node : Node} (h : isUnbrokenEntry key node = true) :
    Free isSeparator key.toList := (isUnbrokenEntry_iff.mp h).1

theorem passes_isUnbroken {options : Options} (hoptions : options.IsUnbroken) :
    Passes options isUnbrokenEntry isUnbrokenEntry where
  root := id
  mapRoot h := h
  map h := h
  marked _ h := isUnbrokenEntry_iff.mpr
    ⟨Selector.free_asDescendant spared_isSeparator (free_of_isUnbrokenEntry h), rfl⟩
  blank _ := id
  mode h _ := isUnbrokenEntry_iff.mpr ⟨hoptions.modes _ (Entries.mem_of_get? h), rfl⟩
  auto entry hentry _ := isUnbrokenEntry_iff.mpr ⟨(hoptions.auto entry hentry).1, rfl⟩

/-! ## The statements of a tree -/

theorem beginsWith_of_role {visit : Visit} (h : visit.role = .layerStatement) :
    Text.beginsWith "@layer" visit.key = true := by
  refine Classical.byContradiction fun hnot => ?_
  rw [Bool.not_eq_true] at hnot
  unfold Visit.role at h
  dsimp only at h
  rw [hnot] at h
  repeat' split at h
  all_goals simp_all

/-- A statement begins with `@layer` and ends with a `;`. -/
theorem isStatement_of_mem_statements {tree : StyleTree} {statement : String}
    (h : statement ∈ tree.statements) : isStatement statement = true := by
  obtain ⟨visit, -, hrole, rfl⟩ := exists_of_mem_statements h
  obtain ⟨front, hfront⟩ : ∃ front,
      (Buckets.statement visit.key (Collected.layerNames visit.node)).toList =
        visit.key.toList ++ (front ++ [';']) := by
    unfold Buckets.statement
    dsimp only
    split
    · exact ⟨[], String.toList_append ..⟩
    · refine ⟨' ' :: (Text.trimmed ((Collected.layerNames visit.node).getD "")).toList, ?_⟩
      simp [String.toList_append]
  have hbegins : Text.beginsWith "@layer"
      (Buckets.statement visit.key (Collected.layerNames visit.node)) = true := by
    rw [Text.beginsWith, hfront, List.isPrefixOf_iff_prefix]
    exact (List.isPrefixOf_iff_prefix.mp (beginsWith_of_role hrole)).trans (List.prefix_append ..)
  rw [isStatement, hbegins, hfront, ← List.append_assoc, List.getLast?_concat]
  rfl

/-- No statement of a tree is noted twice. -/
theorem nodup_statements (tree : StyleTree) : tree.statements.Nodup := Entries.nodup_eraseDups _

section Found

variable {options : Options} {tree : StyleTree}
  (htree : everyRoot isUnbrokenEntry isUnbrokenEntry tree)
  (hpasses : Passes options isUnbrokenEntry isUnbrokenEntry)

include htree hpasses

/-- The statements of a tree stand line by line. -/
theorem outline_statements :
    Outline ("\n".intercalate tree.statements) tree.statements := by
  have hrow := @Outline.intercalate "\n" (by decide) (fun statement => [statement])
    tree.statements fun statement hstatement => ?_
  · simpa using hrow
  · obtain ⟨visit, hvisit, hrole, rfl⟩ := exists_of_mem_statements hstatement
    obtain ⟨hkey, hnode⟩ := isUnbrokenEntry_iff.mp (passes_visit hpasses htree hvisit).1
    have hnames : Free isSeparator ((Collected.layerNames visit.node).getD "").toList := by
      unfold Collected.layerNames
      split
      · next names hleaf =>
        rw [hleaf] at hnode
        exact of_decide_eq_true hnode
      · exact Free.nil
    obtain ⟨front, hfree, -, htext⟩ := Buckets.exists_of_statement (by decide) hkey
      (Visit.isAtKey_of_role (by simp [hrole]) (by simp [hrole])) hnames
    refine ⟨fun hempty => ?_, Outline.statement hfree (by simp) ?_ htext⟩
    · rw [hempty] at htext
      exact absurd htext (by simp)
    · exact startsVisibly_cons.mpr (by decide)

/-- The rules of a tree are blocks. -/
theorem isBlocks_rules :
    IsBlocks (RuleSet.ofDeclared (tree.ownLeaves.flatMap Leaf.declared)).css := by
  refine RuleSet.isBlocks_css fun d hd => ⟨?_, ?_, ?_⟩
  · obtain ⟨hselector, hproperty⟩ :=
      free_declared hpasses free_of_isUnbrokenEntry htree spared_isSeparator hd
    exact ⟨hselector, clean_of_free hproperty⟩
  · obtain ⟨leaf, -, hleaf⟩ := List.mem_flatMap.mp hd
    exact Selector.startsVisibly_of_mem_ofPath (Leaf.mem_declared.mp hleaf).2.2
  · exact clean_value_of_declared hpasses
      (fun h => Node.isClean_of_isUnbroken (isUnbrokenEntry_iff.mp h).2) htree hd

end Found

end StyleTree

/-! ## Outlines of stylesheets -/

/-- All parts but the tree of the modes stand in a block. -/
theorem Collected.parts_split (options : Options) (auto : Bool) (found : Collected) :
    ∃ front back : List Part, found.parts options auto =
        front ++ (if found.buckets.modes.isEmpty then []
          else [⟨none, false, false, found.buckets.modes⟩]) ++ back ∧
      ∀ part ∈ front ++ back, ∃ header, part.header? = some header := by
  refine ⟨_, _, rfl, fun part hpart => ?_⟩
  simp only [List.mem_append, List.mem_map] at hpart
  rcases hpart with ((⟨_, -, rfl⟩ | ⟨_, -, rfl⟩) | ⟨_, -, rfl⟩) | ⟨_, -, rfl⟩ <;> exact ⟨_, rfl⟩

namespace StyleTree

/-- The tree of the modes of a tree, the tree of the modes of that, and so on. -/
def modesAfter (options : Options) : (levels : Nat) → StyleTree → StyleTree
  | 0, tree => tree
  | levels + 1, tree => modesAfter options levels (tree.modesOf options)

theorem modesAfter_nil (options : Options) (levels : Nat) : modesAfter options levels [] = [] := by
  induction levels with
  | zero => rfl
  | succ levels ih => exact ih

/-- The parts of the texts are the statements and the blocks of the tree, those of its modes, and so
on for as many levels, and at last some blocks. -/
def IsLayered (options : Options) (levels : Nat) (tree : StyleTree) (texts : List String) : Prop :=
  (∀ css ∈ texts, Outline css (topLevel css)) ∧
  ∃ (blocks : Nat → List String) (last : List String),
    (∀ level, ∀ block ∈ blocks level, isBlock block = true) ∧
    (∀ block ∈ last, isBlock block = true) ∧
    texts.flatMap topLevel = (List.range levels).flatMap (fun level =>
      (modesAfter options level tree).statements ++ blocks level) ++ last

theorem isLayered_nil (options : Options) (levels : Nat) : IsLayered options levels [] [] := by
  refine ⟨by simp, fun _ => [], [], by simp, by simp, ?_⟩
  simp [modesAfter_nil, show statements [] = [] from rfl]

/-- A tree adds its level to those of its modes. -/
theorem IsLayered.sections {options : Options} {levels : Nat} {tree : StyleTree} {text : String}
    {front modes back : List String} (htext : Outline text tree.statements)
    (hfront : ∀ css ∈ front, IsBlocks css)
    (hmodes : IsLayered options levels (tree.modesOf options) modes)
    (hback : ∀ css ∈ back, IsBlocks css) :
    IsLayered options (levels + 1) tree [sections (text :: front ++ modes ++ back)] := by
  obtain ⟨houtlines, blocks, last, hblocks, hlast, hlevels⟩ := hmodes
  have houtline : Outline (Layout.sections (text :: front ++ modes ++ back))
      ((text :: front ++ modes ++ back).flatMap topLevel) := by
    refine Outline.sections fun css hcss => ?_
    simp only [List.mem_append, List.mem_cons] at hcss
    rcases hcss with ((rfl | hcss) | hcss) | hcss
    · rw [htext.topLevel_eq]
      exact htext
    · exact (hfront css hcss).1
    · exact houtlines css hcss
    · exact (hback css hcss).1
  refine ⟨fun css hcss => ?_, fun level =>
    if level = 0 then front.flatMap topLevel else blocks (level - 1),
    last ++ back.flatMap topLevel, fun level => ?_, ?_, ?_⟩
  · rw [List.mem_singleton.mp hcss, houtline.topLevel_eq]
    exact houtline
  · cases level with
    | zero => exact isBlock_of_mem_flatMap hfront
    | succ level => exact hblocks level
  · exact List.forall_mem_append.mpr ⟨hlast, isBlock_of_mem_flatMap hback⟩
  · rw [List.flatMap_singleton, houtline.topLevel_eq, List.flatMap_append, List.flatMap_append,
      List.flatMap_cons, htext.topLevel_eq, hlevels, List.range_succ_eq_map, List.flatMap_cons,
      List.flatMap_map]
    simp [modesAfter, List.append_assoc]

/-- Statements before blocks stand behind nothing else. -/
theorem pairwise_statements {statements blocks : List String}
    (hstatements : ∀ statement ∈ statements, isStatement statement = true)
    (hblocks : ∀ block ∈ blocks, isBlock block = true) :
    (statements ++ blocks).Pairwise fun part other =>
      isStatement other = true → isStatement part = true := by
  refine List.pairwise_append.mpr ⟨List.pairwise_iff_forall_sublist.mpr fun h _ => ?_,
    List.pairwise_iff_forall_sublist.mpr fun {_ other} h hstatement => ?_,
    fun part hpart _ _ _ => hstatements part hpart⟩
  · exact hstatements _ (h.subset (by simp))
  · have hblock := isStatement_of_isBlock (hblocks other (h.subset (by simp)))
    exact absurd (hstatement.symm.trans hblock) (by simp)

theorem filter_statements {statements blocks : List String}
    (hstatements : ∀ statement ∈ statements, isStatement statement = true)
    (hblocks : ∀ block ∈ blocks, isBlock block = true) :
    (statements ++ blocks).filter isStatement = statements := by
  rw [List.filter_append, List.filter_eq_self.mpr hstatements, List.filter_eq_nil_iff.mpr
    fun block hblock => by simp [isStatement_of_isBlock (hblocks block hblock)], List.append_nil]

section Compile

variable {options : Options} (hoptions : options.IsUnbroken)

include hoptions

/-- In a block the CSS of a part is a block, if there is any. -/
theorem isBlocks_place {tree : StyleTree} (htree : everyRoot isUnbrokenEntry isUnbrokenEntry tree)
    {found : Collected} (hholds : Collected.Holds options tree found) {auto : Bool} {part : Part}
    (hpart : part ∈ found.parts options auto) {header : String}
    (hheader : part.header? = some header) {sheet : Stylesheet}
    (h : Layout.Balanced sheet.css.toList) : IsBlocks (part.place sheet).css := by
  rw [Part.css_place, Part.placeCss, hheader]
  dsimp only
  split
  · exact Outline.empty.isBlocks (by simp)
  · obtain ⟨rest, hrest⟩ := header_of_mem_parts hholds hpart hheader
    have hfree := free_header_of_mem_parts (passes_isUnbroken hoptions) free_of_isUnbrokenEntry
      htree hoptions.queries (by decide) (fun entry hentry => (hoptions.auto entry hentry).2) hholds
      hpart hheader
    refine (Outline.under hfree (fun hempty => by simp [hempty] at hrest)
      (hrest ▸ startsVisibly_cons.mpr (by decide)) h).isBlocks fun block hblock => ?_
    rw [List.mem_singleton.mp hblock]
    exact isBlock_block header sheet.css

/-- In any number of steps a tree without separators compiles to its statements and blocks, those of
its modes, and so on. -/
theorem isLayered_compileWithin (steps : Nat) : ∀ {scope : List String} {auto : Bool}
    {tree : StyleTree} {sheet : Stylesheet}, everyRoot isUnbrokenEntry isUnbrokenEntry tree →
    tree.compileWithin options steps scope auto = .ok sheet →
      IsLayered options steps tree [sheet.css] := by
  induction steps with
  | zero => exact fun _ h => absurd h (by simp [compileWithin])
  | succ steps ih =>
    intro scope auto tree sheet htree h
    have hpasses := passes_isUnbroken hoptions
    obtain ⟨found, sheets, hfound, hsheets, rfl⟩ := exists_of_compileWithin options steps auto h
    have hholds := Collected.holds_collect hfound
    obtain ⟨front, back, hparts, hheaders⟩ := found.parts_split options auto
    have hmem {part : Part} (hpart : part ∈ front ++ back) : part ∈ found.parts options auto := by
      rw [hparts]
      simp only [List.mem_append] at hpart ⊢
      exact hpart.elim (fun h => Or.inl (Or.inl h)) Or.inr
    rw [hparts] at hsheets
    obtain ⟨others, last, hothers, hlast, rfl⟩ := exists_of_mapM_append hsheets
    obtain ⟨first, modes, hfirst, hmodes, rfl⟩ := exists_of_mapM_append hothers
    have hblocks {row : List Part} {results : List Stylesheet}
        (hrow : ∀ part ∈ row, part ∈ front ++ back)
        (hresults : row.mapM (Part.compile options steps scope) = .ok results) :
        ∀ css ∈ results.map Stylesheet.css, IsBlocks css := by
      intro css hcss
      obtain ⟨placed, hplaced, rfl⟩ := List.mem_map.mp hcss
      obtain ⟨part, hpart, hcompile⟩ := exists_of_mem_mapM hresults hplaced
      obtain ⟨inner, hinner, rfl⟩ := Except.exists_of_map_ok hcompile
      obtain ⟨header, hheader⟩ := hheaders part (hrow part hpart)
      have hfiled := hmem (hrow part hpart)
      have hlayered := ih (everyRoot_of_mem_parts hpasses htree hholds hfiled) hinner
      exact isBlocks_place hoptions htree hholds hfiled hheader
        (hlayered.1 _ (List.mem_singleton_self _)).balanced
    -- The tree of the modes is the only part that stands in no block.
    have hlevels : IsLayered options steps (tree.modesOf options) (modes.map Stylesheet.css) := by
      rw [← hholds.modes]
      by_cases hempty : found.buckets.modes.isEmpty = true
      · rw [if_pos hempty] at hmodes
        obtain rfl : [] = modes := Except.ok.inj hmodes
        rw [List.isEmpty_iff.mp hempty]
        exact isLayered_nil options steps
      · have hpart : ⟨none, false, false, found.buckets.modes⟩ ∈ found.parts options auto := by
          rw [hparts, if_neg hempty]
          simp
        rw [if_neg hempty, List.mapM_cons] at hmodes
        obtain ⟨placed, hcompile, hmodes⟩ := Except.exists_of_bind_ok hmodes
        obtain rfl : [placed] = modes := Except.ok.inj hmodes
        obtain ⟨sheet, hsheet, rfl⟩ := Except.exists_of_map_ok hcompile
        exact ih (everyRoot_of_mem_parts hpasses htree hholds hpart) hsheet
    have hrules := isBlocks_rules htree hpasses
    have hstatements : Outline ("\n".intercalate found.buckets.statements) tree.statements := by
      rw [hholds.statements]
      exact outline_statements htree hpasses
    rw [← hholds.rules] at hrules
    have hsections := @IsLayered.sections options steps tree _
      (found.rules.css :: first.map Stylesheet.css) _ (last.map Stylesheet.css)
      hstatements
      (List.forall_mem_cons.mpr ⟨hrules, hblocks (fun _ => List.mem_append_left _) hfirst⟩) hlevels
      (hblocks (fun _ => List.mem_append_right _) hlast)
    have htexts : "\n".intercalate found.buckets.statements ::
        (found.rules.css :: first.map Stylesheet.css) ++ modes.map Stylesheet.css ++
          last.map Stylesheet.css =
        "\n".intercalate found.buckets.statements :: found.rules.css ::
          (first ++ modes ++ last).map Stylesheet.css := by
      simp only [List.map_append, List.cons_append, List.append_assoc]
    dsimp only [Stylesheet.assemble]
    rwa [← htexts]

/-- The parts of a stylesheet are the statements and the blocks of the tree, those of its modes, and
so on, and at last the blocks of the automatic modes. If the modes have no statements, no statement
stands behind anything else, and no two are the same. -/
theorem compile_topLevel {tree : StyleTree} (htree : tree.isUnbroken = true) {sheet : Stylesheet}
    (h : tree.compile options = .ok sheet) :
    (∃ (blocks : Nat → List String) (last : List String),
      (∀ level, ∀ block ∈ blocks level, isBlock block = true) ∧
      (∀ block ∈ last, isBlock block = true) ∧
      topLevel sheet.css = (List.range (tree.steps options)).flatMap (fun level =>
        (modesAfter options level tree).statements ++ blocks level) ++ last) ∧
    ((∀ level, (modesAfter options (level + 1) tree).statements = []) →
      (topLevel sheet.css).Pairwise (fun part other =>
        isStatement other = true → isStatement part = true) ∧
      ((topLevel sheet.css).filter isStatement).Nodup) := by
  have hcss := css_compile options tree
  rw [h] at hcss
  obtain ⟨inner, hinner, hsame⟩ := Except.exists_of_map_ok hcss.symm
  obtain ⟨-, blocks, last, hblocks, hlast, hlevels⟩ := isLayered_compileWithin hoptions _
    (everyRoot_of_every id htree) hinner
  rw [List.flatMap_singleton, hsame] at hlevels
  refine ⟨⟨blocks, last, hblocks, hlast, hlevels⟩, fun hnone => ?_⟩
  obtain ⟨statements, rest, hstatements, hnodup, hrest, hparts⟩ : ∃ statements rest : List String,
      (∀ statement ∈ statements, isStatement statement = true) ∧ statements.Nodup ∧
        (∀ block ∈ rest, isBlock block = true) ∧ topLevel sheet.css = statements ++ rest := by
    cases hsteps : tree.steps options with
    | zero =>
      rw [hsteps] at hlevels
      exact ⟨[], last, by simp, List.nodup_nil, hlast, hlevels⟩
    | succ steps =>
      refine ⟨tree.statements, blocks 0 ++ ((List.range steps).flatMap
        (fun level => blocks (level + 1)) ++ last), fun _ => isStatement_of_mem_statements,
        nodup_statements tree, ?_, ?_⟩
      · intro block hblock
        rcases List.mem_append.mp hblock with hblock | hblock
        · exact hblocks 0 block hblock
        rcases List.mem_append.mp hblock with hblock | hblock
        · obtain ⟨level, -, hblock⟩ := List.mem_flatMap.mp hblock
          exact hblocks _ block hblock
        · exact hlast block hblock
      · rw [hlevels, hsteps, List.range_succ_eq_map, List.flatMap_cons, List.flatMap_map]
        have hmodes (level : Nat) :
            (modesAfter options level (tree.modesOf options)).statements = [] := hnone level
        simp only [modesAfter, hmodes, List.nil_append, List.append_assoc]
  rw [hparts]
  exact ⟨pairwise_statements hstatements hrest,
    (filter_statements hstatements hrest).symm ▸ hnodup⟩

end Compile

/-- The statement stands below a selector, and a mode has a rule of its own. -/
theorem compile_topLevel_dark :
    ∃ sheet, compile (Options.empty.withMode "dark" ".dark")
        [("p", .tree [("color", .leaf (.text "red")), ("@layer", .leaf (.text "base")),
          ("@dark", .tree [("color", .leaf (.text "white"))])])] = .ok sheet ∧
      topLevel sheet.css = ["@layer base;", "p \x7b\n  color: red;\n\x7d",
        ".dark p \x7b\n  color: white;\n\x7d"] ∧
      (topLevel sheet.css).Pairwise (fun part other =>
        isStatement other = true → isStatement part = true) ∧
      ((topLevel sheet.css).filter isStatement).Nodup := by
  refine Except.exists_of_toOption_map (by decide +kernel) fun sheet hsheet _ => ?_
  refine (@compile_topLevel (Options.empty.withMode "dark" ".dark")
    ⟨by decide, by decide, by decide⟩ [("p", .tree [("color", .leaf (.text "red")),
      ("@layer", .leaf (.text "base")), ("@dark", .tree [("color", .leaf (.text "white"))])])]
    (by decide) sheet hsheet).2 fun level => ?_
  cases level with
  | zero => rfl
  | succ level => exact congrArg statements (modesAfter_nil _ level)

/-- The statement of a mode stands behind the rule of the tree, and it is there already. -/
theorem late_statement :
    ¬ ∀ (options : Options) (tree : StyleTree) (sheet : Stylesheet), options.IsFlat →
      options.IsUnbroken → tree.isUnbroken = true → tree.compile options = .ok sheet →
      (topLevel sheet.css).Pairwise (fun part other =>
        isStatement other = true → isStatement part = true) ∧
      ((topLevel sheet.css).filter isStatement).Nodup := by
  intro h
  obtain ⟨-, hnodup⟩ := h (Options.empty.withMode "dark" ".dark")
    [("p", .tree [("color", .leaf (.text "red"))]), ("@layer a", .leaf (.text "")),
      ("@dark", .tree [("@layer a", .leaf (.text ""))])] _ ⟨by decide, by decide⟩
    ⟨by decide, by decide, by decide⟩ (by decide) rfl
  exact absurd hnodup (by decide +kernel)

end StyleTree

end NestedStyles
