import NestedStyles.Proofs.Leaves
import NestedStyles.Proofs.Results
import NestedStyles.Proofs.SelectorText
import NestedStyles.Stylesheet

/-!
# Stylesheets of plain trees

A tree without at-rules fills no bucket, so its stylesheet is the text of its rule set
(`StyleTree.compileWithin_of_no_buckets`), which joining the sections leaves as it is
(`Layout.sections_css`). With finite numbers the stylesheet lists the declarations of the leaves,
one block for each selector, and nothing else (`StyleTree.compile_of_isPlain`).
-/

namespace NestedStyles

open Text

/-! ## The text of a rule set is trimmed -/

/-- The block of a selector is visible if the selector is. -/
theorem Declared.isVisible_block (list : List Declared) {s : String} (hne : s ≠ "")
    (hs : StartsVisibly s.toList) : IsVisible (Declared.block list s) := by
  have hlist : s.toList ≠ [] := mt String.toList_eq_nil_iff.mp hne
  refine ⟨fun h => ?_, ?_, ?_⟩
  · have := congrArg String.toList h
    simp [Declared.block, hne] at this
  · rw [Declared.block, String.toList_append, String.toList_append, String.toList_append,
      List.append_assoc, List.append_assoc]
    exact hs.append hlist _
  · rw [Declared.block, String.toList_append]
    have hbrace : EndsVisibly "\x7d".toList := endsVisibly_singleton.mpr (by decide)
    exact hbrace.append (by decide) _

section Text

variable {list : List Declared}
  (h : ∀ d ∈ list, d.selector ≠ "" ∧ StartsVisibly d.selector.toList)

include h

/-- The text of a rule set with declarations is visible. -/
theorem RuleSet.isVisible_css (hne : list ≠ []) : IsVisible (RuleSet.ofDeclared list).css := by
  obtain ⟨d, hd⟩ := List.exists_mem_of_ne_nil list hne
  have hselectors : Declared.selectors list ≠ [] :=
    List.ne_nil_of_mem ((Declared.mem_selectors list).mpr ⟨d, hd, rfl⟩)
  rw [RuleSet.css_ofDeclared]
  refine intercalate_of (fun hfront hback => hfront.append hback _) (by simpa using hselectors)
    fun text htext => ?_
  obtain ⟨s, hs, rfl⟩ := List.mem_map.mp htext
  obtain ⟨d, hd, rfl⟩ := (Declared.mem_selectors list).mp hs
  exact Declared.isVisible_block list (h d hd).1 (h d hd).2

/-- The text of a rule set is trimmed. -/
theorem RuleSet.trimmed_css :
    trimmed (RuleSet.ofDeclared list).css = (RuleSet.ofDeclared list).css := by
  by_cases hnil : list = []
  · rw [hnil]
    decide
  · exact (RuleSet.isVisible_css h hnil).trimmed

/-- The text of a rule set stands in a stylesheet as it is. -/
theorem Layout.sections_css :
    sections ["", (RuleSet.ofDeclared list).css] = (RuleSet.ofDeclared list).css := by
  rw [sections_cons_empty]
  exact sections_singleton (RuleSet.trimmed_css h)

end Text

/-! ## Trees without buckets -/

theorem Buckets.autoBuckets_empty (options : Options) : Buckets.empty.autoBuckets options = [] := by
  have hnone (mode : String) :
      (options.modes.get? mode).bind Buckets.empty.modeContent? = none := by
    cases options.modes.get? mode <;> rfl
  unfold Buckets.autoBuckets
  simp only [hnone]
  induction options.auto.getD [] with
  | nil => rfl
  | cons entry rest ih => exact ih

namespace StyleTree

variable (options : Options) {scope : List String} {tree : StyleTree}

/-- A tree that fills no bucket compiles to its rule set. -/
theorem compileWithin_of_no_buckets (steps : Nat) (auto : Bool) {found : Collected}
    (hfound : tree.collect options scope = .ok found) (hbuckets : found.buckets = .empty) :
    tree.compileWithin options (steps + 1) scope auto = .ok (Stylesheet.assemble found []) := by
  have hauto : (if auto then found.buckets.autoBuckets options else []) = [] := by
    rw [hbuckets, Buckets.autoBuckets_empty]
    cases auto <;> rfl
  rw [compileWithin, hfound]
  simp only [hauto, bind, Except.bind]
  rw [hbuckets]
  rfl

/-- There are steps for a tree and for its modes. -/
theorem steps_eq_add_two (tree : StyleTree) : ∃ steps, tree.steps options = steps + 2 := by
  refine ⟨tree.atDepth * (options.modes.length + 3) + options.modes.length + 1, ?_⟩
  rw [steps, Nat.succ_mul]
  omega

/-- The selectors of declarations are not empty and begin with a visible character. -/
theorem startsVisibly_of_mem_flatMap {leaves : List Leaf} {d : Declared}
    (h : d ∈ leaves.flatMap Leaf.declared) : d.selector ≠ "" ∧ StartsVisibly d.selector.toList := by
  obtain ⟨leaf, -, hleaf⟩ := List.mem_flatMap.mp h
  exact Selector.startsVisibly_of_mem_ofPath (Leaf.mem_declared.mp hleaf).2.2

/-- Without buckets the stylesheet is the text of the rules. -/
theorem css_assemble {found : Collected} (hrules : found.rules = RuleSet.ofDeclared tree.declared)
    (hbuckets : found.buckets = .empty) :
    (Stylesheet.assemble found []).css = found.rules.css := by
  simp only [Stylesheet.assemble, hrules, hbuckets]
  exact Layout.sections_css fun d hd => startsVisibly_of_mem_flatMap hd

/-- In any number of steps a plain tree with finite numbers compiles to the text of the rule set
that its declarations leave. -/
theorem css_compileWithin_of_isPlain (hplain : tree.isPlain = true) (hfinite : tree.isFinite = true)
    (steps : Nat) (scope : List String) (auto : Bool) :
    (tree.compileWithin options (steps + 1) scope auto).map Stylesheet.css =
      .ok (RuleSet.ofDeclared tree.declared).css := by
  obtain ⟨found, hfound, hrules, hbuckets⟩ := collect_plain options scope hplain hfinite
  rw [compileWithin_of_no_buckets options steps auto hfound hbuckets, ← hrules]
  exact congrArg Except.ok (css_assemble hrules hbuckets)

/-- The CSS of a tree is that of its steps. -/
theorem css_compile (tree : StyleTree) : (tree.compile options).map Stylesheet.css =
    (tree.compileWithin options (tree.steps options) [] true).map Stylesheet.css := by
  rw [compile]
  cases tree.compileWithin options (tree.steps options) [] true <;> rfl

/-- A plain tree with finite numbers compiles to the text of the rule set that its declarations
leave. -/
theorem compile_eq_css (hplain : tree.isPlain = true) (hfinite : tree.isFinite = true) :
    ∃ sheet, tree.compile options = .ok sheet ∧
      sheet.css = (RuleSet.ofDeclared tree.declared).css := by
  obtain ⟨steps, hsteps⟩ := steps_eq_add_two options tree
  have hcss := css_compile options tree
  rw [hsteps, css_compileWithin_of_isPlain options hplain hfinite] at hcss
  exact Except.exists_of_map_ok hcss

/-- The stylesheet of a plain tree with finite numbers : one block for each selector of its
declarations in the order of first occurrence, with one blank line between two blocks. -/
theorem compile_of_isPlain (hplain : tree.isPlain = true) (hfinite : tree.isFinite = true) :
    ∃ sheet, tree.compile options = .ok sheet ∧
      sheet.css = "\n\n".intercalate
        ((Declared.selectors tree.declared).map (Declared.block tree.declared)) := by
  rw [← RuleSet.css_ofDeclared]
  exact compile_eq_css options hplain hfinite

/-- Two keys that spell one selector share a block, and the later value stands in the place of the
earlier one. -/
theorem compile_of_isPlain_shared_block :
    ∃ sheet, compile .empty
        [("p, li", .tree [("color", .leaf (.text "red")), ("fontSize", .leaf (.text "1em"))]),
          (" p", .tree [("color", .leaf (.text "blue")), ("content", .leaf .null)])] = .ok sheet ∧
      sheet.css = "p \x7b\n  color: blue;\n  font-size: 1em;\n  content: none;\n\x7d\n\n" ++
        "li \x7b\n  color: red;\n  font-size: 1em;\n\x7d" := by
  obtain ⟨sheet, hsheet, hcss⟩ := @compile_of_isPlain .empty
    [("p, li", .tree [("color", .leaf (.text "red")), ("fontSize", .leaf (.text "1em"))]),
      (" p", .tree [("color", .leaf (.text "blue")), ("content", .leaf .null)])]
    (by decide) (by decide)
  exact ⟨sheet, hsheet, hcss.trans (by decide +kernel)⟩

end StyleTree

end NestedStyles
