import NestedStyles.Proofs.Parts
import NestedStyles.Proofs.ShownLines
import NestedStyles.Proofs.ThemeLeaves
import NestedStyles.Proofs.UrlQuotes

/-!
# Texts of values

A theme and a stylesheet show the value of a leaf on a line of its own. The theme gives it as it
is in CSS, and a rule of the stylesheet doubles the quotes of the URLs in it, wherever the tree of
the rule stands in the stylesheet (`StyleTree.shows_of_isLevel`). So the two texts differ exactly if
the value holds a URL in single quotes (`Value.gives_css`).
-/

namespace NestedStyles

open Layout Text

/-! ## Rules -/

namespace RuleSet

theorem shows_line (declaration : String × String) : Shows (Declarations.line declaration)
    (declaration.1 ++ ": " ++ Url.requote declaration.2 ++ ";") := by
  have hindent : (Declarations.line declaration).toList =
      ' ' :: ' ' :: (declaration.1 ++ ": " ++ Url.requote declaration.2 ++ ";").toList := by
    simp [Declarations.line]
  rw [Shows, hindent, shown_cons_space (by decide), shown_cons_space (by decide)]

theorem shows_rule {rule : String × Declarations} {declaration : String × String}
    (h : declaration ∈ rule.2) : Shows (RuleSet.rule rule)
      (declaration.1 ++ ": " ++ Url.requote declaration.2 ++ ";") := by
  rw [RuleSet.rule]
  exact (shows_row (List.mem_append_left _ (List.mem_cons_of_mem _ (List.mem_map_of_mem h)))).trans
    (shows_line declaration)

/-- A rule set shows each of its declarations. -/
theorem shows_css {rules : RuleSet} {s p value : String} (h : rules.value? s p = some value) :
    Shows rules.css (p ++ ": " ++ Url.requote value ++ ";") := by
  obtain ⟨declarations, hrule, hvalue⟩ := Option.bind_eq_some_iff.mp h
  have hmem := Entries.mem_of_get? hvalue
  have hfull : (s, declarations) ∈ rules.filter fun rule => !rule.2.isEmpty :=
    List.mem_filter.mpr ⟨Entries.mem_of_get? hrule, by simp [List.ne_nil_of_mem hmem]⟩
  have hshows : Shows rules.css (RuleSet.rule (s, declarations)) := by
    rw [RuleSet.css]
    exact shows_gap (List.mem_map_of_mem hfull)
  exact hshows.trans (@shows_rule (s, declarations) (p, value) hmem)

end RuleSet

/-! ## Levels of a stylesheet -/

theorem Part.shows_placeCss (part : Part) (css : String) : Shows (part.placeCss css) css := by
  unfold placeCss
  split
  · split
    · next hempty => exact hempty ▸ List.infix_rfl
    · exact shows_block _ _
  · exact List.infix_rfl

/-- A stylesheet shows the rules that were found and the stylesheets of the parts. -/
theorem Stylesheet.shows_assemble {found : Collected} {sheets : List Stylesheet} {css : String}
    (h : css ∈ found.rules.css :: sheets.map Stylesheet.css) :
    Shows (assemble found sheets).css css := by
  dsimp only [assemble]
  exact shows_section (List.mem_cons_of_mem _ h)

namespace StyleTree

/-- A tree is compiled on the way to the stylesheet of another one: it is that tree, or it is
compiled on the way to one of its parts. -/
inductive IsLevel (options : Options) (level : StyleTree) : List String → Bool → StyleTree → Prop
  | here (scope : List String) (auto : Bool) : IsLevel options level scope auto level
  | part {scope : List String} {auto : Bool} {tree : StyleTree} {found : Collected} {part : Part}
      (hfound : tree.collect options scope = .ok found) (hpart : part ∈ found.parts options auto)
      (h : IsLevel options level (scope ++ part.header?.toList) part.auto part.tree) :
      IsLevel options level scope auto tree

variable {options : Options}

/-- A stylesheet shows the rules of every level of it. -/
theorem shows_of_isLevel {level tree : StyleTree} {scope : List String} {auto : Bool}
    (h : IsLevel options level scope auto tree) {steps : Nat} {sheet : Stylesheet}
    (hsheet : tree.compileWithin options steps scope auto = .ok sheet) :
    Shows sheet.css (RuleSet.ofDeclared (level.ownLeaves.flatMap Leaf.declared)).css := by
  induction h generalizing steps sheet with
  | here scope auto =>
    cases steps with
    | zero => exact absurd hsheet (by simp [compileWithin])
    | succ steps =>
      obtain ⟨found, sheets, hfound, -, rfl⟩ := exists_of_compileWithin options steps auto hsheet
      rw [← (Collected.holds_collect hfound).rules]
      exact Stylesheet.shows_assemble List.mem_cons_self
  | @part scope auto tree found part hfound hpart h ih =>
    cases steps with
    | zero => exact absurd hsheet (by simp [compileWithin])
    | succ steps =>
      obtain ⟨other, sheets, hother, hsheets, rfl⟩ :=
        exists_of_compileWithin options steps auto hsheet
      obtain rfl := Except.ok.inj (hfound.symm.trans hother)
      obtain ⟨placed, hplaced, hcompile⟩ := exists_of_mapM_ok hsheets hpart
      obtain ⟨inner, hinner, rfl⟩ := Except.exists_of_map_ok hcompile
      have hsection : Shows (Stylesheet.assemble found sheets).css (part.place inner).css :=
        Stylesheet.shows_assemble (List.mem_cons_of_mem _ (List.mem_map_of_mem hplaced))
      rw [Part.css_place] at hsection
      exact (hsection.trans (part.shows_placeCss inner.css)).trans (ih hinner)

end StyleTree

/-! ## Leaves that are declared last -/

namespace Declared

/-- A declaration that no later one takes back gives the value. -/
theorem last?_under_append {front middle back : List Declared} {s p value : String}
    (hmem : ⟨s, p, value⟩ ∈ middle) (hmiddle : ∀ d ∈ middle, d.value = value)
    (hback : ∀ d ∈ back, d.selector = s → d.property ≠ p) :
    last? p (under s (front ++ (middle ++ back))) = some value := by
  have hnil : (under s back).filter (·.property = p) = [] := by
    rw [under, List.filter_filter, List.filter_eq_nil_iff]
    intro d hd
    simpa [and_comm] using hback d hd
  have hne : (under s middle).filter (·.property = p) ≠ [] :=
    List.ne_nil_of_mem (List.mem_filter.mpr ⟨List.mem_filter.mpr ⟨hmem, by simp⟩, by simp⟩)
  obtain ⟨last, hlast⟩ := Option.ne_none_iff_exists'.mp (mt List.getLast?_eq_none_iff.mp hne)
  have hvalue : last.value = value :=
    hmiddle last (List.mem_filter.mp (List.mem_filter.mp (List.mem_of_getLast? hlast)).1).1
  rw [under, List.filter_append, List.filter_append, ← under, ← under, ← under, last?,
    List.filter_append, List.filter_append, hnil, List.append_nil, List.getLast?_append, hlast,
    Option.some_or, Option.map_some, hvalue]

end Declared

namespace StyleTree

/-- A leaf that no later leaf of its tree takes back gives its property the value. -/
theorem value?_of_last {tree : StyleTree} {before after : List Leaf} {leaf : Leaf}
    (hleaves : tree.ownLeaves = before ++ leaf :: after) {css s : String}
    (hcss : leaf.value.written? leaf.property = some css) (hs : s ∈ Selector.ofPath leaf.parents)
    (hlast : ∀ other ∈ after, ∀ d ∈ other.declared, d.selector = s → d.property ≠ leaf.property) :
    (RuleSet.ofDeclared (tree.ownLeaves.flatMap Leaf.declared)).value? s leaf.property =
      some css := by
  rw [RuleSet.value?_ofDeclared, hleaves, List.flatMap_append, List.flatMap_cons]
  refine Declared.last?_under_append (Leaf.mem_declared.mpr ⟨hcss, rfl, hs⟩) (fun d hd => ?_)
    fun d hd => ?_
  · exact Option.some.inj ((Leaf.mem_declared.mp hd).1.symm.trans hcss)
  · obtain ⟨other, hother, hd⟩ := List.mem_flatMap.mp hd
    exact hlast other hother d hd

end StyleTree

/-! ## Texts of a value -/

namespace CustomProperties

/-- A theme with finite numbers shows each of its leaves that is not null. -/
theorem shows_rule (selector : String) {theme : StyleTree}
    (hfinite : ∀ leaf ∈ theme.leaves, leaf.value.isFinite = true) {leaf : Leaf}
    (hleaf : leaf ∈ theme.leaves) {css : String} (hcss : leaf.value.css? = some css) :
    ∃ properties, ofTheme none theme = .ok properties ∧
      Shows (rule selector properties) (name leaf.path ++ ": " ++ css ++ ";") := by
  have hne : leaf.value ≠ .null := fun hnull => by simp [hnull, Value.css?] at hcss
  have hmem : (name leaf.path, css) ∈
      (theme.leaves.filter (·.value ≠ .null)).map (ofLeaf []) :=
    List.mem_map.mpr ⟨leaf, List.mem_filter.mpr ⟨hleaf, by simpa using hne⟩, by
      rw [ofLeaf, hcss]; rfl⟩
  refine ⟨_, (ofEntries_eq_ofLeaves [] theme).trans (ofLeaves_of_finite hfinite), ?_⟩
  rw [rule, if_neg (by simpa using List.ne_nil_of_mem hmem)]
  refine (shows_block selector _).trans ?_
  rw [lines]
  exact shows_row (List.mem_map.mpr ⟨_, hmem, rfl⟩)

end CustomProperties

/-- A leaf that is not null is given in two texts, each on one line if its value has no line feed.
A theme gives the custom property at its path the value as it is in CSS. A stylesheet, at any level
where the leaf is the last of its property for a selector, gives the property the value with the
quotes of its URLs doubled. The texts are the same exactly if no URL in single quotes is in it. -/
theorem Value.gives_css {value : Value} {css : String} (hcss : value.css? = some css)
    (hline : '\n' ∉ css.toList) :
    (∀ (selector : String) (theme : StyleTree), ∀ leaf ∈ theme.leaves, leaf.value = value →
        (∀ other ∈ theme.leaves, other.value.isFinite = true) →
        ∃ properties, CustomProperties.ofTheme none theme = .ok properties ∧
          Gives (CustomProperties.rule selector properties) (CustomProperties.name leaf.path)
            css) ∧
      (∀ (options : Options) (tree : StyleTree) (sheet : Stylesheet),
        tree.compile options = .ok sheet → ∀ level, StyleTree.IsLevel options level [] true tree →
          ∀ before leaf after, level.ownLeaves = before ++ leaf :: after → leaf.value = value →
            leaf.property ≠ "content" → ∀ s ∈ Selector.ofPath leaf.parents,
              (∀ other ∈ after, ∀ d ∈ other.declared,
                d.selector = s → d.property ≠ leaf.property) →
              Gives sheet.css leaf.property (Url.requote css)) ∧
      (Url.requote css = css ↔ ¬ Url.Holds css.toList) := by
  refine ⟨?_, ?_, ?_⟩
  · intro selector theme leaf hleaf hvalue hfinite
    obtain ⟨properties, hproperties, hshows⟩ :=
      CustomProperties.shows_rule selector hfinite hleaf (hvalue ▸ hcss)
    exact ⟨properties, hproperties, hshows.gives hline⟩
  · intro options tree sheet hsheet level hlevel before leaf after hleaves hvalue hproperty s hs
      hlast
    obtain ⟨inner, hinner, hsheet⟩ := Except.exists_of_bind_ok hsheet
    obtain rfl := Except.ok.inj hsheet
    have hwritten : leaf.value.written? leaf.property = some css := by
      rw [Value.written?, if_neg hproperty, hvalue, hcss]
    have hshows := (StyleTree.shows_of_isLevel hlevel hinner).trans
      (RuleSet.shows_css (StyleTree.value?_of_last hleaves hwritten hs hlast))
    exact hshows.gives ((Url.doubled_requote css).not_mem (by decide) hline)
  · rw [← Url.requoteFrom_eq_self, Url.requote]
    constructor
    · intro h
      simpa using congrArg String.toList h
    · intro h
      rw [h, String.ofList_toList]

/-- A URL in single quotes, of data with single quotes in it. -/
def inlined : Value := .text "url('data:,<i a='b'/>')"

/-- A theme with the URL. -/
def inlinedTheme : StyleTree := [("brand", .tree [("logo_s", .leaf inlined)])]

/-- A rule with the URL. -/
def inlinedRule : StyleTree := [("nav", .tree [("background", .leaf inlined)])]

theorem Value.gives_css_inlined : ∃ properties sheet,
    CustomProperties.ofTheme none inlinedTheme = .ok properties ∧
      StyleTree.compile (Options.empty.withQuery "phone" "(q)") [("@phone", .tree inlinedRule)] =
        .ok sheet ∧
      Gives (CustomProperties.rule ":root" properties) "--brand-logo-s" "url('data:,<i a='b'/>')" ∧
      Gives sheet.css "background" "url(\x22data:,<i a='b'/>\x22)" := by
  obtain ⟨htheme, hsheet, -⟩ := @Value.gives_css inlined _ rfl (by decide)
  obtain ⟨properties, hproperties, hproperty⟩ :=
    htheme ":root" inlinedTheme ⟨["brand"], "logo_s", inlined⟩ (List.mem_singleton.mpr rfl) rfl
      (by decide)
  obtain ⟨sheet, hcompile⟩ : ∃ sheet, StyleTree.compile (Options.empty.withQuery "phone" "(q)")
      [("@phone", .tree inlinedRule)] = .ok sheet := ⟨_, rfl⟩
  have hlevel : StyleTree.IsLevel (Options.empty.withQuery "phone" "(q)") inlinedRule [] true
      [("@phone", .tree inlinedRule)] :=
    .part rfl (List.mem_singleton.mpr rfl) (.here _ _)
  refine ⟨properties, sheet, hproperties, hcompile, hproperty, ?_⟩
  exact hsheet _ _ sheet hcompile _ hlevel [] ⟨["nav"], "background", inlined⟩ [] rfl rfl
    (by decide) "nav" (by decide) (by simp)

/-- The URL is given in single quotes in a theme and in double quotes in a stylesheet. -/
theorem Value.inlined_requoted : ∃ block sheet,
    (CustomProperties.ofTheme none inlinedTheme).map (CustomProperties.rule ":root") = .ok block ∧
      StyleTree.compile .empty inlinedRule = .ok sheet ∧
      Gives block "--brand-logo-s" "url('data:,<i a='b'/>')" ∧
      ¬ Gives sheet.css "background" "url('data:,<i a='b'/>')" ∧
      Gives sheet.css "background" "url(\x22data:,<i a='b'/>\x22)" :=
  ⟨_, _, rfl, rfl, by decide +kernel, by decide +kernel, by decide +kernel⟩

end NestedStyles
