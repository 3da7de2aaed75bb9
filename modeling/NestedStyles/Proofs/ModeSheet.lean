import NestedStyles.Proofs.Hoisting
import NestedStyles.Proofs.KeyTargets
import NestedStyles.Proofs.ModeLeaves

/-!
# The stylesheet of a mode

A block of a mode, and nothing else, compiles to the rules that it has in its place in the tree,
each behind the selector of the mode (`StyleTree.compile_mode`). What stands under no selector in
its place, for some choice of alternatives, stands under the mode's selector itself.
-/

namespace NestedStyles

/-- A mode with one selector that is no reference, under a name that no at-rule has. -/
structure Options.IsMode (options : Options) (name selector : String) : Prop where
  /-- The table of the modes has it. -/
  found : options.modes.get? name = some selector
  /-- Its name is read as it is written. -/
  lead : Text.trimmedStart name = name
  notMedia : name ≠ "media"
  notLayer : Text.beginsWith "layer" name = false
  notContainer : Text.beginsWith "container" name = false
  single : ',' ∉ selector.toList
  notKey : Text.isAtKey selector = false
  /-- Its selector selects. -/
  selects : Selector.join [selector] ≠ ""

/-- A mode under a name that no at-rule has and that is read as it is written. -/
structure Options.NamesMode (options : Options) (name selector : String) : Prop where
  found : options.modes.get? name = some selector
  lead : Text.trimmedStart name = name
  notMedia : name ≠ "media"
  notLayer : Text.beginsWith "layer" name = false
  notContainer : Text.beginsWith "container" name = false

theorem Options.IsMode.named {options : Options} {name p : String} (h : options.IsMode name p) :
    options.NamesMode name p :=
  ⟨h.found, h.lead, h.notMedia, h.notLayer, h.notContainer⟩

/-! ## The visit to the block -/

section Mode

variable {options : Options} {name p : String} (hmode : options.NamesMode name p)

include hmode

/-- The block at the key of a mode is filed under the mode's selector. -/
theorem Collected.visit_mode (scope : List String) (found : Collected) (above : List String)
    (block : StyleTree) (habove : above.any Text.isAtKey = false)
    (hblock : StyleTree.reference? block = none) :
    Collected.visit options scope found ⟨above ++ ["@" ++ name], .tree block⟩ =
      .ok (found.mapBuckets (·.addMode p above block)) := by
  have hlayer : Text.beginsWith "@layer" ("@" ++ name) = false :=
    (beginsWith_at "layer" name).trans hmode.notLayer
  have hcontainer : Text.beginsWith "@container" ("@" ++ name) = false :=
    (beginsWith_at "container" name).trans hmode.notContainer
  have hpath : above ++ ["@" ++ name] ≠ ["@media"] := by
    intro h
    have hkey : "@" ++ name = "@" ++ "media" := by simpa using congrArg List.getLast? h
    have hchars := congrArg String.toList hkey
    rw [String.toList_append, String.toList_append] at hchars
    exact hmode.notMedia (String.toList_inj.mp (List.append_cancel_left hchars))
  have hleaf : (Node.tree block).isLeaf = false := Node.isLeaf_of_block hblock
  have hnode : (Node.tree block).block? = some block := Node.block?_of_block hblock
  have htarget : Target.ofKey? options ("@" ++ name) = some (.mode p) := by
    rw [Target.ofKey?, Target.name_at hmode.lead, hmode.found]
    rfl
  have hrole : (Visit.mk (above ++ ["@" ++ name]) (.tree block)).role = .reference := by
    simp [Visit.role, hleaf, hlayer, hcontainer, isAtKey_at, hpath]
  simp only [Collected.visit, Visit.inAtRule_mk, habove, hrole, fileReference, Visit.key_mk,
    Visit.parents_mk, hnode, htarget]
  rfl

end Mode

/-! ## Rules behind a selector -/

namespace RuleSet

/-- The rules stand behind a selector : each of them with its selector behind `p`, and the
declarations `own` under `p` itself. -/
structure IsBehind (p : String) (own : List Declared) (rules found : RuleSet) : Prop where
  others : found.filter (fun rule => rule.1 != p) =
    rules.map fun rule => (p ++ " " ++ rule.1, rule.2)
  own : found.get? p = if own = [] then none else some (Declared.declarations own)

/-- Declarations behind `p` leave the rules of the others, and what was under no selector under
`p`. -/
theorem isBehind_ofDeclared {p : String} (list : List Declared) :
    IsBehind p (Declared.under "" list)
      (ofDeclared (list.filter fun d => d.selector != ""))
      (ofDeclared (list.map (Declared.rename (Selector.behind p)))) := by
  have hself : Selector.behind p "" = p := if_pos rfl
  have hinj : ∀ a b, Selector.behind p a = Selector.behind p b → a = b :=
    fun _ _ => Selector.behind_inj
  have hiff (s : String) : (Selector.behind p s != p) = (s != "") := by
    rw [Bool.eq_iff_iff, bne_iff_ne, bne_iff_ne]
    exact not_congr ⟨fun h => hinj s "" (h.trans hself.symm), fun h => h ▸ hself⟩
  constructor
  · rw [ofDeclared_rename list hinj, ofDeclared_filter list (· != ""), List.filter_map]
    have hfilter : (fun rule : String × Declarations => rule.1 != p) ∘
        (fun rule : String × Declarations => (Selector.behind p rule.1, rule.2)) =
          fun rule => rule.1 != "" := by
      funext rule
      exact hiff rule.1
    rw [hfilter]
    refine List.map_congr_left fun rule hrule => ?_
    have hne : rule.1 ≠ "" := bne_iff_ne.mp (List.mem_filter.mp hrule).2
    rw [Selector.behind, if_neg hne]
  · have hunder := Declared.under_rename list hinj ""
    rw [hself] at hunder
    have hmem : p ∈ Declared.selectors (list.map (Declared.rename (Selector.behind p))) ↔
        Declared.under "" list ≠ [] := by
      rw [Declared.mem_selectors_iff_under, hunder]
      exact not_congr List.map_eq_nil_iff
    rw [get?_ofDeclared, hunder, declarations_rename]
    simp [hmem]

end RuleSet

namespace StyleTree

/-- The only block at an `@` key, below some selectors. -/
theorem hoisted_nest {segments : List String} (hsegments : segments.any Text.isAtKey = false)
    (key : String) (block : StyleTree) :
    Hoisted key block segments (nest segments [(key, .tree block)]) (nest segments []) := by
  induction segments with
  | nil => exact @Hoisted.here key block [] [] rfl rfl
  | cons segment segments ih =>
    rw [List.any_cons, Bool.or_eq_false_iff] at hsegments
    exact @Hoisted.inside key block segment segments [] _ _ [] rfl hsegments.1
      (reference?_nest (reference?_singleton key block) segments) (reference?_nest rfl segments)
      (ih hsegments.2) rfl

section Mode

variable {options : Options} {name p : String} {segments : List String} {block : StyleTree}

/-- A tree with a block of a mode only holds that block, below the mode's selector. -/
theorem collect_mode (hmode : options.NamesMode name p) (scope : List String)
    (hsegments : segments.any Text.isAtKey = false) (hblock : reference? block = none) :
    (nest segments [("@" ++ name, .tree block)]).collect options scope = .ok
      { Collected.empty with
        buckets := { Buckets.empty with
          modes := [(p, .tree (Buckets.descendantTree segments block))] } } := by
  have hempty : leavesBelow [] (nest segments []) = [] := by
    rw [leavesBelow_nest rfl, leavesBelow]
  rw [collect, walk_eq_foldlM]
  unfold visits
  rw [(hoisted_nest hsegments _ block).foldlM_visitsBelow rfl (isAtKey_at name) hblock
    (Collected.visit_mode hmode scope), hempty]
  rfl

/-- A tree that fills the bucket of the modes only compiles to what the bucket compiles to. -/
theorem compileWithin_of_modes {tree modes : StyleTree} (steps : Nat) {sheet : Stylesheet}
    (hauto : options.auto = none) (hmodes : modes ≠ [])
    (hfound : tree.collect options [] = .ok
      { Collected.empty with buckets := { Buckets.empty with modes := modes } })
    (hsheet : modes.compileWithin options steps [] false = .ok sheet) :
    ∃ diagnostics, tree.compileWithin options (steps + 1) [] true =
      .ok ⟨Layout.sections [sheet.css], diagnostics⟩ := by
  have hsome : modes.isEmpty = false := by simpa using hmodes
  have hnone (buckets : Buckets) : buckets.autoBuckets options = [] := by
    rw [Buckets.autoBuckets, hauto]
    rfl
  have hsections : Layout.sections ["", "", sheet.css] = Layout.sections [sheet.css] := by
    rw [Layout.sections_cons_empty, Layout.sections_cons_empty]
  refine ⟨sheet.diagnostics, ?_⟩
  rw [compileWithin, hfound]
  simp only [bind, Except.bind, hnone, hsome, hsheet]
  change Except.ok (Stylesheet.mk (Layout.sections ["", "", sheet.css])
    ([] ++ (sheet.diagnostics ++ []))) = _
  rw [hsections, List.append_nil, List.nil_append]

/-- The bucket of a mode is plain and its numbers are finite if the block is. -/
theorem bucket_mode (hp : Text.isAtKey p = false) (hplain : block.isPlain = true)
    (hfinite : block.isFinite = true) (hsegments : segments.any Text.isAtKey = false)
    (hmark : Markable segments block) :
    isPlain [(p, .tree (Buckets.descendantTree segments block))] = true ∧
      isFinite [(p, .tree (Buckets.descendantTree segments block))] = true := by
  have hinner : (Buckets.descendantTree segments block).isPlain = true := by
    refine every_descendantTree hplain hmark (fun key _ _ => ?_) (fun key hkey _ => ?_) hplain
    · rw [isAtKey_asDescendant]
      rfl
    · rw [Bool.not_eq_true', ← Bool.not_eq_true]
      exact List.any_eq_false.mp hsegments key hkey
  have hnumbers : (Buckets.descendantTree segments block).isFinite = true :=
    every_descendantTree hplain hmark (fun _ _ _ => rfl) (fun _ _ _ => rfl) hfinite
  constructor
  · rw [isPlain, every_cons, hp, nodeEvery]
    simpa using ⟨hinner, rfl⟩
  · rw [isFinite, every_cons, nodeEvery]
    simpa using ⟨⟨rfl, hnumbers⟩, rfl⟩

section Rules

variable (hmode : options.IsMode name p) (hauto : options.auto = none)
  (hsegments : segments.any Text.isAtKey = false) (hplain : block.isPlain = true)
  (hfinite : block.isFinite = true) (hblock : reference? block = none)
  (hmark : Markable segments block)

include hmode hauto hsegments hplain hfinite hblock hmark

/-- A block of a mode compiles to what it declares for every choice of alternatives, behind the
mode's selector. -/
theorem compile_mode_bucket :
    ∃ filed mode sheet,
      (nest segments [("@" ++ name, .tree block)]).collect options [] = .ok filed ∧
      filed.buckets.modes.collect options [] = .ok mode ∧
      mode.rules = RuleSet.ofDeclared ((nest segments block).allDeclared.map
        (Declared.rename (Selector.behind (Selector.join [p])))) ∧
      (nest segments [("@" ++ name, .tree block)]).compile options = .ok sheet ∧
      sheet.css = mode.rules.css := by
  obtain ⟨hbucketplain, hbucketfinite⟩ := bucket_mode hmode.notKey hplain hfinite hsegments hmark
  obtain ⟨mode, hcollect, hrules, hbuckets⟩ := collect_plain options [] hbucketplain hbucketfinite
  have hfiled := collect_mode hmode.named [] hsegments hblock
  obtain ⟨steps, hsteps⟩ := steps_eq_add_two options (nest segments [("@" ++ name, .tree block)])
  have hinner := compileWithin_of_no_buckets options steps false hcollect hbuckets
  obtain ⟨diagnostics, houter⟩ :=
    compileWithin_of_modes (steps + 1) hauto (List.cons_ne_nil _ _) hfiled hinner
  have hcss : (Stylesheet.assemble mode []).css = mode.rules.css := css_assemble hrules hbuckets
  have hsections : Layout.sections [mode.rules.css] = mode.rules.css := by
    rw [← Layout.sections_cons_empty, hrules]
    exact Layout.sections_css fun d hd => startsVisibly_of_mem_flatMap hd
  refine ⟨_, mode, ⟨mode.rules.css, diagnostics.eraseDupsBy Diagnostic.same⟩, hfiled, hcollect,
    ?_, ?_, rfl⟩
  · rw [hrules, declared_mode hplain hblock hmark hmode.single hmode.selects]
  · rw [compile, hsteps, houter, hcss, hsections]
    rfl

/-- A block of a mode compiles to its rules in its place in the tree, each behind the mode's
selector, and to what it declares there under no selector, under the mode's selector itself. -/
theorem compile_mode :
    ∃ filed mode sheet found plain,
      (nest segments [("@" ++ name, .tree block)]).collect options [] = .ok filed ∧
      filed.buckets.modes.collect options [] = .ok mode ∧
      (nest segments [("@" ++ name, .tree block)]).compile options = .ok sheet ∧
      sheet.css = mode.rules.css ∧
      (nest segments block).collect options [] = .ok found ∧
      (nest segments block).compile options = .ok plain ∧
      plain.css = found.rules.css ∧
      RuleSet.IsBehind (Selector.join [p]) (Declared.under "" (nest segments block).allDeclared)
        found.rules mode.rules := by
  obtain ⟨filed, mode, sheet, hfiled, hcollect, hrules, hsheet, hcss⟩ :=
    compile_mode_bucket hmode hauto hsegments hplain hfinite hblock hmark
  have hnestplain : (nest segments block).isPlain = true := isPlain_nest hsegments hplain
  have hnestfinite : (nest segments block).isFinite = true := isFinite_nest segments hfinite
  obtain ⟨found, hfound, hfoundrules, -⟩ := collect_plain options [] hnestplain hnestfinite
  obtain ⟨plain, hcompile, hplaincss⟩ := compile_eq_css options hnestplain hnestfinite
  refine ⟨filed, mode, sheet, found, plain, hfiled, hcollect, hsheet, hcss, hfound, hcompile,
    hfoundrules ▸ hplaincss, ?_⟩
  rw [hrules, hfoundrules, declared_eq_filter]
  exact RuleSet.isBehind_ofDeclared _

end Rules

end Mode

/-- The first key that is not blank is marked for each of its choices, and the choice of nothing
leaves the declarations next to it under the selector of the mode. -/
theorem compile_mode_choices :
    ∃ sheet mode,
      (nest [" ", "card, _"] [("@dark", .tree [("color", .leaf (.text "red")),
        ("title", .tree [("color", .leaf (.text "blue"))])])]).compile
          (Options.empty.withMode "dark" ".dark") = .ok sheet ∧
      sheet.css = RuleSet.css mode ∧
      mode.filter (fun rule => rule.1 != ".dark") =
        [(".dark .card", [("color", "red")]), (".dark .card title", [("color", "blue")]),
          (".dark title", [("color", "blue")])] ∧
      mode.get? ".dark" = some [("color", "red")] := by
  obtain ⟨_, mode, sheet, found, _, -, -, hsheet, hcss, hfound, -, -, hbehind⟩ :=
    @compile_mode (Options.empty.withMode "dark" ".dark") "dark" ".dark" [" ", "card, _"]
      [("color", .leaf (.text "red")), ("title", .tree [("color", .leaf (.text "blue"))])]
      ⟨rfl, by decide, by decide, by decide, by decide, by decide, by decide, by decide⟩ rfl
      (by decide) (by decide) (by decide) (by decide) ⟨by decide, fun h => absurd h (by decide)⟩
  obtain rfl := Except.ok.inj hfound
  exact ⟨sheet, mode.rules, hsheet, hcss, hbehind.others.trans (by decide),
    hbehind.own.trans (by decide)⟩

/-- A declaration that has a selector in its place may stand under the mode's selector as well: here
it is chosen to have none. -/
theorem mode_of_nothing_chosen :
    ¬ ∀ (options : Options) (name p : String) (segments : List String) (block : StyleTree)
      (filed mode : Collected), options.IsMode name p → options.auto = none →
      segments.any Text.isAtKey = false → block.isPlain = true → block.isFinite = true →
      reference? block = none →
      (nest segments [("@" ++ name, .tree block)]).collect options [] = .ok filed →
      filed.buckets.modes.collect options [] = .ok mode →
      (∀ leaf ∈ (nest segments block).leaves, Selector.ofPath leaf.parents ≠ []) →
      mode.rules.get? (Selector.join [p]) = none := by
  intro h
  have hnone := h (Options.empty.withMode "dark" ".dark") "dark" ".dark" ["_, card"]
    [("color", .leaf (.text "red"))] _ _
    ⟨rfl, by decide, by decide, by decide, by decide, by decide, by decide, by decide⟩ rfl
    (by decide) (by decide) (by decide) (by decide) rfl rfl (by decide)
  exact absurd hnone (by decide)

end StyleTree

end NestedStyles
