import NestedStyles.Proofs.Failures

/-!
# Options without automatic modes

An automatic mode gives the rules of a mode once more, and what is found on the way was reported for
the mode. So a tree reports the same with the automatic modes and without them, and its CSS is the
same if none of its keys refers to a mode that is automatic (`StyleTree.compile_withoutAuto`). Both
runs walk the same trees, part by part, but for the automatic parts at the end of each level
(`Collected.parts_eq_append`), which are silent.
-/

namespace NestedStyles

namespace Options

/-- The options without automatic modes. -/
def withoutAuto (options : Options) : Options := { options with auto := none }

/-- The selector is that of a mode that is automatic. -/
def isAutomatic (options : Options) (selector : String) : Bool :=
  (options.auto.getD []).any fun entry => options.modes.get? entry.1 == some selector

end Options

/-- The key refers to a mode that is automatic. -/
def Target.isAutomatic (options : Options) (key : String) : Bool :=
  Text.isAtKey key &&
    match ofKey? options key with
    | some (.mode selector) => options.isAutomatic selector
    | _ => false

theorem Target.isAutomatic_of_plain {options : Options} {key : String}
    (h : Text.isAtKey key = false) : isAutomatic options key = false := by
  rw [isAutomatic, h]
  rfl

namespace StyleTree

/-- No key of the tree refers to a mode that is automatic. -/
def usesNoAutomatic (options : Options) (tree : StyleTree) : Bool :=
  every (fun key _ => !Target.isAutomatic options key) tree

/-- The keys of a tree that refer to no automatic mode pass to its parts. -/
theorem passes_usesNoAutomatic {options : Options} (hflat : options.IsFlat) :
    Passes options (fun key _ => !Target.isAutomatic options key)
      (fun key _ => !Target.isAutomatic options key) where
  root := id
  mapRoot := id
  map := id
  marked _ _ := by rw [Target.isAutomatic_of_plain (isAtKey_asDescendant _)]; rfl
  blank _ := id
  mode hname _ := by
    rw [Target.isAutomatic_of_plain (hflat.modes _ (Entries.mem_of_get? hname))]; rfl
  auto entry hentry _ := by rw [Target.isAutomatic_of_plain (hflat.auto entry hentry)]; rfl

end StyleTree

/-! ## The automatic parts -/

namespace Collected

section Parts

variable (options : Options) (auto : Bool) (found : Collected)

/-- The parts of the automatic modes. -/
def autoParts : List Part :=
  (if auto then found.buckets.autoBuckets options else []).map fun entry =>
    ⟨some ("@media " ++ entry.1), false, true, entry.2⟩

/-- The automatic parts come last, behind those that there are without automatic modes. -/
theorem parts_eq_append :
    found.parts options auto =
      found.parts options.withoutAuto auto ++ found.autoParts options auto := by
  have hnone : found.buckets.autoBuckets options.withoutAuto = [] := rfl
  simp only [parts, autoParts, hnone, ite_self, List.map_nil, List.append_nil]

end Parts

variable {options : Options} {auto : Bool} {tree : StyleTree} {found : Collected}

theorem silent_of_mem_autoParts {part : Part} (h : part ∈ found.autoParts options auto) :
    part.silent = true := by
  obtain ⟨entry, -, rfl⟩ := List.mem_map.mp h
  rfl

/-- A tree whose keys refer to no automatic mode has no automatic parts. -/
theorem autoParts_eq_nil (hholds : Holds options tree found)
    (h : tree.usesNoAutomatic options = true) : found.autoParts options auto = [] := by
  have hmodes (selector : String) (node : Node) (hmem : (selector, node) ∈ found.buckets.modes) :
      options.isAutomatic selector = false := by
    rw [hholds.modes] at hmem
    obtain ⟨filing, hfiling, rfl⟩ := StyleTree.exists_modeFiling_of_mem hmem
    obtain ⟨visit, hvisit, hvisited⟩ := List.mem_filterMap.mp hfiling
    obtain ⟨-, -, hkey, -, -, htarget⟩ := Visit.modeFiling?_eq_some hvisited
    have hself := (StyleTree.every_of_mem_visitsBelow h hvisit).1
    simpa [Target.isAutomatic, hkey, htarget] using hself
  have hbuckets : found.buckets.autoBuckets options = [] := by
    rw [Buckets.autoBuckets_eq_foldl, List.filterMap_eq_nil_iff.mpr fun entry hentry => ?_]
    · rfl
    rw [Buckets.autoBucket?, Option.map_eq_none_iff, Option.bind_eq_none_iff]
    intro selector hselector
    refine Option.eq_none_iff_forall_ne_some.mpr fun content hcontent => ?_
    have hautomatic : options.isAutomatic selector = true :=
      List.any_eq_true.mpr ⟨entry, hentry, beq_iff_eq.mpr hselector⟩
    have hnot := hmodes _ _ (Entries.mem_of_get? (Buckets.get?_of_modeContent? hcontent))
    exact absurd (hautomatic.symm.trans hnot) (by simp)
  rw [autoParts, hbuckets, ite_self, List.map_nil]

end Collected

/-! ## Both runs -/

/-- Both runs end with a stylesheet, the two report the same, and they have the same CSS if the
condition holds. -/
def BothCompile (condition : Prop) (a b : Except CompileError Stylesheet) : Prop :=
  ∃ sheet other, a = .ok sheet ∧ b = .ok other ∧ sheet.diagnostics = other.diagnostics ∧
    (condition → sheet.css = other.css)

namespace BothCompile

variable {condition : Prop}

theorem imp {stronger : Prop} {a b : Except CompileError Stylesheet}
    (h : BothCompile condition a b) (hcondition : stronger → condition) :
    BothCompile stronger a b := by
  obtain ⟨sheet, other, ha, hb, hreports, hcss⟩ := h
  exact ⟨sheet, other, ha, hb, hreports, fun hstronger => hcss (hcondition hstronger)⟩

/-- What holds of the stylesheets of a part holds of them in its block. -/
theorem place {a b : Except CompileError Stylesheet} (h : BothCompile condition a b)
    (part : Part) : BothCompile condition (a.map part.place) (b.map part.place) := by
  obtain ⟨sheet, other, rfl, rfl, hreports, hcss⟩ := h
  refine ⟨_, _, rfl, rfl, ?_, fun hcondition => ?_⟩
  · unfold Part.place
    cases part.header? <;> cases part.silent <;>
      simp [Stylesheet.under, Stylesheet.silent, hreports]
  · rw [Part.css_place, Part.css_place, hcss hcondition]

/-- What holds of the stylesheets of each part holds of them in order. -/
theorem mapM {f g : Part → Except CompileError Stylesheet} {parts : List Part}
    (h : ∀ part ∈ parts, BothCompile condition (f part) (g part)) :
    ∃ sheets others, parts.mapM f = .ok sheets ∧ parts.mapM g = .ok others ∧
      sheets.map Stylesheet.diagnostics = others.map Stylesheet.diagnostics ∧
      (condition → sheets.map Stylesheet.css = others.map Stylesheet.css) := by
  induction parts with
  | nil => exact ⟨[], [], rfl, rfl, rfl, fun _ => rfl⟩
  | cons part rest ih =>
    obtain ⟨sheet, other, hf, hg, hreports, hcss⟩ := h part (by simp)
    obtain ⟨sheets, others, hfs, hgs, hmany, hcssMany⟩ := ih fun p hp => h p (by simp [hp])
    refine ⟨sheet :: sheets, other :: others, ?_, ?_, ?_, fun hcondition => ?_⟩
    · rw [List.mapM_cons, hf, hfs]
      rfl
    · rw [List.mapM_cons, hg, hgs]
      rfl
    · rw [List.map_cons, List.map_cons, hreports, hmany]
    · rw [List.map_cons, List.map_cons, hcss hcondition, hcssMany hcondition]

end BothCompile

namespace StyleTree

variable {options : Options} {tree : StyleTree}

/-- The numbers of a tree with finite numbers only are finite in its parts. -/
theorem finite_of_mem_parts (hfinite : ∀ n ∈ tree.numbers, n.isFinite = true) {found : Collected}
    (hholds : Collected.Holds options tree found) {auto : Bool} {part : Part}
    (h : part ∈ found.parts options auto) : ∀ n ∈ part.tree.numbers, n.isFinite = true :=
  every_numbersAll.mp (everyRoot_iff.mp (everyRoot_of_mem_parts
    (passes_numbersAll options Number.isFinite) (everyRoot_iff.mpr (every_numbersAll.mpr hfinite))
    hholds h))

/-- With more steps than it is deep, a tree with finite numbers compiles. -/
theorem exists_compileWithin (hflat : options.IsFlat)
    (hfinite : ∀ n ∈ tree.numbers, n.isFinite = true) {steps : Nat} (hsteps : tree.atDepth < steps)
    (scope : List String) (auto : Bool) :
    ∃ sheet, tree.compileWithin options steps scope auto = .ok sheet := by
  cases hcompile : tree.compileWithin options steps scope auto with
  | ok sheet => exact ⟨sheet, rfl⟩
  | error e =>
    obtain ⟨path, n, -, hinfinite, hn⟩ :=
      nonFinite_of_compileWithin hflat (every_numbersAll.mpr hfinite) hsteps hcompile
    exact absurd (hn.symm.trans hinfinite) (by simp)

/-- The automatic parts compile, and they report nothing. -/
theorem exists_mapM_autoParts (hflat : options.IsFlat)
    (hfinite : ∀ n ∈ tree.numbers, n.isFinite = true) {found : Collected}
    (hholds : Collected.Holds options tree found) {steps : Nat} (hsteps : tree.atDepth < steps + 1)
    (scope : List String) (auto : Bool) :
    ∃ sheets, (found.autoParts options auto).mapM (Part.compile options steps scope) = .ok sheets ∧
      sheets.flatMap Stylesheet.diagnostics = [] := by
  cases hcompile : (found.autoParts options auto).mapM (Part.compile options steps scope) with
  | ok sheets =>
    refine ⟨sheets, rfl, List.flatMap_eq_nil_iff.mpr fun sheet hsheet => ?_⟩
    obtain ⟨part, hpart, hplaced⟩ := exists_of_mem_mapM hcompile hsheet
    obtain ⟨inner, -, rfl⟩ := Except.exists_of_map_ok hplaced
    rw [Part.place, Collected.silent_of_mem_autoParts hpart, if_pos rfl]
    rfl
  | error e =>
    obtain ⟨part, hpart, hfails⟩ := exists_of_mapM_error hcompile
    have hmem : part ∈ found.parts options auto := by
      rw [Collected.parts_eq_append]
      exact List.mem_append_right _ hpart
    have hdepth := atDepth_of_mem_parts hflat hholds hmem
    obtain ⟨sheet, hsheet⟩ := exists_compileWithin hflat (finite_of_mem_parts hfinite hholds hmem)
      (show part.tree.atDepth < steps by omega) (scope ++ part.header?.toList) part.auto
    exact absurd ((Except.eq_error_of_map hfails).symm.trans hsheet) (by simp)

/-- At every level the same is reported with and without the automatic modes. -/
theorem bothCompile_withoutAuto (hflat : options.IsFlat)
    (hfinite : ∀ n ∈ tree.numbers, n.isFinite = true) {steps : Nat} (hsteps : tree.atDepth < steps)
    (scope : List String) (auto : Bool) :
    BothCompile (tree.usesNoAutomatic options = true)
      (tree.compileWithin options steps scope auto)
      (tree.compileWithin options.withoutAuto steps scope auto) := by
  induction steps generalizing tree scope auto with
  | zero => omega
  | succ steps ih =>
    obtain ⟨found, hfound, hholds⟩ := @Collected.exists_collect options scope tree
      (failure?_of_isFinite (isFinite_iff.mpr hfinite) scope)
    have hpart : ∀ part ∈ found.parts options.withoutAuto auto,
        BothCompile (tree.usesNoAutomatic options = true) (part.compile options steps scope)
          (part.compile options.withoutAuto steps scope) := by
      intro part hpart
      have hmem : part ∈ found.parts options auto := by
        rw [Collected.parts_eq_append]
        exact List.mem_append_left _ hpart
      have hdepth := atDepth_of_mem_parts hflat hholds hmem
      refine ((ih (finite_of_mem_parts hfinite hholds hmem) (by omega) _ _).imp
        fun huses => ?_).place part
      exact everyRoot_iff.mp (everyRoot_of_mem_parts (passes_usesNoAutomatic hflat)
        (everyRoot_iff.mpr huses) hholds hmem)
    obtain ⟨sheets, others, hsheets, hothers, hreports, hcss⟩ := BothCompile.mapM hpart
    obtain ⟨silent, hsilent, hnothing⟩ :=
      exists_mapM_autoParts hflat hfinite hholds hsteps scope auto
    refine ⟨.assemble found (sheets ++ silent), .assemble found others, ?_, ?_, ?_, fun huses => ?_⟩
    · rw [compileWithin_succ options steps auto hfound, Collected.parts_eq_append,
        List.mapM_append, hsheets, hsilent]
      rfl
    · rw [compileWithin_succ options.withoutAuto steps auto hfound, hothers]
      rfl
    · dsimp only [Stylesheet.assemble]
      rw [List.flatMap_append, hnothing, List.append_nil, List.flatMap_def, hreports,
        ← List.flatMap_def]
    · rw [Collected.autoParts_eq_nil hholds huses] at hsilent
      obtain rfl : [] = silent := Except.ok.inj hsilent
      dsimp only [Stylesheet.assemble]
      rw [List.append_nil, hcss huses]

/-- A tree with finite numbers reports the same with the automatic modes and without them, and its
CSS is the same if no key of the tree refers to a mode that is automatic. -/
theorem compile_withoutAuto (hflat : options.IsFlat)
    (hfinite : ∀ n ∈ tree.numbers, n.isFinite = true) :
    ∃ sheet other, tree.compile options = .ok sheet ∧
      tree.compile options.withoutAuto = .ok other ∧ sheet.diagnostics = other.diagnostics ∧
      (tree.usesNoAutomatic options = true → sheet.css = other.css) := by
  obtain ⟨sheet, other, hsheet, hother, hreports, hcss⟩ :=
    bothCompile_withoutAuto hflat hfinite (atDepth_lt_steps options tree) [] true
  have hsteps : tree.steps options.withoutAuto = tree.steps options := rfl
  refine ⟨{ sheet with diagnostics := sheet.diagnostics.eraseDupsBy Diagnostic.same },
    { other with diagnostics := other.diagnostics.eraseDupsBy Diagnostic.same }, ?_, ?_, ?_, hcss⟩
  · rw [compile, hsheet]
    rfl
  · rw [compile, hsteps, hother]
    rfl
  · exact congrArg (List.eraseDupsBy Diagnostic.same) hreports

/-- The automatic mode has a block in a layer, with a node in it that is reported, and the other
mode is not automatic. -/
theorem compile_withoutAuto_dark :
    (∃ sheet other : Stylesheet,
      compile ((Options.empty.withMode "dark" ".dark").withAuto "dark" ":root" "(dark)")
        [("@layer a", .tree [("@dark", .tree [("@nope", .tree []), ("p", .tree
          [("color", .leaf (.text "red"))])])])] = .ok sheet ∧
      compile (Options.empty.withMode "dark" ".dark")
        [("@layer a", .tree [("@dark", .tree [("@nope", .tree []), ("p", .tree
          [("color", .leaf (.text "red"))])])])] = .ok other ∧
      sheet.diagnostics = other.diagnostics) ∧
    ∃ sheet other : Stylesheet,
      compile (((Options.empty.withMode "dark" ".dark").withMode "light" ".light").withAuto
        "dark" ":root" "(dark)") [("p", .tree [("@light", .tree [("margin", .leaf .null)])])] =
          .ok sheet ∧
      compile ((Options.empty.withMode "dark" ".dark").withMode "light" ".light")
        [("p", .tree [("@light", .tree [("margin", .leaf .null)])])] = .ok other ∧
      sheet.css = other.css := by
  constructor
  · obtain ⟨sheet, other, hsheet, hother, hreports, -⟩ := @compile_withoutAuto
      ((Options.empty.withMode "dark" ".dark").withAuto "dark" ":root" "(dark)")
      [("@layer a", .tree [("@dark", .tree [("@nope", .tree []), ("p", .tree
        [("color", .leaf (.text "red"))])])])] ⟨by decide, by decide⟩ (by decide)
    exact ⟨sheet, other, hsheet, hother, hreports⟩
  · obtain ⟨sheet, other, hsheet, hother, -, hcss⟩ := @compile_withoutAuto
      (((Options.empty.withMode "dark" ".dark").withMode "light" ".light").withAuto
        "dark" ":root" "(dark)") [("p", .tree [("@light", .tree [("margin", .leaf .null)])])]
      ⟨by decide, by decide⟩ (by decide)
    exact ⟨sheet, other, hsheet, hother, hcss (by decide)⟩

end StyleTree

end NestedStyles
