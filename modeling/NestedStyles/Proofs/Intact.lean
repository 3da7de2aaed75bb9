import NestedStyles.Proofs.Sheets

/-!
# What a build leaves

A build that succeeds leaves what it wrote last in each file (`FileSystem.exists_of_run`). The
stylesheets of its inputs are in files of their own. If no input has the name of the stylesheet of
the theme and the main stylesheet is in another file than these, then every stylesheet is there at
the end (`FileSystem.intact_of_run`). Without these conditions a later stylesheet takes the place of
an earlier one (`Disk.overwritten_by_theme`).
-/

namespace NestedStyles

namespace Build

/-- The path of the main stylesheet. -/
def mainPath (arguments : Arguments) : String := Path.join arguments.directory arguments.main

/-- The names of the stylesheets of the inputs and of the theme. -/
def sheetNames (arguments : Arguments) : List String :=
  arguments.inputs.filterMap Path.stem? ++ arguments.theme.toList.map fun _ => "variables"

/-- The paths of the stylesheets of the inputs and of the theme. -/
def sheetPaths (arguments : Arguments) : List String :=
  (sheetNames arguments).map (sheetPath arguments)

/-- The paths that a build writes to. -/
def targets (arguments : Arguments) : List String :=
  sheetPaths arguments ++ if arguments.layers then [mainPath arguments] else []

section Names

variable {arguments : Arguments} {name : String}

theorem mem_sheetNames : name ∈ sheetNames arguments ↔
    (∃ path ∈ arguments.inputs, Path.stem? path = some name) ∨
      arguments.theme.isSome = true ∧ name = "variables" := by
  rw [sheetNames, List.mem_append, List.mem_filterMap]
  refine or_congr_right ?_
  cases arguments.theme <;> simp

theorem slash_not_mem_of_mem_sheetNames (h : name ∈ sheetNames arguments) :
    '/' ∉ name.toList := by
  rcases mem_sheetNames.mp h with ⟨path, -, hname⟩ | ⟨-, rfl⟩
  · exact (Path.not_mem_of_stem? hname).2
  · decide

/-- The stylesheets of the inputs have names of their own, and so has that of the theme if no input
takes it. -/
theorem nodup_sheetNames (hnames : distinctNames arguments.inputs = .ok ())
    (htheme : arguments.theme.isSome = true →
      ∀ path ∈ arguments.inputs, Path.stem? path ≠ some "variables") :
    (sheetNames arguments).Nodup := by
  obtain ⟨-, hpairwise⟩ := pairwise_of_distinctNames hnames
  refine List.nodup_append.mpr ⟨?_, by cases arguments.theme <;> simp, ?_⟩
  · exact List.pairwise_filterMap.mpr (hpairwise.imp fun hne name hname other hother heq =>
      hne (hname.trans (heq ▸ hother.symm)))
  · intro name hname other hother heq
    obtain ⟨path, hpath, hstem⟩ := List.mem_filterMap.mp hname
    obtain ⟨theme, hmem, rfl⟩ := List.mem_map.mp hother
    have hsome : arguments.theme.isSome = true :=
      Option.isSome_iff_exists.mpr ⟨theme, Option.mem_toList.mp hmem⟩
    exact htheme hsome path hpath (heq ▸ hstem)

end Names

section Steps

universe u

variable {m : Type → Type u} [Monad m] (files : Files m) (arguments : Arguments)

/-- Builds the theme, if there is one. -/
def writeTheme (root : String) : ExceptT BuildError m Unit :=
  match arguments.theme with
  | some path => buildTheme files root arguments path
  | none => pure ()

/-- Writes the main stylesheet, if there are layers. -/
def writeMain (outputs : List Output) : ExceptT BuildError m Unit :=
  if arguments.layers then write files (mainPath arguments) (mainStylesheet outputs) else pure ()

theorem run_eq [LawfulMonad m] : run files arguments = do
    given (distinctNames arguments.inputs)
    let config ← loadConfig files arguments.config
    makeDirectory files arguments.directory
    let built ← arguments.inputs.mapM (buildFile files config.options arguments)
    writeTheme files arguments config.rootSelector
    writeMain files arguments (built.map Prod.fst)
    return ⟨built.map Prod.fst, config.warnings.map Warning.message ++ built.flatMap Prod.snd⟩ := by
  unfold run writeTheme writeMain mainPath
  cases arguments.theme <;> cases arguments.layers <;> simp

end Steps

end Build

namespace FileSystem

open Build

variable {σ : Type} (system : FileSystem σ) {arguments : Arguments} {s s' : σ}

/-! ## The steps of a build -/

/-- The configuration is read before anything is written. -/
theorem loadConfig_eq_ok {path : Option String} {config : Config}
    (h : (loadConfig system.files path).run s = (.ok config, s')) : s' = s := by
  cases path with
  | none => exact (run_pure h).2
  | some path =>
    obtain ⟨text, s₁, hdone, hparse⟩ := exists_of_run_bind h
    obtain ⟨-, rfl⟩ := run_given hparse
    rw [← system.read_snd path s, run_done hdone]

/-- A theme is flattened from the text of its file, and written to the file of its stylesheet. -/
theorem buildTheme_eq_ok {root path : String}
    (h : (buildTheme system.files root arguments path).run s = (.ok (), s')) :
    ∃ text css, system.text? s (system.place path) = some text ∧
      themeOf root path text = .ok css ∧
      (system.files.write (sheetPath arguments "variables") (css ++ "\n")).run s =
        (.ok (), s') := by
  obtain ⟨text, s₁, hdone, hrest⟩ := exists_of_run_bind h
  obtain ⟨css, s₂, hgiven, hwrite⟩ := exists_of_run_bind hrest
  obtain ⟨hcss, rfl⟩ := run_given hgiven
  obtain rfl : s₂ = s := by rw [← system.read_snd path s, run_done hdone]
  exact ⟨text, css, system.text?_of_read (by rw [run_done hdone]), hcss, run_done hwrite⟩

/-- The stylesheet of the theme changes its own file only. -/
theorem text?_writeTheme {root : String}
    (h : (writeTheme system.files arguments root).run s = (.ok (), s')) {p : system.Place}
    (hp : arguments.theme.isSome = true → p ≠ system.place (sheetPath arguments "variables")) :
    system.text? s' p = system.text? s p := by
  unfold writeTheme at h
  cases htheme : arguments.theme with
  | none =>
    rw [htheme] at h
    rw [(run_pure h).2]
  | some path =>
    rw [htheme] at h
    obtain ⟨_, _, -, -, hwrite⟩ := system.buildTheme_eq_ok h
    exact system.text?_other hwrite (hp (by rw [htheme]; rfl))

/-- The main stylesheet changes its own file only. -/
theorem text?_writeMain {outputs : List Output}
    (h : (writeMain system.files arguments outputs).run s = (.ok (), s')) :
    (arguments.layers = true →
        system.text? s' (system.place (mainPath arguments)) =
          some (mainStylesheet outputs ++ "\n")) ∧
      ∀ p, (arguments.layers = true → p ≠ system.place (mainPath arguments)) →
        system.text? s' p = system.text? s p := by
  unfold writeMain at h
  split at h
  · next hlayers =>
    exact ⟨fun _ => system.text?_self (run_done h),
      fun p hp => system.text?_other (run_done h) (hp hlayers)⟩
  · next hlayers =>
    rw [(run_pure h).2]
    exact ⟨fun hon => absurd hon hlayers, fun _ _ => rfl⟩

/-- A build that succeeds has read its configuration, written the stylesheets of its inputs, then
that of its theme and then the main one. -/
theorem exists_of_run {built : Built}
    (h : (run system.files arguments).run s = (.ok built, s')) :
    distinctNames arguments.inputs = .ok () ∧
      ∃ config start s₁ s₂, (loadConfig system.files arguments.config).run s = (.ok config, s) ∧
        system.text? start = system.text? s ∧
        system.Written config.options arguments start s₁ (· ∈ arguments.inputs) ∧
        built.outputs = (arguments.inputs.filterMap Path.stem?).map outputOf ∧
        (writeTheme system.files arguments config.rootSelector).run s₁ = (.ok (), s₂) ∧
        (writeMain system.files arguments built.outputs).run s₂ = (.ok (), s') := by
  rw [run_eq] at h
  obtain ⟨_, _, hgiven, h₀⟩ := exists_of_run_bind h
  obtain ⟨hnames, rfl⟩ := run_given hgiven
  obtain ⟨config, _, hconfig, h₁⟩ := exists_of_run_bind h₀
  obtain rfl := system.loadConfig_eq_ok hconfig
  obtain ⟨_, start, hmake, h₂⟩ := exists_of_run_bind h₁
  obtain ⟨results, s₁, hinputs, h₃⟩ := exists_of_run_bind h₂
  obtain ⟨_, s₂, htheme, h₄⟩ := exists_of_run_bind h₃
  obtain ⟨_, _, hmain, h₅⟩ := exists_of_run_bind h₄
  obtain ⟨rfl, rfl⟩ := run_pure h₅
  obtain ⟨-, hpairwise⟩ := pairwise_of_distinctNames hnames
  obtain ⟨hwritten, houtputs⟩ := (Written.refl start).mapM hinputs hpairwise
    fun _ _ _ hbefore => hbefore.elim
  exact ⟨hnames, config, start, s₁, s₂, hconfig, system.text?_make (run_done hmake),
    by simpa only [or_false] using hwritten, houtputs, htheme, hmain⟩

/-! ## What stays -/

/-- The files that a build writes to are pairwise different, if the theme's stylesheet has a name of
its own and the main stylesheet a file of its own. -/
theorem nodup_targets (hnames : distinctNames arguments.inputs = .ok ())
    (htheme : arguments.theme.isSome = true →
      ∀ path ∈ arguments.inputs, Path.stem? path ≠ some "variables")
    (hmain : arguments.layers = true → ∀ path ∈ sheetPaths arguments,
      system.place (mainPath arguments) ≠ system.place path) :
    ((targets arguments).map system.place).Nodup := by
  have hsheets : ((sheetPaths arguments).map system.place).Nodup := by
    rw [sheetPaths, List.map_map]
    refine List.pairwise_map.mpr ((nodup_sheetNames hnames htheme).imp_of_mem
      fun hname hother hne => ?_)
    exact system.sheet_ne_sheet (slash_not_mem_of_mem_sheetNames hname)
      (slash_not_mem_of_mem_sheetNames hother) hne
  rw [targets, List.map_append]
  cases hlayers : arguments.layers with
  | false => simpa using hsheets
  | true =>
    refine List.nodup_append.mpr ⟨hsheets, by simp, fun p hp main hmem heq => ?_⟩
    obtain ⟨path, hpath, rfl⟩ := List.mem_map.mp hp
    obtain rfl : main = system.place (mainPath arguments) := by simpa using hmem
    exact hmain hlayers path hpath heq.symm

/-- A build whose stylesheet of the theme has a name of its own and whose main stylesheet has a file
of its own leaves every stylesheet intact: at the end each input's file holds what the input
compiles to, that of the theme its custom properties and that of the main stylesheet the imports.
No file is written twice. -/
theorem intact_of_run {built : Built}
    (h : (run system.files arguments).run s = (.ok built, s'))
    (htheme : arguments.theme.isSome = true →
      ∀ path ∈ arguments.inputs, Path.stem? path ≠ some "variables")
    (hmain : arguments.layers = true → ∀ path ∈ sheetPaths arguments,
      system.place (mainPath arguments) ≠ system.place path) :
    ∃ config, (loadConfig system.files arguments.config).run s = (.ok config, s) ∧
      (∀ path ∈ arguments.inputs, ∃ name text css warnings, Path.stem? path = some name ∧
        system.text? s (system.place path) = some text ∧
        stylesheetOf config.options arguments.layers path name text = .ok (css, warnings) ∧
        system.text? s' (system.place (sheetPath arguments name)) = some (css ++ "\n")) ∧
      (∀ path, arguments.theme = some path → ∃ text css,
        (system.text? s (system.place path) = some text ∨
          (∃ input ∈ arguments.inputs, ∃ name, Path.stem? input = some name ∧
            system.place path = system.place (sheetPath arguments name)) ∧
          system.text? s' (system.place path) = some text) ∧
        themeOf config.rootSelector path text = .ok css ∧
        system.text? s' (system.place (sheetPath arguments "variables")) = some (css ++ "\n")) ∧
      (arguments.layers = true → system.text? s' (system.place (mainPath arguments)) =
        some (mainStylesheet ((arguments.inputs.filterMap Path.stem?).map outputOf) ++ "\n")) ∧
      ((targets arguments).map system.place).Nodup := by
  obtain ⟨hnames, config, start, s₁, s₂, hconfig, hstart, hwritten, houtputs, hthemed, hmained⟩ :=
    system.exists_of_run h
  obtain ⟨hmainText, hother⟩ := system.text?_writeMain hmained
  have hnotMain (name : String) (hname : name ∈ sheetNames arguments) :
      arguments.layers = true →
        system.place (sheetPath arguments name) ≠ system.place (mainPath arguments) :=
    fun hlayers => (hmain hlayers _ (List.mem_map_of_mem hname)).symm
  -- What is written after the inputs is written to other files than theirs.
  have hkept (path name : String) (hpath : path ∈ arguments.inputs)
      (hname : Path.stem? path = some name) :
      system.text? s' (system.place (sheetPath arguments name)) =
        system.text? s₁ (system.place (sheetPath arguments name)) := by
    rw [hother _ (hnotMain name (mem_sheetNames.mpr (Or.inl ⟨path, hpath, hname⟩)))]
    refine system.text?_writeTheme hthemed fun hsome => ?_
    exact system.sheet_ne_sheet (Path.not_mem_of_stem? hname).2 (by decide) fun heq =>
      htheme hsome path hpath (heq ▸ hname)
  refine ⟨config, hconfig, fun path hpath => ?_, fun path hpath => ?_, fun hlayers => ?_,
    system.nodup_targets hnames htheme hmain⟩
  · obtain ⟨sheet, hread, -, htext⟩ := hwritten.sheet path hpath
    obtain ⟨-, hname, text, -, hfile, hsheet⟩ := system.readSheet_eq_ok hread
    exact ⟨sheet.name, text, sheet.css, sheet.warnings, hname, by rw [← hstart, hfile], hsheet,
      (hkept path sheet.name hpath hname).trans htext⟩
  · have hbuilt : (buildTheme system.files config.rootSelector arguments path).run s₁ =
        (.ok (), s₂) := by
      rw [writeTheme, hpath] at hthemed
      exact hthemed
    obtain ⟨text, css, hread, hcss, hwrite⟩ := system.buildTheme_eq_ok hbuilt
    refine ⟨text, css, ?_, hcss, ?_⟩
    -- The theme may be read from the stylesheet of an input, which is there by then.
    · by_cases houtput : ∃ input ∈ arguments.inputs, ∃ name, Path.stem? input = some name ∧
          system.place path = system.place (sheetPath arguments name)
      · obtain ⟨input, hinput, name, hname, hplace⟩ := houtput
        refine Or.inr ⟨⟨input, hinput, name, hname, hplace⟩, ?_⟩
        rw [hplace, hkept input name hinput hname, ← hplace, hread]
      · refine Or.inl ?_
        rw [← hstart, ← hread]
        exact (hwritten.other _ fun input name hinput hname hplace =>
          houtput ⟨input, hinput, name, hname, hplace⟩).symm
    · rw [hother _ (hnotMain _ (mem_sheetNames.mpr (Or.inr ⟨by rw [hpath]; rfl, rfl⟩)))]
      exact system.text?_self hwrite
  · rw [hmainText hlayers, houtputs]

end FileSystem

namespace Disk

open Build

/-- Two inputs, a theme and a main stylesheet in a directory of their own. -/
theorem intact_of_run_themed :
    let arguments : Arguments :=
      ⟨["a.json", "in/b.json"], none, "out", true, "styles.css", some "theme.json"⟩
    let disk : Disk := ⟨[["in"]], [(["a.json"], "\x7b\"p\": \x7b\"color\": \"red\"\x7d\x7d"),
      (["in", "b.json"], "\x7b\x7d"), (["theme.json"], "\x7b\"a\": \"1\"\x7d")]⟩
    ∃ built disk', (run system.files arguments).run disk = (.ok built, disk') ∧
      disk'.text? ["out", "a.css"] =
        some ("@layer a \x7b\n  p \x7b\n    color: red;\n  \x7d\n\x7d" ++ "\n") ∧
      disk'.text? ["out", "styles.css"] =
        some (mainStylesheet [⟨"a", "a.css"⟩, ⟨"b", "b.css"⟩] ++ "\n") ∧
      ((targets arguments).map Disk.place).Nodup := by
  intro arguments disk
  obtain ⟨built, disk', hrun, -⟩ : ∃ built disk',
      (run system.files arguments).run disk = (.ok built, disk') ∧
        built.outputs = [⟨"a", "a.css"⟩, ⟨"b", "b.css"⟩] :=
    exists_of_toOption_run (by dsimp only [arguments, disk]; decide +kernel)
  have hplaces : Disk.place (sheetPath arguments "a") = ["out", "a.css"] ∧
      Disk.place (mainPath arguments) = ["out", "styles.css"] ∧
      (∀ path ∈ sheetPaths arguments, Disk.place (mainPath arguments) ≠ Disk.place path) ∧
      (arguments.inputs.filterMap Path.stem?).map outputOf =
        [⟨"a", "a.css"⟩, ⟨"b", "b.css"⟩] := by
    dsimp only [arguments]
    decide +kernel
  obtain ⟨hsheetPlace, hmainPlace, hown, houtputs⟩ := hplaces
  obtain ⟨config, hconfig, hinputs, -, hmain, hnodup⟩ :=
    system.intact_of_run hrun (fun _ => by dsimp only [arguments]; decide) fun _ path hpath => by
      rw [place_system, place_system]
      exact hown path hpath
  obtain rfl : config = .empty := (Except.ok.inj (Prod.mk.inj hconfig).1).symm
  obtain ⟨name, text, css, warnings, hname, hread, hsheet, htext⟩ :=
    hinputs "a.json" List.mem_cons_self
  obtain rfl : name = "a" := Option.some.inj (hname.symm.trans (by decide))
  obtain rfl : text = "\x7b\"p\": \x7b\"color\": \"red\"\x7d\x7d" :=
    Option.some.inj (hread.symm.trans (by dsimp only [disk]; decide +kernel))
  have hcss : some css = some "@layer a \x7b\n  p \x7b\n    color: red;\n  \x7d\n\x7d" := by
    have hmap := congrArg (fun result => result.toOption.map Prod.fst) hsheet
    exact hmap.symm.trans (by dsimp only [arguments]; decide +kernel)
  refine ⟨built, disk', hrun, ?_, ?_, hnodup⟩
  · rwa [place_system, text?_system, hsheetPlace, Option.some.inj hcss] at htext
  · have hlast := hmain rfl
    rwa [place_system, text?_system, hmainPlace, houtputs] at hlast

/-- The stylesheet of the theme is written over that of an input that is named like it. -/
theorem overwritten_by_theme :
    ¬ ∀ (arguments : Arguments) (disk disk' : Disk) (built : Built),
      (run system.files arguments).run disk = (.ok built, disk') →
      ∃ config, (loadConfig system.files arguments.config).run disk = (.ok config, disk) ∧
        ∀ path ∈ arguments.inputs, ∃ name text css warnings, Path.stem? path = some name ∧
          disk.text? (Disk.place path) = some text ∧
          stylesheetOf config.options arguments.layers path name text = .ok (css, warnings) ∧
          disk'.text? (Disk.place (sheetPath arguments name)) = some (css ++ "\n") := by
  intro h
  obtain ⟨built, disk', hrun, -⟩ : ∃ built disk', (run system.files
      ⟨["variables.json"], none, ".", false, "styles.css", some "theme.json"⟩).run
      ⟨[], [(["variables.json"], "\x7b\"p\": \x7b\"color\": \"red\"\x7d\x7d"),
        (["theme.json"], "\x7b\"a\": \"1\"\x7d")]⟩ = (.ok built, disk') ∧
      built.outputs = [⟨"variables", "variables.css"⟩] :=
    exists_of_toOption_run (by decide +kernel)
  obtain ⟨config, hconfig, hinputs⟩ := h _ _ _ _ hrun
  obtain rfl : config = .empty := (Except.ok.inj (Prod.mk.inj hconfig).1).symm
  obtain ⟨name, text, css, warnings, hname, hread, hsheet, htext⟩ :=
    hinputs "variables.json" (by decide)
  obtain rfl : name = "variables" := Option.some.inj (hname.symm.trans (by decide))
  obtain rfl : text = "\x7b\"p\": \x7b\"color\": \"red\"\x7d\x7d" :=
    Option.some.inj (hread.symm.trans (by decide +kernel))
  have hcss : some css = some "p \x7b\n  color: red;\n\x7d" := by
    have hmap := congrArg (fun result => result.toOption.map Prod.fst) hsheet
    exact hmap.symm.trans (by decide +kernel)
  obtain rfl : _ = disk' := congrArg Prod.snd hrun
  rw [Option.some.inj hcss] at htext
  exact absurd htext (by decide +kernel)

end Disk

end NestedStyles
