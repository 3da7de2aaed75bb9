import NestedStyles.Proofs.DistinctNames

/-!
# Stylesheets on a file system

The stylesheet of an input is read and compiled in one step and written in another
(`Build.buildFile_eq`). No input is the stylesheet of another one and no two stylesheets are in one
file (`FileSystem.place_ne_sheet`, `FileSystem.sheet_ne_sheet`), so what is read for an input does
not depend on the stylesheets that are written before, and these stay as they are
(`FileSystem.Written`).
-/

namespace NestedStyles

namespace Build

/-- A stylesheet that is ready to be written. -/
structure Sheet where
  /-- The name of the stylesheet. -/
  name : String
  css : String
  warnings : List String
deriving DecidableEq

/-- The output of a stylesheet and its warnings. -/
def Sheet.result (sheet : Sheet) : Output × List String := (outputOf sheet.name, sheet.warnings)

/-- The path of the stylesheet of a name. -/
def sheetPath (arguments : Arguments) (name : String) : String :=
  Path.join arguments.directory (outputOf name).file

section Steps

universe u

variable {m : Type → Type u} [Monad m] (files : Files m) (options : Options) (arguments : Arguments)

/-- Reads a style file and compiles it. -/
def readSheet (path : String) : ExceptT BuildError m Sheet := do
  let name ← given (layerName path)
  let text ← read files .style path
  let (css, warnings) ← given (stylesheetOf options arguments.layers path name text)
  return ⟨name, css, warnings⟩

/-- Writes a stylesheet. -/
def writeSheet (sheet : Sheet) : ExceptT BuildError m (Output × List String) := do
  write files (sheetPath arguments sheet.name) sheet.css
  return sheet.result

/-- A style file is built in two steps. -/
theorem buildFile_eq [LawfulMonad m] (path : String) : buildFile files options arguments path =
    readSheet files options arguments path >>= writeSheet files arguments := by
  simp only [buildFile, readSheet, writeSheet, bind_assoc, pure_bind, sheetPath, Sheet.result]

end Steps

/-! ## Steps that succeed -/

section Run

variable {ε σ α β : Type} {s s' : σ}

/-- A step is followed by the next one, unless it fails. -/
theorem run_bind (step : ExceptT ε (StateM σ) α) (next : α → ExceptT ε (StateM σ) β) (s : σ) :
    (step >>= next).run s = match step.run s with
      | (.ok a, s') => (next a).run s'
      | (.error e, s') => (.error e, s') := by
  rw [ExceptT.run_bind]
  change StateT.bind step.run _ s = _
  rcases h : step.run s with ⟨e | a, s'⟩
  · simp only [StateT.bind, h]
    rfl
  · simp only [StateT.bind, h]
    rfl

theorem run_bind_of_ok {step : ExceptT ε (StateM σ) α} {a : α}
    (h : step.run s = (.ok a, s')) (next : α → ExceptT ε (StateM σ) β) :
    (step >>= next).run s = (next a).run s' := by
  rw [run_bind, h]

theorem exists_of_run_bind {step : ExceptT ε (StateM σ) α} {next : α → ExceptT ε (StateM σ) β}
    {b : β} (h : (step >>= next).run s = (.ok b, s')) :
    ∃ a between, step.run s = (.ok a, between) ∧ (next a).run between = (.ok b, s') := by
  rw [run_bind] at h
  split at h
  · next a between hstep => exact ⟨a, between, hstep, h⟩
  · exact absurd (Prod.mk.inj h).1 (by simp)

/-- A step whose result has a view succeeds. -/
theorem exists_of_toOption_run {step : ExceptT ε (StateM σ) α} {f : α → β} {b : β}
    (h : ((step.run s).1.map f).toOption = some b) :
    ∃ a s', step.run s = (.ok a, s') ∧ f a = b := by
  have hp (a : α) (ha : (step.run s).1 = .ok a) (_ : f a = b) :
      step.run s = (.ok a, (step.run s).2) := Prod.ext ha rfl
  obtain ⟨a, -, hf, hrun⟩ := Except.exists_of_toOption_map h hp
  exact ⟨a, _, hrun, hf⟩

theorem run_given {result : Except BuildError α} {a : α}
    (h : (given (m := StateM σ) result).run s = (.ok a, s')) : result = .ok a ∧ s' = s :=
  ⟨(Prod.mk.inj h).1, (Prod.mk.inj h).2.symm⟩

theorem run_given_ok (a : α) (s : σ) :
    (given (m := StateM σ) (.ok a)).run s = (.ok a, s) := rfl

theorem run_pure {a b : α} (h : (pure a : ExceptT ε (StateM σ) α).run s = (.ok b, s')) :
    b = a ∧ s' = s :=
  ⟨(Except.ok.inj (Prod.mk.inj h).1).symm, (Prod.mk.inj h).2.symm⟩

theorem run_done {cause : FileError → BuildError} {step : StateM σ (Except FileError α)} {a : α}
    (h : (done cause step).run s = (.ok a, s')) : step.run s = (.ok a, s') := by
  obtain ⟨hresult, hstate⟩ := Prod.mk.inj h
  change (step.run s).1.mapError cause = .ok a at hresult
  refine Prod.ext ?_ hstate
  cases hstep : (step.run s).1 with
  | error e =>
    rw [hstep] at hresult
    have hfailed : Except.error (cause e) = Except.ok a := hresult
    exact absurd hfailed (by simp)
  | ok b =>
    rw [hstep] at hresult
    exact congrArg Except.ok (Except.ok.inj hresult)

theorem run_done_of_ok {step : StateM σ (Except FileError α)} {a : α}
    (h : step.run s = (.ok a, s')) (cause : FileError → BuildError) :
    (done cause step).run s = (.ok a, s') := by
  change ((step.run s).1.mapError cause, (step.run s).2) = _
  rw [h]
  rfl

end Run

end Build

namespace FileSystem

open Build

variable {σ : Type} (system : FileSystem σ) {options : Options} {arguments : Arguments}
  {path other name otherName : String} {s s' : σ}

/-! ## Places of inputs and stylesheets -/

/-- No input is the stylesheet of another one. -/
theorem place_ne_sheet (hname : Path.stem? path = some name)
    (hother : Path.stem? other = some otherName) (hne : name ≠ otherName) :
    system.place path ≠ system.place (sheetPath arguments otherName) := by
  intro hplace
  obtain ⟨file, hfile, -⟩ := Path.stem?_eq_some_iff.mp hname
  obtain ⟨-, hslash⟩ := Path.not_mem_of_stem? hother
  obtain rfl := system.name_eq hplace hfile (Path.fileName?_sheet hslash arguments.directory)
  exact hne (Option.some.inj (hname.symm.trans (Path.stem?_of_sheet hother hfile)))

/-- No two stylesheets are in one file. -/
theorem sheet_ne_sheet (hname : '/' ∉ name.toList) (hother : '/' ∉ otherName.toList)
    (hne : name ≠ otherName) :
    system.place (sheetPath arguments name) ≠ system.place (sheetPath arguments otherName) := by
  intro hplace
  have hfile := system.name_eq hplace (Path.fileName?_sheet hname arguments.directory)
    (Path.fileName?_sheet hother arguments.directory)
  exact hne (by simpa using hfile)

/-! ## One step -/

/-- A step that reads a stylesheet changes nothing. The stylesheet is compiled from the text of the
file. -/
theorem readSheet_eq_ok {sheet : Sheet}
    (h : (readSheet system.files options arguments path).run s = (.ok sheet, s')) :
    s' = s ∧ Path.stem? path = some sheet.name ∧ ∃ text,
      (system.files.read path).run s = (.ok text, s) ∧
      system.text? s (system.place path) = some text ∧
      stylesheetOf options arguments.layers path sheet.name text =
        .ok (sheet.css, sheet.warnings) := by
  obtain ⟨name, s₁, hgiven, hread⟩ := exists_of_run_bind h
  obtain ⟨hname, rfl⟩ := run_given hgiven
  obtain ⟨text, s₂, hdone, hcompile⟩ := exists_of_run_bind hread
  obtain rfl : s₂ = s₁ := by rw [← system.read_snd path s₁, run_done hdone]
  obtain ⟨⟨css, warnings⟩, s₃, hgiven, hlast⟩ := exists_of_run_bind hcompile
  obtain ⟨hsheet, rfl⟩ := run_given hgiven
  obtain ⟨rfl, rfl⟩ := run_pure hlast
  exact ⟨rfl, layerName_eq_ok_iff.mp hname, text, run_done hdone,
    system.text?_of_read (by rw [run_done hdone]), hsheet⟩

/-- A stylesheet that was read is read again from the same text in the same directories. -/
theorem readSheet_again {sheet : Sheet}
    (h : (readSheet system.files options arguments path).run s = (.ok sheet, s))
    (hdirectories : system.directories s' = system.directories s)
    (htext : system.text? s' (system.place path) = system.text? s (system.place path)) :
    (readSheet system.files options arguments path).run s' = (.ok sheet, s') := by
  obtain ⟨-, hname, text, hread, hfile, hsheet⟩ := system.readSheet_eq_ok h
  have hagain : (system.files.read path).run s' = (.ok text, s') :=
    Prod.ext (system.read_again (by rw [hread]) hdirectories (htext.trans hfile))
      (system.read_snd path s')
  unfold readSheet
  rw [layerName_eq_ok_iff.mpr hname, run_bind_of_ok (run_given_ok _ s'), Build.read,
    run_bind_of_ok (run_done_of_ok hagain _), hsheet, run_bind_of_ok (run_given_ok _ s')]
  rfl

/-- A step that writes a stylesheet writes its file. -/
theorem writeSheet_eq_ok {sheet : Sheet} {result : Output × List String} :
    (writeSheet system.files arguments sheet).run s = (.ok result, s') ↔
      result = sheet.result ∧
        (system.files.write (sheetPath arguments sheet.name) (sheet.css ++ "\n")).run s =
          (.ok (), s') := by
  constructor
  · intro h
    obtain ⟨_, s₁, hwrite, h⟩ := exists_of_run_bind h
    obtain ⟨rfl, rfl⟩ := run_pure h
    exact ⟨rfl, run_done hwrite⟩
  · rintro ⟨rfl, hwrite⟩
    exact run_bind_of_ok (run_done_of_ok hwrite _) _

/-! ## Steps of several inputs -/

/-- Some inputs have their stylesheets written as they compile from a first state, and nothing else
has changed since. -/
structure Written (options : Options) (arguments : Arguments) (start s : σ)
    (built : String → Prop) : Prop where
  directories : system.directories s = system.directories start
  sheet : ∀ path, built path → ∃ sheet,
    (readSheet system.files options arguments path).run start = (.ok sheet, start) ∧
      ((system.files.write (sheetPath arguments sheet.name) (sheet.css ++ "\n")).run start).1 =
        .ok () ∧
      system.text? s (system.place (sheetPath arguments sheet.name)) = some (sheet.css ++ "\n")
  other : ∀ p, (∀ path name, built path → Path.stem? path = some name →
    p ≠ system.place (sheetPath arguments name)) → system.text? s p = system.text? start p

variable {system} {start : σ} {built : String → Prop}

/-- At first nothing is written. -/
theorem Written.refl (s : σ) : Written system options arguments s s fun _ => False :=
  ⟨rfl, fun _ h => h.elim, fun _ _ => rfl⟩

/-- What is read for an input does not depend on the stylesheets that are written before. -/
theorem Written.read (h : Written system options arguments start s built) {sheet : Sheet}
    (hnew : ∀ other, built other → Path.stem? path ≠ Path.stem? other) :
    (readSheet system.files options arguments path).run s = (.ok sheet, s) ↔
      (readSheet system.files options arguments path).run start = (.ok sheet, start) := by
  -- The file of the input is no stylesheet of another one, so it has its first text.
  have htext (hname : ∃ name, Path.stem? path = some name) :
      system.text? s (system.place path) = system.text? start (system.place path) := by
    obtain ⟨name, hname⟩ := hname
    refine h.other _ fun other otherName hother hotherName => ?_
    exact system.place_ne_sheet hname hotherName fun heq =>
      hnew other hother (hname.trans (heq ▸ hotherName.symm))
  constructor
  · intro hread
    obtain ⟨-, hname, -⟩ := system.readSheet_eq_ok hread
    exact system.readSheet_again hread h.directories.symm (htext ⟨_, hname⟩).symm
  · intro hread
    obtain ⟨-, hname, -⟩ := system.readSheet_eq_ok hread
    exact system.readSheet_again hread h.directories (htext ⟨_, hname⟩)

/-- One more stylesheet is written, and those before stay as they are. -/
theorem Written.write (h : Written system options arguments start s built) {sheet : Sheet}
    {result : Output × List String}
    (hread : (readSheet system.files options arguments path).run start = (.ok sheet, start))
    (hwrite : (writeSheet system.files arguments sheet).run s = (.ok result, s'))
    (hnew : ∀ other, built other → Path.stem? path ≠ Path.stem? other) :
    Written system options arguments start s' fun other => other = path ∨ built other := by
  obtain ⟨-, hname, -⟩ := system.readSheet_eq_ok hread
  obtain ⟨-, hslash⟩ := Path.not_mem_of_stem? hname
  obtain ⟨-, hfile⟩ := system.writeSheet_eq_ok.mp hwrite
  refine ⟨(system.directories_write hfile).trans h.directories, fun other hother => ?_,
    fun p hp => ?_⟩
  · rcases hother with rfl | hother
    · exact ⟨sheet, hread, system.write_again (by rw [hfile]) h.directories.symm _,
        system.text?_self hfile⟩
    · obtain ⟨otherSheet, hotherRead, hwritable, htext⟩ := h.sheet other hother
      obtain ⟨-, hotherName, -⟩ := system.readSheet_eq_ok hotherRead
      obtain ⟨-, hotherSlash⟩ := Path.not_mem_of_stem? hotherName
      refine ⟨otherSheet, hotherRead, hwritable, (system.text?_other hfile ?_).trans htext⟩
      exact system.sheet_ne_sheet hotherSlash hslash fun heq =>
        hnew other hother (hname.trans (heq ▸ hotherName.symm))
  · rw [system.text?_other hfile (hp path sheet.name (Or.inl rfl) hname)]
    exact h.other p fun other name hother => hp other name (Or.inr hother)

/-- A build of one more input writes its stylesheet. -/
theorem Written.buildFile (h : Written system options arguments start s built)
    {result : Output × List String}
    (hrun : (buildFile system.files options arguments path).run s = (.ok result, s'))
    (hnew : ∀ other, built other → Path.stem? path ≠ Path.stem? other) :
    Written system options arguments start s' (fun other => other = path ∨ built other) ∧
      ∃ name, Path.stem? path = some name ∧ result.1 = outputOf name := by
  rw [buildFile_eq] at hrun
  obtain ⟨sheet, s₁, hread, hwrite⟩ := exists_of_run_bind hrun
  obtain ⟨rfl, hname, -⟩ := system.readSheet_eq_ok hread
  obtain ⟨hresult, -⟩ := system.writeSheet_eq_ok.mp hwrite
  exact ⟨h.write ((h.read hnew).mp hread) hwrite hnew, sheet.name, hname, by rw [hresult]; rfl⟩

/-- A build of several inputs writes their stylesheets. -/
theorem Written.mapM {paths : List String} (h : Written system options arguments start s built)
    {results : List (Output × List String)}
    (hrun : (paths.mapM (Build.buildFile system.files options arguments)).run s =
      (.ok results, s'))
    (hpaths : paths.Pairwise fun path other => Path.stem? path ≠ Path.stem? other)
    (hnew : ∀ path ∈ paths, ∀ other, built other → Path.stem? path ≠ Path.stem? other) :
    Written system options arguments start s' (fun path => path ∈ paths ∨ built path) ∧
      results.map Prod.fst = (paths.filterMap Path.stem?).map outputOf := by
  induction paths generalizing s built results with
  | nil =>
    obtain ⟨rfl, rfl⟩ := run_pure hrun
    exact ⟨by simpa using h, rfl⟩
  | cons path rest ih =>
    rw [List.mapM_cons] at hrun
    obtain ⟨result, s₁, hone, hrun⟩ := exists_of_run_bind hrun
    obtain ⟨others, s₂, hrest, hrun⟩ := exists_of_run_bind hrun
    obtain ⟨rfl, rfl⟩ := run_pure hrun
    obtain ⟨hfirst, hothers⟩ := List.pairwise_cons.mp hpaths
    obtain ⟨hwritten, name, hname, hresult⟩ := h.buildFile hone (hnew path List.mem_cons_self)
    obtain ⟨hall, houtputs⟩ := ih hwritten hrest hothers fun other hother earlier hearlier => by
      rcases hearlier with rfl | hearlier
      · exact (hfirst other hother).symm
      · exact hnew other (List.mem_cons_of_mem _ hother) earlier hearlier
    refine ⟨?_, ?_⟩
    · have hsame (other : String) : (other ∈ path :: rest ∨ built other) =
          (other ∈ rest ∨ other = path ∨ built other) := by
        rw [List.mem_cons, or_comm (a := other = path), or_assoc]
      simpa only [hsame] using hall
    · rw [List.map_cons, List.filterMap_cons_some hname, List.map_cons, houtputs, hresult]

end FileSystem

end NestedStyles
