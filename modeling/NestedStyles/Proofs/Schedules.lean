import NestedStyles.Proofs.Sheets

/-!
# Builds of inputs at the same time

The inputs are built at the same time. Each build reads and compiles its style file in one step and
writes its stylesheet in another, and the steps of different builds follow each other in any order
(`Build.Calls.run`). As long as no step fails, the calls that have ended have written their
stylesheets as they compile from the first state (`FileSystem.Sound`), so the order does not matter:
the files are left as the builds leave them one after another (`FileSystem.run_schedule`).
-/

namespace NestedStyles

namespace Build

/-- How far the build of an input is. -/
inductive Call where
  | ready
  /-- The style file is read and compiled. -/
  | read (sheet : Sheet)
  | ended (result : Output × List String)
  | failed (error : BuildError)
deriving DecidableEq

/-- The builds of the inputs, and the state of the files that they share. -/
structure Calls (σ : Type) where
  call : String → Call
  state : σ

namespace Calls

variable {σ : Type}

/-- No build has begun. -/
def start (s : σ) : Calls σ := ⟨fun _ => .ready, s⟩

/-- The build of one input is further, in a new state. -/
def set (calls : Calls σ) (path : String) (call : Call) (s : σ) : Calls σ :=
  ⟨fun other => if other = path then call else calls.call other, s⟩

section Steps

variable (files : Files (StateM σ)) (options : Options) (arguments : Arguments)

/-- The next step of the build of an input. -/
def step (calls : Calls σ) (path : String) : Calls σ :=
  match calls.call path with
  | .ready =>
    match (readSheet files options arguments path).run calls.state with
    | (.ok sheet, s) => calls.set path (.read sheet) s
    | (.error e, s) => calls.set path (.failed e) s
  | .read sheet =>
    match (writeSheet files arguments sheet).run calls.state with
    | (.ok result, s) => calls.set path (.ended result) s
    | (.error e, s) => calls.set path (.failed e) s
  | _ => calls

/-- The steps of a schedule, which names the input whose build is next. -/
def run (calls : Calls σ) (schedule : List String) : Calls σ :=
  schedule.foldl (step files options arguments) calls

end Steps

@[simp] theorem call_set_self (calls : Calls σ) (path : String) (call : Call) (s : σ) :
    (calls.set path call s).call path = call := if_pos rfl

theorem call_set_other (calls : Calls σ) {path other : String} (h : other ≠ path) (call : Call)
    (s : σ) : (calls.set path call s).call other = calls.call other := if_neg h

variable {files : Files (StateM σ)} {options : Options} {arguments : Arguments}

/-- A step of one build leaves the others where they are. -/
theorem call_step_other (calls : Calls σ) {path other : String} (h : other ≠ path) :
    (step files options arguments calls path).call other = calls.call other := by
  unfold step
  split
  · split <;> exact call_set_other calls h _ _
  · split <;> exact call_set_other calls h _ _
  · rfl

/-- A build that has failed makes no more steps. -/
theorem call_run_of_failed {calls : Calls σ} {path : String} {e : BuildError}
    (h : calls.call path = .failed e) (schedule : List String) :
    (run files options arguments calls schedule).call path = .failed e := by
  induction schedule generalizing calls with
  | nil => exact h
  | cons next rest ih =>
    refine ih ?_
    by_cases hpath : path = next
    · rw [step, ← hpath, h]
      exact h
    · rw [call_step_other calls hpath, h]

end Calls

end Build

namespace FileSystem

open Build

variable {σ : Type} (system : FileSystem σ) {options : Options} {arguments : Arguments}
  {paths : List String} {start s s' : σ}

/-! ## One step -/

/-- No build has failed: those that have ended have written their stylesheets as they compile from
the first state, and those that wait to write have the same. -/
structure Sound (options : Options) (arguments : Arguments) (start : σ) (paths : List String)
    (calls : Calls σ) : Prop where
  started : ∀ path, calls.call path ≠ .ready → path ∈ paths
  read : ∀ path sheet, calls.call path = .read sheet →
    (readSheet system.files options arguments path).run start = (.ok sheet, start)
  ended : ∀ path result, calls.call path = .ended result → ∃ sheet,
    (readSheet system.files options arguments path).run start = (.ok sheet, start) ∧
      result = sheet.result
  written : system.Written options arguments start calls.state
    fun path => ∃ result, calls.call path = .ended result

variable {system} {calls : Calls σ} {path : String}

/-- At first the builds are sound. -/
theorem Sound.of_start (s : σ) : system.Sound options arguments s paths (Calls.start s) where
  started _ h := absurd rfl h
  read _ _ h := by simp [Calls.start] at h
  ended _ _ h := by simp [Calls.start] at h
  written := by simpa [Calls.start] using Written.refl s

/-- The builds stay sound if the one that is further is. -/
theorem Sound.set (h : system.Sound options arguments start paths calls) (hpath : path ∈ paths)
    {call : Call}
    (hread : ∀ sheet, call = .read sheet →
      (readSheet system.files options arguments path).run start = (.ok sheet, start))
    (hended : ∀ result, call = .ended result → ∃ sheet,
      (readSheet system.files options arguments path).run start = (.ok sheet, start) ∧
        result = sheet.result)
    (hwritten : system.Written options arguments start s
      fun other => ∃ result, (calls.set path call s).call other = .ended result) :
    system.Sound options arguments start paths (calls.set path call s) := by
  refine ⟨fun other hother => ?_, fun other sheet hother => ?_, fun other result hother => ?_,
    hwritten⟩
  all_goals
    by_cases heq : other = path
  · exact heq ▸ hpath
  · exact h.started other (calls.call_set_other heq call s ▸ hother)
  · exact heq ▸ hread sheet (by simpa [heq] using hother)
  · exact h.read other sheet (calls.call_set_other heq call s ▸ hother)
  · exact heq ▸ hended result (by simpa [heq] using hother)
  · exact h.ended other result (calls.call_set_other heq call s ▸ hother)

/-- A step fails, or it leaves the builds sound. -/
theorem Sound.step (h : system.Sound options arguments start paths calls)
    (hpaths : paths.Pairwise fun path other => Path.stem? path ≠ Path.stem? other)
    (hpath : path ∈ paths) :
    (∃ e, (Calls.step system.files options arguments calls path).call path =
        .failed e) ∨
      system.Sound options arguments start paths
        (Calls.step system.files options arguments calls path) := by
  have hnew (hcall : ∀ result, calls.call path ≠ .ended result) (other : String)
      (hother : ∃ result, calls.call other = .ended result) :
      Path.stem? path ≠ Path.stem? other := by
    obtain ⟨result, hresult⟩ := hother
    refine stem?_ne_of_pairwise hpaths hpath (h.started other (by simp [hresult])) fun heq => ?_
    exact hcall result (heq ▸ hresult)
  unfold Calls.step
  cases hcall : calls.call path with
  -- What is read now would have been read at first: no stylesheet so far is the file of this input.
  | ready =>
    rcases hrun : (readSheet system.files options arguments path).run calls.state with
      ⟨e | sheet, s₁⟩
    · exact Or.inl ⟨e, by simp⟩
    obtain ⟨rfl, -⟩ := system.readSheet_eq_ok hrun
    have hread := (h.written.read (hnew (by simp [hcall]))).mp hrun
    refine Or.inr (h.set hpath (fun other heq => ?_) (fun result heq => by simp at heq) ?_)
    · exact Call.read.inj heq ▸ hread
    · have hsame (other : String) :
          (∃ result, (calls.set path (.read sheet) calls.state).call other = .ended result) =
            ∃ result, calls.call other = .ended result := by
        by_cases heq : other = path
        · simp [heq, hcall]
        · rw [calls.call_set_other heq]
      simpa only [hsame] using h.written
  | read sheet =>
    dsimp only
    rcases hrun : (writeSheet system.files arguments sheet).run calls.state with
      ⟨e | result, s₁⟩
    · exact Or.inl ⟨e, by simp⟩
    have hread := h.read path sheet hcall
    obtain ⟨hresult, -⟩ := system.writeSheet_eq_ok.mp hrun
    refine Or.inr (h.set hpath (fun other heq => by simp at heq) (fun other heq => ?_) ?_)
    · exact ⟨sheet, hread, Call.ended.inj heq ▸ hresult⟩
    · have hsame (other : String) :
          (∃ last, (calls.set path (.ended result) s₁).call other = .ended last) =
            (other = path ∨ ∃ last, calls.call other = .ended last) := by
        by_cases heq : other = path
        · simp [heq]
        · rw [calls.call_set_other heq]
          simp [heq]
      simpa only [hsame] using h.written.write hread hrun (hnew (by simp [hcall]))
  | ended result => exact Or.inr h
  | failed e => exact Or.inl ⟨e, hcall⟩

/-! ## A schedule -/

/-- Some build fails, or the builds stay sound. -/
theorem Sound.run (h : system.Sound options arguments start paths calls)
    (hpaths : paths.Pairwise fun path other => Path.stem? path ≠ Path.stem? other)
    {schedule : List String} (hschedule : ∀ path ∈ schedule, path ∈ paths) :
    (∃ path ∈ paths, ∃ e, (Calls.run system.files options arguments calls schedule).call path =
        .failed e) ∨
      system.Sound options arguments start paths
        (Calls.run system.files options arguments calls schedule) := by
  induction schedule generalizing calls with
  | nil => exact Or.inr h
  | cons path rest ih =>
    obtain ⟨hpath, hrest⟩ := List.forall_mem_cons.mp hschedule
    rcases h.step hpaths hpath with ⟨e, hfailed⟩ | hsound
    · exact Or.inl ⟨path, hpath, e, Calls.call_run_of_failed hfailed rest⟩
    · exact ih hsound hrest

/-- Builds one after another succeed where the stylesheets are compiled and can be written in the
first state. -/
theorem Written.exists_mapM {built : String → Prop} {results : String → Output × List String}
    (h : system.Written options arguments start s built)
    (hpaths : paths.Pairwise fun path other => Path.stem? path ≠ Path.stem? other)
    (hnew : ∀ path ∈ paths, ∀ other, built other → Path.stem? path ≠ Path.stem? other)
    (hsheets : ∀ path ∈ paths, ∃ sheet,
      (readSheet system.files options arguments path).run start = (.ok sheet, start) ∧
        ((system.files.write (sheetPath arguments sheet.name) (sheet.css ++ "\n")).run start).1 =
          .ok () ∧ results path = sheet.result) :
    ∃ s', (paths.mapM (Build.buildFile system.files options arguments)).run s =
      (.ok (paths.map results), s') := by
  induction paths generalizing s built with
  | nil => exact ⟨s, rfl⟩
  | cons path rest ih =>
    obtain ⟨hfirst, hothers⟩ := List.pairwise_cons.mp hpaths
    obtain ⟨⟨sheet, hread, hwritable, hresult⟩, hrest⟩ := List.forall_mem_cons.mp hsheets
    obtain ⟨hnewPath, hnewRest⟩ := List.forall_mem_cons.mp hnew
    have hagain := (h.read hnewPath).mpr hread
    obtain ⟨s₁, hwrite⟩ : ∃ s₁, (writeSheet system.files arguments sheet).run s =
        (.ok sheet.result, s₁) :=
      ⟨_, system.writeSheet_eq_ok.mpr
        ⟨rfl, Prod.ext (system.write_again hwritable h.directories _) rfl⟩⟩
    obtain ⟨s', hothersRun⟩ := ih (h.write hread hwrite hnewPath) hothers
      (fun other hother earlier hearlier => by
        rcases hearlier with rfl | hearlier
        · exact (hfirst other hother).symm
        · exact hnewRest other hother earlier hearlier) hrest
    refine ⟨s', ?_⟩
    rw [List.mapM_cons, run_bind_of_ok (buildFile_eq system.files options arguments path ▸
      (run_bind_of_ok hagain _).trans hwrite), run_bind_of_ok hothersRun, ← hresult]
    rfl

/-- Two states with the same stylesheets written have the same texts. -/
theorem Written.text?_eq {built : String → Prop}
    (h : system.Written options arguments start s built)
    (h' : system.Written options arguments start s' built) (p : system.Place) :
    system.text? s p = system.text? s' p := by
  by_cases hp : ∃ path name, built path ∧ Path.stem? path = some name ∧
      p = system.place (sheetPath arguments name)
  · obtain ⟨path, name, hbuilt, hname, rfl⟩ := hp
    obtain ⟨sheet, hread, -, htext⟩ := h.sheet path hbuilt
    obtain ⟨sheet', hread', -, htext'⟩ := h'.sheet path hbuilt
    obtain ⟨-, hsheet, -⟩ := system.readSheet_eq_ok hread
    obtain rfl : sheet = sheet' := Except.ok.inj (Prod.mk.inj (hread.symm.trans hread')).1
    obtain rfl : name = sheet.name := Option.some.inj (hname.symm.trans hsheet)
    exact htext.trans htext'.symm
  · have hother (path name : String) (hbuilt : built path) (hname : Path.stem? path = some name) :
        p ≠ system.place (sheetPath arguments name) :=
      fun heq => hp ⟨path, name, hbuilt, hname, heq⟩
    rw [h.other p hother, h'.other p hother]

/-! ## Any order -/

/-- Builds at the same time do not depend on the order of their steps. If the inputs are accepted
and all their builds succeed, in whatever order they make their steps, then they succeed one after
another, with the same results, and every file has the same text at the end. No build reads a file
that another one writes. -/
theorem run_schedule (system : FileSystem σ) (hnames : distinctNames arguments.inputs = .ok ())
    {schedule : List String} (hschedule : ∀ path ∈ schedule, path ∈ arguments.inputs)
    {results : String → Output × List String}
    (hended : ∀ path ∈ arguments.inputs,
      (Calls.run system.files options arguments (Calls.start s) schedule).call path =
        .ended (results path)) :
    (∃ s', (arguments.inputs.mapM (buildFile system.files options arguments)).run s =
        (.ok (arguments.inputs.map results), s') ∧
      ∀ p, system.text? s' p = system.text?
        (Calls.run system.files options arguments (Calls.start s) schedule).state p) ∧
      ∀ path ∈ arguments.inputs, ∀ other ∈ arguments.inputs, path ≠ other →
        ∀ name, Path.stem? other = some name →
          system.place path ≠ system.place (sheetPath arguments name) := by
  obtain ⟨hstems, hpairwise⟩ := pairwise_of_distinctNames hnames
  refine ⟨?_, fun path hpath other hother hne name hname => ?_⟩
  · have hsound : system.Sound options arguments s arguments.inputs
        (Calls.run system.files options arguments (Calls.start s) schedule) := by
      refine ((Sound.of_start s).run hpairwise hschedule).resolve_left ?_
      rintro ⟨path, hpath, e, hfailed⟩
      exact absurd (hfailed.symm.trans (hended path hpath)) (by simp)
    have hbuilt (path : String) : (∃ result, (Calls.run system.files options arguments
        (Calls.start s) schedule).call path = .ended result) = (path ∈ arguments.inputs) := by
      refine propext ⟨fun ⟨result, hresult⟩ => ?_, fun hpath => ⟨_, hended path hpath⟩⟩
      exact hsound.started path (by simp [hresult])
    have hwritten := hsound.written
    simp only [hbuilt] at hwritten
    -- What was read and written in this order can be read and written in the first state.
    obtain ⟨s', hrun⟩ := (Written.refl s).exists_mapM hpairwise (fun _ _ _ h => h.elim)
      fun path hpath => by
        obtain ⟨sheet, hread, hresult⟩ := hsound.ended path _ (hended path hpath)
        obtain ⟨other, hother, hwritable, -⟩ := hwritten.sheet path hpath
        obtain rfl : sheet = other := Except.ok.inj (Prod.mk.inj (hread.symm.trans hother)).1
        exact ⟨sheet, hread, hwritable, hresult⟩
    obtain ⟨hsequential, -⟩ := (Written.refl s).mapM hrun hpairwise fun _ _ _ h => h.elim
    simp only [or_false] at hsequential
    exact ⟨s', hrun, hsequential.text?_eq hwritten⟩
  · obtain ⟨own, hown⟩ := hstems path hpath
    exact system.place_ne_sheet hown hname fun heq =>
      stem?_ne_of_pairwise hpairwise hpath hother hne (hown.trans (heq ▸ hname.symm))

end FileSystem

namespace Disk

open Build

/-- Two builds whose steps cross, one of an input that is in the file of its own stylesheet. -/
theorem run_schedule_crossed :
    let arguments : Arguments := ⟨["a.json", "b.css"], none, ".", false, "styles.css", none⟩
    let disk : Disk :=
      ⟨[], [(["a.json"], "\x7b\"p\": \x7b\"color\": \"red\"\x7d\x7d"), (["b.css"], "\x7b\x7d")]⟩
    let results (path : String) : Output × List String :=
      (outputOf ((Path.stem? path).getD ""), [])
    let crossed := Calls.run system.files .empty arguments (Calls.start disk)
      ["b.css", "a.json", "b.css", "a.json"]
    distinctNames arguments.inputs = .ok () ∧
      (∀ path ∈ arguments.inputs, crossed.call path = .ended (results path)) ∧
      ∃ disk', (arguments.inputs.mapM (buildFile system.files .empty arguments)).run disk =
          (.ok (arguments.inputs.map results), disk') ∧
        ∀ p, disk'.text? p = crossed.state.text? p := by
  intro arguments disk results crossed
  have hnames : distinctNames arguments.inputs = .ok () := rfl
  have hended : ∀ path ∈ arguments.inputs, crossed.call path = .ended (results path) := by
    dsimp only [arguments, crossed, results, disk]
    decide +kernel
  have hschedule : ∀ path ∈ ["b.css", "a.json", "b.css", "a.json"], path ∈ arguments.inputs := by
    dsimp only [arguments]
    decide
  exact ⟨hnames, hended, (system.run_schedule hnames hschedule hended).1⟩

end Disk

end NestedStyles
