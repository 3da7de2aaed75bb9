import Mathlib.Data.List.Pairwise
import Mathlib.Order.Bounds.Defs
import NestedStyles.Proofs.FileSystem

/-!
# Inputs with names of their own

An input is judged by those before it: it offends if it has no name or the name of one of them
(`Build.offence?`). The check judges the inputs one after another and ends at the first that offends
(`Build.checkNames_outcome`), so that inputs are accepted exactly if they have names of their own
(`Build.distinctNames_eq_ok_iff`) and the error is that of the first input that has none
(`Build.distinctNames_first_offender`).
-/

namespace NestedStyles

/-- A stylesheet stands in the directory that it is written to. -/
theorem Disk.place_sheet {name : String} (hslash : '/' ∉ name.toList) (directory : String) :
    Disk.place (Path.join directory (name ++ ".css")) =
      Disk.place directory ++ [name ++ ".css"] := by
  have hfile : '/' ∉ (name ++ ".css").toList := by simpa using hslash
  rw [Disk.place, Path.steps_join hfile (Path.sheet_ne (by decide)), List.foldl_append, Disk.start,
    Path.beginsWith_join hfile, List.foldl_cons, List.foldl_nil, step,
    if_neg (Path.sheet_ne (by decide)), if_neg (Path.sheet_ne (by decide))]
  rfl

namespace Build

/-! ## One input -/

/-- What is wrong with an input behind others: it has no name, or it has the name of one of them, of
which the first is told. -/
def offence? (earlier : List String) (path : String) : Option BuildError :=
  match Path.stem? path with
  | none => some (.unnamed path)
  | some name =>
    (earlier.find? (Path.stem? · == some name)).map fun first => .sameName first path name

/-- A table of names tells of each name the first of some inputs that has it. -/
def Tells (taken : Entries String) (earlier : List String) : Prop :=
  ∀ name, taken.get? name = earlier.find? (Path.stem? · == some name)

section Step

variable {taken : Entries String} {earlier : List String} {path name : String}

/-- An input with a new name comes into the table. -/
theorem Tells.insert (h : Tells taken earlier) (hname : Path.stem? path = some name)
    (hnew : taken.get? name = none) : Tells (taken.insert name path) (earlier ++ [path]) := by
  intro other
  rw [Entries.insert, Entries.get?_upsert, List.find?_append, ← h other]
  by_cases hother : other = name
  · rw [if_pos hother, hother, hnew, Option.none_or]
    simp [hname]
  · rw [if_neg hother]
    simp [hname, Ne.symm hother]

/-- The check ends at an input that offends. -/
theorem checkNames_of_offence (h : Tells taken earlier) {error : BuildError}
    (hoffence : offence? earlier path = some error) (rest : List String) :
    checkNames taken (path :: rest) = .error error := by
  unfold offence? at hoffence
  rw [checkNames]
  cases hname : Path.stem? path with
  | none =>
    rw [hname] at hoffence
    rw [layerName_eq_error_iff.mpr ⟨hname, rfl⟩, ← Option.some.inj hoffence]
    rfl
  | some name =>
    simp only [hname, ← h name, Option.map_eq_some_iff] at hoffence
    obtain ⟨first, hfirst, rfl⟩ := hoffence
    rw [layerName_eq_ok_iff.mpr hname]
    simp only [bind, Except.bind, hfirst]

/-- The check goes on behind an input that does not offend. -/
theorem exists_tells_of_no_offence (h : Tells taken earlier)
    (hoffence : offence? earlier path = none) :
    ∃ taken', Tells taken' (earlier ++ [path]) ∧
      ∀ rest, checkNames taken (path :: rest) = checkNames taken' rest := by
  unfold offence? at hoffence
  cases hname : Path.stem? path with
  | none => simp [hname] at hoffence
  | some name =>
    simp only [hname, ← h name, Option.map_eq_none_iff] at hoffence
    refine ⟨taken.insert name path, h.insert hname hoffence, fun rest => ?_⟩
    rw [checkNames, layerName_eq_ok_iff.mpr hname]
    simp only [bind, Except.bind, hoffence]

end Step

/-! ## All inputs -/

/-- What is wrong with the input at a place, judged by those before it. -/
def offenceAt? (paths : List String) (j : Nat) : Option BuildError :=
  paths[j]?.bind (offence? (paths.take j))

/-- The inputs are judged one after another, up to the first that offends. -/
theorem checkNames_outcome {taken : Entries String} {earlier : List String}
    (h : Tells taken earlier) (rest : List String) :
    (checkNames taken rest = .ok () ∧
        ∀ j, earlier.length ≤ j → offenceAt? (earlier ++ rest) j = none) ∨
      ∃ j error, offenceAt? (earlier ++ rest) j = some error ∧
        checkNames taken rest = .error error ∧
        ∀ i, earlier.length ≤ i → i < j → offenceAt? (earlier ++ rest) i = none := by
  induction rest generalizing taken earlier with
  | nil =>
    refine Or.inl ⟨rfl, fun j hj => ?_⟩
    rw [List.append_nil, offenceAt?, List.getElem?_eq_none hj, Option.bind_none]
  | cons path rest ih =>
    have hhere : offenceAt? (earlier ++ path :: rest) earlier.length = offence? earlier path := by
      simp [offenceAt?]
    cases hoffence : offence? earlier path with
    | some error =>
      exact Or.inr ⟨earlier.length, error, hhere.trans hoffence,
        checkNames_of_offence h hoffence rest, fun i hi hlt => absurd hlt (by omega)⟩
    | none =>
      obtain ⟨taken', htaken, hrest⟩ := exists_tells_of_no_offence h hoffence
      have hbehind (i : Nat) (hi : earlier.length ≤ i) :
          i = earlier.length ∨ (earlier ++ [path]).length ≤ i := by
        rw [List.length_append, List.length_singleton]
        omega
      rw [hrest, List.append_cons]
      rw [List.append_cons] at hhere
      rcases ih htaken with ⟨hok, hnone⟩ | ⟨j, error, hj, herror, hnone⟩
      · refine Or.inl ⟨hok, fun i hi => ?_⟩
        rcases hbehind i hi with rfl | hi
        · exact hhere.trans hoffence
        · exact hnone i hi
      · refine Or.inr ⟨j, error, hj, herror, fun i hi hlt => ?_⟩
        rcases hbehind i hi with rfl | hi
        · exact hhere.trans hoffence
        · exact hnone i hi hlt

theorem distinctNames_outcome (paths : List String) :
    (distinctNames paths = .ok () ∧ ∀ j, offenceAt? paths j = none) ∨
      ∃ j error, offenceAt? paths j = some error ∧ distinctNames paths = .error error ∧
        ∀ i < j, offenceAt? paths i = none := by
  have htells : Tells [] [] := fun _ => rfl
  simpa [distinctNames] using checkNames_outcome htells paths

/-! ## Names of their own -/

section Names

variable {paths earlier : List String} {path : String} {j : Nat}

theorem offence?_eq_none_iff : offence? earlier path = none ↔
    ∃ name, Path.stem? path = some name ∧ ∀ other ∈ earlier, Path.stem? other ≠ some name := by
  unfold offence?
  cases hname : Path.stem? path with
  | none => simp
  | some name => simp

/-- No input offends exactly if all of them have names, and no two of them the same. -/
theorem offenceAt?_eq_none_iff : (∀ j, offenceAt? paths j = none) ↔
    (∀ path ∈ paths, ∃ name, Path.stem? path = some name) ∧
      paths.Pairwise fun path other => Path.stem? path ≠ Path.stem? other := by
  have hat (j : Nat) (hj : j < paths.length) :
      offenceAt? paths j = none ↔ ∃ name, Path.stem? paths[j] = some name ∧
        ∀ other ∈ paths.take j, Path.stem? other ≠ some name := by
    rw [offenceAt?, List.getElem?_eq_getElem hj, Option.bind_some, offence?_eq_none_iff]
  rw [List.pairwise_iff_getElem]
  constructor
  · intro h
    refine ⟨fun path hpath => ?_, fun i j hi hj hlt heq => ?_⟩
    · obtain ⟨j, hj, rfl⟩ := List.getElem_of_mem hpath
      obtain ⟨name, hname, -⟩ := (hat j hj).mp (h j)
      exact ⟨name, hname⟩
    · obtain ⟨name, hname, hother⟩ := (hat j hj).mp (h j)
      exact hother _ (List.mem_take_iff_getElem.mpr ⟨i, by omega, rfl⟩) (heq.trans hname)
  · rintro ⟨hnames, hpairwise⟩ j
    by_cases hj : j < paths.length
    · obtain ⟨name, hname⟩ := hnames _ (List.getElem_mem hj)
      refine (hat j hj).mpr ⟨name, hname, fun other hother heq => ?_⟩
      obtain ⟨i, hi, rfl⟩ := List.mem_take_iff_getElem.mp hother
      exact hpairwise i j (by omega) hj (by omega) (heq.trans hname.symm)
    · rw [offenceAt?, List.getElem?_eq_none (by omega), Option.bind_none]

/-- Inputs that are accepted have names, and no two of them have the same. -/
theorem pairwise_of_distinctNames (h : distinctNames paths = .ok ()) :
    (∀ path ∈ paths, ∃ name, Path.stem? path = some name) ∧
      paths.Pairwise fun path other => Path.stem? path ≠ Path.stem? other := by
  rcases distinctNames_outcome paths with ⟨-, hnone⟩ | ⟨_, _, -, herror, -⟩
  · exact offenceAt?_eq_none_iff.mp hnone
  · exact absurd (h.symm.trans herror) (by simp)

theorem distinctNames_eq_ok_iff : distinctNames paths = .ok () ↔
    (∀ path ∈ paths, ∃ name, Path.stem? path = some name) ∧
      paths.Pairwise fun path other => Path.stem? path ≠ Path.stem? other := by
  refine ⟨pairwise_of_distinctNames, fun h => ?_⟩
  rcases distinctNames_outcome paths with ⟨hok, -⟩ | ⟨j, _, hj, -, -⟩
  · exact hok
  · exact absurd (hj.symm.trans (offenceAt?_eq_none_iff.mpr h j)) (by simp)

/-- The names of inputs that have names. -/
theorem exists_names (h : ∀ path ∈ paths, ∃ name, Path.stem? path = some name) :
    ∃ names : List String, paths.map layerName = names.map .ok := by
  induction paths with
  | nil => exact ⟨[], rfl⟩
  | cons path rest ih =>
    obtain ⟨⟨name, hname⟩, hrest⟩ := List.forall_mem_cons.mp h
    obtain ⟨names, hnames⟩ := ih hrest
    exact ⟨name :: names, by rw [List.map_cons, hnames, layerName_eq_ok_iff.mpr hname]; rfl⟩

/-- Different inputs have different names. -/
theorem stem?_ne_of_pairwise
    (h : paths.Pairwise fun path other => Path.stem? path ≠ Path.stem? other)
    {path other : String} (hpath : path ∈ paths) (hother : other ∈ paths) (hne : path ≠ other) :
    Path.stem? path ≠ Path.stem? other := by
  have : Std.Symm fun path other => Path.stem? path ≠ Path.stem? other := ⟨fun _ _ => Ne.symm⟩
  exact h.forall hpath hother hne

end Names

/-! ## The first input that offends -/

/-- The input at a place has no name, or the name of an input before it. -/
def Offends (paths : List String) (j : Nat) : Prop :=
  ∃ path, paths[j]? = some path ∧ ((∃ error, layerName path = .error error) ∨
    ∃ i < j, ∃ other name, paths[i]? = some other ∧ layerName other = .ok name ∧
      layerName path = .ok name)

section First

variable {paths : List String} {path name : String} {j : Nat}

/-- An input offends exactly if something is wrong with it. -/
theorem offends_iff : Offends paths j ↔ ∃ error, offenceAt? paths j = some error := by
  rw [← Option.ne_none_iff_exists', offenceAt?, Offends]
  cases hpath : paths[j]? with
  | none => simp
  | some path =>
    have hlt : j < paths.length := (List.getElem?_eq_some_iff.mp hpath).1
    rw [Option.bind_some, Ne, offence?_eq_none_iff]
    simp only [Option.some.injEq, exists_eq_left', layerName_eq_error_iff, layerName_eq_ok_iff]
    constructor
    · rintro (⟨_, hnone, -⟩ | ⟨i, hi, other, name, hother, hsame, hname⟩) ⟨name', hname', hfresh⟩
      · exact absurd (hnone.symm.trans hname') (by simp)
      · obtain ⟨hlength, rfl⟩ := List.getElem?_eq_some_iff.mp hother
        refine hfresh _ (List.mem_take_iff_getElem.mpr ⟨i, by omega, rfl⟩) ?_
        rw [hsame, ← hname, hname']
    · intro h
      cases hname : Path.stem? path with
      | none => exact Or.inl ⟨_, rfl, rfl⟩
      | some name =>
        right
        by_contra hfresh
        refine h ⟨name, hname, fun other hother hsame => hfresh ?_⟩
        obtain ⟨i, hi, rfl⟩ := List.mem_take_iff_getElem.mp hother
        exact ⟨i, by omega, _, name, List.getElem?_eq_getElem (by omega), hsame, rfl⟩

/-- The error of an input that has the name of others tells of the first of them. -/
theorem exists_first_of_offenceAt? {error : BuildError} (hpath : paths[j]? = some path)
    (hname : layerName path = .ok name) (h : offenceAt? paths j = some error) :
    ∃ i first, IsLeast {i | ∃ other, paths[i]? = some other ∧ layerName other = .ok name} i ∧
      i < j ∧ paths[i]? = some first ∧ error = .sameName first path name := by
  rw [layerName_eq_ok_iff] at hname
  rw [offenceAt?, hpath, Option.bind_some, offence?, hname] at h
  obtain ⟨first, hfind, rfl⟩ := Option.map_eq_some_iff.mp h
  obtain ⟨hfirst, i, hi, hget, hbefore⟩ := List.find?_eq_some_iff_getElem.mp hfind
  rw [List.length_take] at hi
  rw [List.getElem_take] at hget
  have hplace : paths[i]? = some first := List.getElem?_eq_some_iff.mpr ⟨by omega, hget⟩
  refine ⟨i, first, ⟨⟨first, hplace, layerName_eq_ok_iff.mpr (by simpa using hfirst)⟩, ?_⟩,
    by omega, hplace, rfl⟩
  rintro k ⟨other, hother, hsame⟩
  by_contra hlt
  have hno := hbefore k (by omega)
  obtain ⟨hlength, rfl⟩ := List.getElem?_eq_some_iff.mp hother
  rw [List.getElem_take] at hno
  simp [layerName_eq_ok_iff.mp hsame] at hno

theorem layerName_eq_iff {other : String} (h : Path.stem? path = some name) :
    layerName path = layerName other ↔ Path.stem? path = Path.stem? other := by
  rw [layerName_eq_ok_iff.mpr h, eq_comm, layerName_eq_ok_iff, h, eq_comm]

end First

/-- Inputs are accepted exactly if all of them have names and no two have the same. Otherwise the
first that has no name or the name of one before it is told: without a name it is told alone, and
else with the first input of that name and with the stylesheet that both would have. A name is not
empty and has neither a point nor a slash, so the stylesheet of that name stands in its directory
itself. -/
theorem distinctNames_first_offender (paths : List String) :
    (distinctNames paths = .ok () ↔
        (∀ path ∈ paths, ∃ name, layerName path = .ok name) ∧
          paths.Pairwise fun path other => layerName path ≠ layerName other) ∧
      (distinctNames paths ≠ .ok () → ∃ j path, IsLeast {j | Offends paths j} j ∧
        paths[j]? = some path ∧
        (∀ error, layerName path = .error error → distinctNames paths = .error error) ∧
        ∀ name, layerName path = .ok name → ∃ i first,
          IsLeast {i | ∃ other, paths[i]? = some other ∧ layerName other = .ok name} i ∧
            i < j ∧ paths[i]? = some first ∧
            distinctNames paths = .error (.sameName first path name) ∧
            (BuildError.sameName first path name).message =
              first ++ " and " ++ path ++ " both compile to " ++ (outputOf name).file) ∧
      ∀ path name, layerName path = .ok name →
        name ≠ "" ∧ '.' ∉ name.toList ∧ '/' ∉ name.toList ∧ (outputOf name).file = name ++ ".css" ∧
          ∀ directory, Disk.place (Path.join directory (outputOf name).file) =
            Disk.place directory ++ [(outputOf name).file] := by
  refine ⟨?_, fun hfailed => ?_, fun path name hname => ?_⟩
  · rw [distinctNames_eq_ok_iff]
    simp only [layerName_eq_ok_iff]
    refine and_congr_right fun hnames => List.Pairwise.iff_of_mem fun {path other} hpath _ => ?_
    obtain ⟨name, hname⟩ := hnames path hpath
    exact not_congr (layerName_eq_iff hname).symm
  · rcases distinctNames_outcome paths with ⟨hok, -⟩ | ⟨j, error, hj, herror, hbefore⟩
    · exact absurd hok hfailed
    have hleast : IsLeast {j | Offends paths j} j := by
      refine ⟨offends_iff.mpr ⟨error, hj⟩, fun i hi => ?_⟩
      obtain ⟨other, hother⟩ := offends_iff.mp hi
      by_contra hlt
      exact absurd ((hbefore i (by omega)).symm.trans hother) (by simp)
    obtain ⟨path, hpath, hoffence⟩ := Option.bind_eq_some_iff.mp hj
    refine ⟨j, path, hleast, hpath, fun error' hunnamed => ?_, fun name hname => ?_⟩
    · obtain ⟨hnone, rfl⟩ := layerName_eq_error_iff.mp hunnamed
      rw [offence?, hnone] at hoffence
      rw [herror, ← Option.some.inj hoffence]
    · obtain ⟨i, first, hfirst, hlt, hplace, rfl⟩ := exists_first_of_offenceAt? hpath hname hj
      exact ⟨i, first, hfirst, hlt, hplace, herror,
        @String.append_assoc (first ++ " and " ++ path ++ " both compile to ") name ".css"⟩
  · rw [layerName_eq_ok_iff] at hname
    obtain ⟨-, -, -, hne⟩ := Path.stem?_eq_some_iff.mp hname
    obtain ⟨hpoint, hslash⟩ := Path.not_mem_of_stem? hname
    exact ⟨hne, hpoint, hslash, rfl, Disk.place_sheet hslash⟩

/-- Two files that are named alike up to the first point, in front of one without a name. -/
theorem distinctNames_first_offender_shared :
    let paths := ["a/base.json", "reset.json", "b/base.styles.json/.", "b/.json"]
    distinctNames paths ≠ .ok () ∧
      (∃ j, IsLeast {j | Offends paths j} j ∧ paths[j]? = some "b/base.styles.json/.") ∧
      distinctNames paths = .error (.sameName "a/base.json" "b/base.styles.json/." "base") ∧
      layerName "b/base.styles.json/." = .ok "base" ∧
      Disk.place (Path.join "out/../css" (outputOf "base").file) = ["css", "base.css"] := by
  intro paths
  have hresult : distinctNames paths =
      .error (.sameName "a/base.json" "b/base.styles.json/." "base") := rfl
  have hfailed : distinctNames paths ≠ .ok () := by simp [hresult]
  obtain ⟨-, hfirst, hnamed⟩ := distinctNames_first_offender paths
  obtain ⟨j, path, hleast, hpath, hunnamed, hshared⟩ := hfirst hfailed
  obtain ⟨-, -, -, -, hplace⟩ := hnamed "b/base.styles.json/." "base" rfl
  refine ⟨hfailed, ⟨j, hleast, ?_⟩, hresult, rfl, hplace "out/../css"⟩
  cases hname : layerName path with
  | error error =>
    have heq := hunnamed error hname
    rw [hresult, (layerName_eq_error_iff.mp hname).2] at heq
    exact absurd heq (by simp)
  | ok name =>
    obtain ⟨_, _, -, -, -, heq, -⟩ := hshared name hname
    obtain ⟨-, rfl, -⟩ := BuildError.sameName.inj (Except.error.inj (hresult.symm.trans heq))
    exact hpath

end Build

end NestedStyles
