import NestedStyles.Build.Basic
import NestedStyles.Proofs.Alternatives
import NestedStyles.Proofs.Results

/-!
# Names of stylesheets

The stylesheet of a file is named after the file, up to the first point. The path of a stylesheet
is that of its directory with its name behind it (`Path.steps_join`), so it ends in the name
(`Path.fileName?_sheet`), and a file that is named like a stylesheet has a stylesheet of that name
itself (`Path.stem?_of_sheet`).
-/

namespace NestedStyles

namespace Path

/-! ## The last name of a path -/

theorem splitOn_append_slash {front back : List Char} (hback : '/' ∉ back) :
    (front ++ '/' :: back).splitOn '/' = front.splitOn '/' ++ [back] := by
  have hsingle : back.splitOnP (· == '/') = [back] := List.splitOn_eq_singleton hback
  rw [List.splitOn, List.splitOnP_append_cons front back (by simp), hsingle]
  rfl

/-- Behind the last slash stands the last name of a path, or nothing. -/
theorem steps_of_slash {path front file : String}
    (h : path.toList = front.toList ++ '/' :: file.toList) (hslash : '/' ∉ file.toList) :
    steps path = steps front ++ [file].filter (· != "") := by
  rw [steps, h, splitOn_append_slash hslash, List.map_append, List.filter_append]
  simp [steps]

theorem beginsWith_slash_append {front : String} (h : front ≠ "") (back : String) :
    Text.beginsWith "/" (front ++ back) = Text.beginsWith "/" front := by
  obtain ⟨c, rest, hc⟩ := List.exists_cons_of_ne_nil (mt String.toList_eq_nil_iff.mp h)
  rw [Text.beginsWith, Text.beginsWith, String.toList_append, hc]
  simp [List.isPrefixOf]

section Join

variable {directory file : String} (hslash : '/' ∉ file.toList)

include hslash

theorem not_beginsWith_slash : Text.beginsWith "/" file = false :=
  Bool.eq_false_iff.mpr fun hbegins => by
    obtain ⟨rest, hrest⟩ := List.isPrefixOf_iff_prefix.mp hbegins
    exact hslash (hrest ▸ by simp)

/-- The path of a file begins where that of its directory does. -/
theorem beginsWith_join :
    Text.beginsWith "/" (join directory file) = Text.beginsWith "/" directory := by
  have hfile := not_beginsWith_slash hslash
  unfold join
  rw [hfile, if_neg (by simp)]
  split
  · by_cases hempty : directory = ""
    · rw [hempty, String.empty_append, hfile]
      rfl
    · exact beginsWith_slash_append hempty _
  · next hdirectory =>
    have hempty : directory ≠ "" := fun h => hdirectory (by simp [h])
    rw [String.append_assoc, beginsWith_slash_append hempty]

variable (hne : file ≠ "")

include hne

/-- The path of a file in a directory is that of the directory with one more name. -/
theorem steps_join : steps (join directory file) = steps directory ++ [file] := by
  have hfile : [file].filter (· != "") = [file] := by simp [hne]
  unfold join
  rw [not_beginsWith_slash hslash, if_neg (by simp)]
  split
  · next hdirectory =>
    rcases Bool.or_eq_true_iff.mp hdirectory with hempty | hlast
    · obtain rfl := beq_iff_eq.mp hempty
      rw [String.empty_append, steps, List.splitOn_eq_singleton hslash]
      simp [steps, hne]
    -- The slash at the end of the directory stands in front of the name.
    · obtain ⟨front, hfront⟩ := List.getLast?_eq_some_iff.mp (beq_iff_eq.mp hlast)
      have hinner : directory.toList = (String.ofList front).toList ++ '/' :: "".toList := by
        simpa using hfront
      have houter : (directory ++ file).toList =
          (String.ofList front).toList ++ '/' :: file.toList := by
        rw [String.toList_append, hfront]
        simp
      rw [steps_of_slash houter hslash, steps_of_slash hinner (by simp), hfile]
      simp
  · rw [@steps_of_slash _ directory file (by simp) hslash, hfile]

/-- The path of a file in a directory ends in the name of the file. -/
theorem fileName?_join (hdot : file ≠ ".") (hup : file ≠ "..") :
    fileName? (join directory file) = some file := by
  have hlast : (names (join directory file)).getLast? = some file := by
    rw [names, steps_join hslash hne, List.filter_append]
    simp [hdot]
  rw [fileName?, hlast]
  split
  · next heq => exact absurd (Option.some.inj heq) hup
  · rfl

end Join

theorem mem_splitOn_of_fileName? {path file : String} (h : fileName? path = some file) :
    file.toList ∈ path.toList.splitOn '/' := by
  have hlast : (names path).getLast? = some file := by
    unfold fileName? at h
    split at h
    · simp at h
    · exact h
  have hmem := List.mem_of_getLast? hlast
  obtain ⟨piece, hpiece, rfl⟩ := List.mem_map.mp (List.mem_filter.mp (List.mem_filter.mp hmem).1).1
  rwa [String.toList_ofList]

/-! ## The name of a stylesheet -/

/-- A stylesheet is named after the file up to the first point. -/
theorem stem?_eq_some_iff {path name : String} : stem? path = some name ↔
    ∃ file, fileName? path = some file ∧ name.toList = file.toList.takeWhile (· != '.') ∧
      name ≠ "" := by
  unfold stem?
  rw [Option.bind_eq_some_iff]
  refine exists_congr fun file => and_congr_right fun _ => ?_
  cases hstem : file.toList.takeWhile (· != '.') with
  | nil => simp [← String.toList_eq_nil_iff]
  | cons c rest =>
    dsimp only
    rw [Option.some.injEq]
    constructor
    · rintro rfl
      exact ⟨String.toList_ofList, by simp [← String.toList_eq_nil_iff]⟩
    · rintro ⟨hname, -⟩
      rw [← hname, String.ofList_toList]

/-- The name of a stylesheet has no point and no slash. -/
theorem not_mem_of_stem? {path name : String} (h : stem? path = some name) :
    '.' ∉ name.toList ∧ '/' ∉ name.toList := by
  obtain ⟨file, hfile, hname, -⟩ := stem?_eq_some_iff.mp h
  have hslash := Selector.not_mem_of_mem_splitOn (mem_splitOn_of_fileName? hfile)
  rw [hname]
  exact ⟨fun hmem => by simpa using List.all_eq_true.mp List.all_takeWhile _ hmem,
    fun hmem => hslash (List.takeWhile_subset _ hmem)⟩

/-- The name of the file of a stylesheet is longer than its extension. -/
theorem sheet_ne {name other : String} (h : other.toList.length < 4) : name ++ ".css" ≠ other := by
  rintro rfl
  rw [String.toList_append, List.length_append] at h
  exact absurd h (by simp)

/-- The path of a stylesheet ends in its name. -/
theorem fileName?_sheet {name : String} (hslash : '/' ∉ name.toList) (directory : String) :
    fileName? (join directory (name ++ ".css")) = some (name ++ ".css") :=
  fileName?_join (by simpa using hslash) (sheet_ne (by decide)) (sheet_ne (by decide))
    (sheet_ne (by decide))

/-- A file that is named like a stylesheet has a stylesheet of that name. -/
theorem stem?_of_sheet {path name file : String} (h : stem? path = some name)
    (hfile : fileName? file = some (name ++ ".css")) : stem? file = some name := by
  obtain ⟨-, -, -, hne⟩ := stem?_eq_some_iff.mp h
  obtain ⟨hpoint, -⟩ := not_mem_of_stem? h
  refine stem?_eq_some_iff.mpr ⟨_, hfile, ?_, hne⟩
  have hall (c : Char) (hc : c ∈ name.toList) : (c != '.') = true :=
    bne_iff_ne.mpr fun heq => hpoint (heq ▸ hc)
  rw [String.toList_append, List.takeWhile_append_of_pos hall]
  exact (List.append_nil _).symm

end Path

namespace Build

theorem layerName_eq_ok_iff {path name : String} :
    layerName path = .ok name ↔ Path.stem? path = some name := by
  unfold layerName
  cases Path.stem? path <;> simp

theorem layerName_eq_error_iff {path : String} {error : BuildError} :
    layerName path = .error error ↔ Path.stem? path = none ∧ error = .unnamed path := by
  unfold layerName
  cases Path.stem? path <;> simp [eq_comm]

end Build

end NestedStyles
