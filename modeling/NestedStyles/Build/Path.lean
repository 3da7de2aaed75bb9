import NestedStyles.Text.Lead

/-!
# Paths

A path is a text with slashes between its names. Empty names stand for nothing, and `.` stands for
the place before it.
-/

namespace NestedStyles.Path

/-- The names that a path is followed by, one after the other. -/
def steps (path : String) : List String :=
  ((path.toList.splitOn '/').map String.ofList).filter (· != "")

/-- The names of a path that lead to another place. -/
def names (path : String) : List String := (steps path).filter (· != ".")

/-- The last name of a path, unless it leads upwards. -/
def fileName? (path : String) : Option String :=
  match (names path).getLast? with
  | some ".." => none
  | last => last

/-- The name of the stylesheet of a file: the file's name up to the first point. -/
def stem? (path : String) : Option String :=
  (fileName? path).bind fun name =>
    match name.toList.takeWhile (· != '.') with
    | [] => none
    | stem => some (String.ofList stem)

/-- The path of a file in a directory. A path from the root stays as it is. -/
def join (directory file : String) : String :=
  if Text.beginsWith "/" file then file
  else if directory == "" || directory.toList.getLast? == some '/' then directory ++ file
  else directory ++ "/" ++ file

end NestedStyles.Path
