import NestedStyles.Build.Basic

/-!
# The command line

Runs a build on the files of the system. Warnings and failures go to the error output.
-/

namespace NestedStyles

/-- An error of the system as one of a build. -/
def FileError.ofSystem : IO.Error → FileError
  | .noFileOrDirectory .. => .notFound
  | .alreadyExists .. => .alreadyThere
  | .inappropriateType _ 20 _ => .notDirectory
  | .inappropriateType _ 21 _ => .isDirectory
  | error => .other (toString error)

/-- An operation of the system with its error as a value. -/
def attempt {α : Type} (operation : IO α) : IO (Except FileError α) := do
  return (← operation.toBaseIO).mapError FileError.ofSystem

/-- The files of the system. -/
def systemFiles : Files IO where
  read path := attempt (IO.FS.readFile path)
  write path text := attempt (IO.FS.writeFile path text)
  makeDirectories path := attempt (IO.FS.createDirAll path)

/-- How the program is called. -/
def usageText : String :=
  "usage: INPUTS... [-c|--config FILE] [-o|--out-dir DIR] [--layers] [--main NAME]" ++
    " [--variables FILE]"

/-- What is wrong with the arguments. -/
def UsageError.message : UsageError → String
  | .missingInput => "a style file is required"
  | .help => "compiles nested style trees to CSS"
  | .unknownOption => "an option is not known"
  | .repeatedOption => "an option is given twice"
  | .missingValue => "a value is missing"
  | .needlessValue => "an option takes no value"

end NestedStyles

open NestedStyles in
/-- Builds what the arguments ask for. -/
def main (arguments : List String) : IO UInt32 := do
  match Arguments.read arguments with
  | .error usage =>
    IO.eprintln (usage.message ++ "\n" ++ usageText)
    return if usage = .help then 0 else 2
  | .ok arguments =>
    match ← (Build.run systemFiles arguments).run with
    | .error error =>
      IO.eprintln ("Build failed: " ++ error.message)
      return 1
    | .ok built =>
      built.warnings.forM IO.eprintln
      IO.eprintln ("Build completed: " ++ Nat.repr built.outputs.length ++ " stylesheet(s).")
      return 0
