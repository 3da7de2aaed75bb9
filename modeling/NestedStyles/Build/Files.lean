/-!
# Files

What a build asks of the files around it.
-/

namespace NestedStyles

/-- Why a file cannot be read or written. -/
inductive FileError where
  | notFound
  | notDirectory
  | isDirectory
  | alreadyThere
  /-- A name, or the path as a whole, has too many bytes. -/
  | nameTooLong
  /-- The path has a character of code point zero. -/
  | zeroInPath
  /-- Any other reason, in the words of the system. -/
  | other (message : String)
deriving DecidableEq

/-- The error in words. -/
def FileError.message : FileError → String
  | .notFound => "No such file or directory (os error 2)"
  | .notDirectory => "Not a directory (os error 20)"
  | .isDirectory => "Is a directory (os error 21)"
  | .alreadyThere => "File exists (os error 17)"
  | .nameTooLong => "File name too long (os error 36)"
  | .zeroInPath => "file name contained an unexpected NUL byte"
  | .other message => message

universe u

/-- The operations on files that a build uses. -/
structure Files (m : Type → Type u) where
  /-- The text of a file. -/
  read : String → m (Except FileError String)
  /-- Writes the text of a file, which takes the place of an earlier one. -/
  write : String → String → m (Except FileError Unit)
  /-- Makes a directory and those above it, unless they are there. -/
  makeDirectories : String → m (Except FileError Unit)

end NestedStyles
