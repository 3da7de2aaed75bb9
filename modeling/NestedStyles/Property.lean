import NestedStyles.Text.Case

/-!
# Property and class names

A key in camel case is written with hyphens and without uppercase letters. Hyphens at the start of
a key, as of a vendor property or a custom property, stay as they are.
-/

namespace NestedStyles.Property

/-- A word begins at an uppercase letter behind a lowercase letter or a digit, and at the last
capital of several if a lowercase letter follows it. -/
def startsWord (before : Option Char) (after : Option Char) : Bool :=
  match before with
  | none => false
  | some c => Text.isLower c || c.isDigit || (Text.isUpper c && after.any Text.isLower)

/-- The characters of a key in lowercase, with a hyphen where a word begins. -/
def hyphenate (before : Option Char) : List Char → List Char
  | [] => []
  | c :: rest =>
    if Text.isUpper c then
      (if startsWord before rest.head? then ['-'] else []) ++ Text.lowercase c ++
        hyphenate (some c) rest
    else c :: hyphenate (some c) rest

/-- A key with hyphens for capitals, behind the hyphens it begins with. -/
def kebab (key : List Char) : List Char :=
  key.takeWhile (· == '-') ++ hyphenate none (key.dropWhile (· == '-'))

/-- The CSS name of a key. -/
def name (key : String) : String := String.ofList (kebab key.toList)

end NestedStyles.Property
