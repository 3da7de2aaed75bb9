import NestedStyles.Text.Space

/-!
# Layout of a stylesheet

A block stands in braces below its header, indented by two spaces. One blank line separates the
sections of a stylesheet.
-/

namespace NestedStyles.Layout

/-- The text with every line but the empty ones indented. -/
def indent (spaces : Nat) (text : String) : String :=
  let pad (line : List Char) := if line.isEmpty then [] else List.replicate spaces ' ' ++ line
  String.ofList (['\n'].intercalate ((Text.lines text.toList).map pad))

/-- A block below its header. -/
def block (header body : String) : String := header ++ " \x7b\n" ++ indent 2 body ++ "\n\x7d"

/-- The sections that are not blank, without white space around them. -/
def sections (texts : List String) : String :=
  "\n\n".intercalate ((texts.map Text.trimmed).filter (· != ""))

end NestedStyles.Layout
