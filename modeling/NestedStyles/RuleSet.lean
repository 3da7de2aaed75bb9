import NestedStyles.Entries
import NestedStyles.Value.Url

/-!
# Rule sets

A rule set holds the declarations of selectors. Selectors and the properties of a selector stand in
the order in which they were first written, and a later value takes the place of an earlier one.
-/

namespace NestedStyles

/-- Properties with their values. -/
abbrev Declarations := Entries String

/-- Selectors with their declarations. -/
abbrev RuleSet := Entries Declarations

namespace Declarations

/-- A declaration on its line. -/
def line (declaration : String × String) : String :=
  "  " ++ declaration.1 ++ ": " ++ Url.requote declaration.2 ++ ";"

end Declarations

namespace RuleSet

/-- Writes a declaration of a selector. -/
def declare (rules : RuleSet) (selector property value : String) : RuleSet :=
  rules.upsert selector fun declarations => (declarations.getD []).insert property value

/-- No selector has a declaration. -/
def isEmpty (rules : RuleSet) : Bool := rules.all fun rule => rule.2.isEmpty

/-- A selector with its declarations. -/
def rule (rule : String × Declarations) : String :=
  "\n".intercalate ((rule.1 ++ " \x7b") :: rule.2.map Declarations.line ++ ["\x7d"])

/-- The rules that have declarations, with a blank line between them. -/
def css (rules : RuleSet) : String :=
  "\n\n".intercalate ((rules.filter fun rule => !rule.2.isEmpty).map RuleSet.rule)

end RuleSet

end NestedStyles
