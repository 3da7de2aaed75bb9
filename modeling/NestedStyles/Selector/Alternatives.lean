import NestedStyles.Text.Space

/-!
# Alternatives of a selector key

Commas separate the alternatives of a key. A path of keys stands for the product of their
alternatives, and `asDescendant` marks each alternative of a key as a descendant of what comes
before it.
-/

namespace NestedStyles.Selector

universe u

/-- The alternatives of a key without white space around them. Empty ones do not count. -/
def alternatives (key : String) : List String :=
  ((key.toList.splitOn ',').map Text.trim).filterMap fun alternative =>
    if alternative.isEmpty then none else some (String.ofList alternative)

/-- Every choice of one element from each list, the choices from the first list varying slowest. -/
def product {α : Type u} : List (List α) → List (List α)
  | [] => [[]]
  | choices :: rest => choices.flatMap fun choice => (product rest).map (choice :: ·)

/-- The key with every alternative marked as a descendant. -/
def asDescendant (key : String) : String :=
  ", ".intercalate ((alternatives key).map ("& " ++ ·))

end NestedStyles.Selector
