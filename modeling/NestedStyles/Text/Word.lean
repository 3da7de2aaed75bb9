import NestedStyles.Text.WordTable

/-!
# Word characters

Letters, marks, decimal digits, connector punctuation and the two joiners.
-/

namespace NestedStyles.Text

/-- A character that may stand inside a word. -/
def isWord (c : Char) : Bool :=
  if c.toNat < 0x80 then c.isAlphanum || c == '_'
  else wordRuns.any fun (first, last) => first ≤ c.toNat && c.toNat ≤ last

end NestedStyles.Text
