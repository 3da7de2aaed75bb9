/-!
# Quotes of a URL

A URL in single quotes is written in double quotes, so that a data URL may hold single quotes. It
ends at the first single quote before a `)`, and one that holds a double quote stays as it is.
-/

namespace NestedStyles.Url

/-- A URL in single quotes ends in this text, and no double quote comes before its end. -/
def closes : List Char → Bool
  | '\x27' :: ')' :: _ => true
  | '\x22' :: _ => false
  | _ :: rest => closes rest
  | [] => false

/-- A URL in single quotes begins here and has an end. -/
def opens : List Char → Bool
  | 'u' :: 'r' :: 'l' :: '(' :: '\x27' :: rest => closes rest
  | _ => false

/-- Where a text is read. -/
inductive Place where
  /-- Outside any URL in single quotes. -/
  | outside
  /-- So many characters before the quote that opens one. -/
  | before (left : Nat)
  /-- Behind the quote that opens one. -/
  | inside

/-- The text with the quotes of every URL in single quotes doubled. -/
def requoteFrom : Place → List Char → List Char
  | _, [] => []
  | .outside, c :: rest => c :: requoteFrom (if opens (c :: rest) then .before 3 else .outside) rest
  | .before (n + 1), c :: rest => c :: requoteFrom (.before n) rest
  | .before 0, _ :: rest => '\x22' :: requoteFrom .inside rest
  | .inside, c :: rest =>
    if c == '\x27' && rest.head? == some ')' then '\x22' :: requoteFrom .outside rest
    else c :: requoteFrom .inside rest

/-- The value with the quotes of every URL in single quotes doubled. -/
def requote (value : String) : String := String.ofList (requoteFrom .outside value.toList)

/-- A character stays a character. -/
theorem length_requoteFrom (place : Place) (text : List Char) :
    (requoteFrom place text).length = text.length := by
  induction text generalizing place with
  | nil => cases place <;> simp [requoteFrom]
  | cons c rest ih =>
    rcases place with - | (- | n) | - <;> simp only [requoteFrom] <;> (try split) <;> simp [ih]

end NestedStyles.Url
