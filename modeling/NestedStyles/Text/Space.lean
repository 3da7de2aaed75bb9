/-!
# White space and lines

White space is the Unicode property `White_Space`: a zero width space and a byte order mark are
not in it. Trimming takes the longest run off either end, and `lines` reads a text as lines each
ended by a line feed, with or without a carriage return before it.
-/

namespace NestedStyles.Text

/-- The 25 characters of the Unicode property `White_Space`. -/
def isSpace (c : Char) : Bool :=
  let n := c.toNat
  (0x9 ≤ n && n ≤ 0xD) || n == 0x20 || n == 0x85 || n == 0xA0 || n == 0x1680 ||
    (0x2000 ≤ n && n ≤ 0x200A) || n == 0x2028 || n == 0x2029 || n == 0x202F || n == 0x205F ||
    n == 0x3000

/-- Core's white space is white space here. -/
theorem isSpace_of_isWhitespace {c : Char} (h : c.isWhitespace = true) : isSpace c = true := by
  simp only [Char.isWhitespace, Bool.or_eq_true, decide_eq_true_eq] at h
  rcases h with ((rfl | rfl) | rfl) | rfl <;> decide

/-- The text without its leading white space. -/
def trimStart (text : List Char) : List Char := text.dropWhile isSpace

/-- The text without its trailing white space. -/
def trimEnd (text : List Char) : List Char := (text.reverse.dropWhile isSpace).reverse

/-- The text without white space at either end. -/
def trim (text : List Char) : List Char := trimEnd (trimStart text)

/-- A string without white space at either end. -/
def trimmed (s : String) : String := String.ofList (trim s.toList)

/-- A string without its leading white space. -/
def trimmedStart (s : String) : String := String.ofList (trimStart s.toList)

/-- White space only, or nothing at all. -/
def isBlank (s : String) : Bool := s.toList.all isSpace

/-- A line without the carriage return that ends it, if one does. -/
def withoutReturn (line : List Char) : List Char :=
  if line.getLast? = some '\r' then line.dropLast else line

/-- The lines of a text. Text behind the last line feed is a line only if there is some, and it
keeps a carriage return at its end. -/
def lines (text : List Char) : List (List Char) :=
  let pieces := text.splitOn '\n'
  pieces.dropLast.map withoutReturn ++ (pieces.getLast?.toList.filter fun last => !last.isEmpty)

end NestedStyles.Text
