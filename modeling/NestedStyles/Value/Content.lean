import NestedStyles.Text.Space
import NestedStyles.Text.Units
import NestedStyles.Text.Word
import NestedStyles.Value.Css

/-!
# Generated content

The value of a `content` property is CSS already, or it is plain text and has to become a string.
It is CSS if it is a keyword, holds a quoted string or is one function call. Plain text is quoted
with single quotes: printable ASCII with a backslash before a quote and a backslash, and any other
text by the UTF-16 units of all its characters.
-/

namespace NestedStyles.Content

/-- The keywords of a `content` property, in lowercase. -/
def keywords : List String := [
  "normal", "none", "open-quote", "close-quote", "no-open-quote", "no-close-quote", "inherit",
  "initial", "revert", "revert-layer", "unset"]

/-- The text is a keyword, in letters of either case. -/
def isKeyword (text : List Char) : Bool :=
  keywords.contains (String.ofList (text.map Char.toLower))

/-- The text holds a quoted string: a quote at its start, behind white space or behind `)`, and
the same quote again later. `opens` says whether a quote opens a string here. -/
def holdsQuoted (opens : Bool) : List Char → Bool
  | [] => false
  | c :: rest =>
    (opens && (c == '\x27' || c == '\x22') && rest.contains c) ||
      holdsQuoted (Text.isSpace c || c == ')') rest

/-- A character of a function's name. -/
def isNameChar (c : Char) : Bool := Text.isWord c || c == '-'

/-- The text is a name with arguments in parentheses, on one line, and nothing behind them. -/
def isCall (text : List Char) : Bool :=
  !(text.takeWhile isNameChar).isEmpty &&
    match text.dropWhile isNameChar with
    | '(' :: rest => rest.getLast? == some ')' && !rest.contains '\n'
    | _ => false

/-- The text is CSS and not text to be quoted. -/
def isCss (text : List Char) : Bool := holdsQuoted true text || isCall (Text.trim text)

/-- A printable ASCII character. -/
def isPrintable (c : Char) : Bool := ' ' ≤ c && c ≤ '~'

/-- A printable character between single quotes. -/
def escaped (c : Char) : List Char := if c == '\x27' || c == '\\' then ['\\', c] else [c]

/-- A character by its UTF-16 units, each in six hexadecimal digits. -/
def byUnits (c : Char) : List Char :=
  (Text.units c).flatMap fun u => ['\\', '0', '0'] ++ Text.fourHex u

/-- Plain text as a string. -/
def quote (text : List Char) : List Char :=
  '\x27' :: text.flatMap (if text.all isPrintable then escaped else byUnits) ++ ['\x27']

/-- The value of a `content` property, from CSS or plain text. -/
def formatChars (text : List Char) : List Char :=
  if isKeyword (Text.trim text) then Text.trim text
  else if isCss text then text
  else quote text

/-- The value of a `content` property, from CSS or plain text. -/
def format (text : String) : String := String.ofList (formatChars text.toList)

end NestedStyles.Content

namespace NestedStyles

/-- A value as that of a `content` property: a reference to a custom property stands as it is. -/
def Value.content : Value → String
  | .null => "none"
  | .reference css _ => css
  | value => Content.format (value.css?.getD "")

end NestedStyles
