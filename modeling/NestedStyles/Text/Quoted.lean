import NestedStyles.Text.ShapelessTable
import NestedStyles.Text.Units

/-!
# Quoted text in messages

A text that a message quotes stands in double quotes. A quote or backslash in it follows a
backslash, the common controls have their letter, and a character without a shape of its own is
written by its code point.
-/

namespace NestedStyles.Text

/-- A character that a quotation writes by its code point. -/
def isShapeless (c : Char) : Bool :=
  if c.toNat < 0x80 then c.toNat < 0x20 || c.toNat == 0x7F
  else shapelessRuns.any fun (first, last) => first ≤ c.toNat && c.toNat ≤ last

/-- One character as it stands in a quotation. -/
def quotedChar (c : Char) : List Char :=
  if c == Char.ofNat 0 then ['\\', '0']
  else if c == '\t' then ['\\', 't']
  else if c == '\r' then ['\\', 'r']
  else if c == '\n' then ['\\', 'n']
  else if c == '\\' || c == '\x22' then ['\\', c]
  else if isShapeless c then ['\\', 'u', '\x7b'] ++ hex c.toNat ++ ['\x7d']
  else [c]

/-- A text in double quotes. -/
def quoted (s : String) : String :=
  String.ofList ('\x22' :: s.toList.flatMap quotedChar ++ ['\x22'])

end NestedStyles.Text
