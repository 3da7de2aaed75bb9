import NestedStyles.Property
import NestedStyles.Selector.Alternatives
import NestedStyles.Selector.Tag
import NestedStyles.Text.Space

/-!
# Selectors of a path

The keys from the root down to a declaration are joined to one selector. A word is a class of the
current element, a word behind `_` too, and behind `__` a class of a descendant; the name of an
element, `*` and the combinators begin a new compound selector; what begins with `:`, `#`, `[` or
`.` is attached to the current one. A leading `&` makes the next word a descendant.
-/

namespace NestedStyles.Selector

/-- What a piece of a selector is to the piece behind it. -/
inductive Piece where
  /-- A combinator on its own. -/
  | combinator
  /-- A selector that begins with `:root`. -/
  | root
  | compound
deriving DecidableEq

/-- How a piece is joined to what stands before it. -/
inductive Joint where
  /-- As a descendant. -/
  | descendant
  /-- To the current element, but as a descendant of the root or behind a combinator. -/
  | element
  /-- To the current element. -/
  | attached
deriving DecidableEq

/-- The selector of the class that a word names. -/
def className (word : List Char) : List Char := '.' :: Property.kebab word

/-- How a word is joined, its text and what it is. A word that stands for nothing is left out. -/
def piece? (word : List Char) : Option (Joint × List Char × Piece) :=
  match word with
  | [] => none
  | '*' :: _ => some (.descendant, word, .compound)
  | '_' :: '_' :: name =>
    if name.isEmpty then none else some (.descendant, className name, .compound)
  | '_' :: name => if name.isEmpty then none else some (.element, className name, .compound)
  | c :: rest =>
    if c == '>' || c == '+' || c == '~' then
      some (.descendant, c :: ' ' :: Text.trim rest,
        if (Text.trim rest).isEmpty then .combinator else .compound)
    else if c == ':' || c == '#' || c == '[' || c == '.' then
      some (.attached, word,
        if [':', 'r', 'o', 'o', 't'].isPrefixOf word then .root else .compound)
    else if startsWithTag word then some (.descendant, word, .compound)
    else some (.element, className word, .compound)

/-- A selector that is being joined. -/
structure Joining where
  /-- The selector so far. -/
  text : List Char
  /-- The piece at its end. -/
  last : Option Piece
  /-- A `&` was read and no piece behind it. -/
  marked : Bool

namespace Joining

/-- Nothing joined yet. -/
def start : Joining := ⟨[], none, false⟩

/-- The text with a piece behind it as a descendant. -/
def descend (text piece : List Char) : List Char :=
  if text.isEmpty || text.getLast? == some ' ' then text ++ piece else text ++ ' ' :: piece

/-- Joins one word, given without white space around it, with or without a leading `&`. -/
def word (joining : Joining) (token : List Char) : Joining :=
  let marked := joining.marked || token.head? == some '&'
  let word := if token.head? == some '&' then Text.trimStart token.tail else token
  match piece? word with
  | none => { joining with marked }
  | some (joint, piece, kind) =>
    let apart : Bool :=
      match joint with
      | .descendant => true
      | .element =>
        marked || joining.last == some .root || joining.last == some .combinator
      | .attached => marked
    { text := if apart then descend joining.text piece else joining.text ++ piece
      last := some kind
      marked := false }

end Joining

/-- The selector that a list of words is joined to. -/
def join (words : List String) : String :=
  let step (joining : Joining) (word : String) := joining.word (Text.trim word.toList)
  let joining := words.foldl step Joining.start
  String.ofList (Text.trimEnd joining.text)

/-- The selectors of a path of keys: one for each choice of alternatives, each only once. Keys
without an alternative are skipped. -/
def ofPath (keys : List String) : List String :=
  let choices := (keys.map alternatives).filter fun choice => !choice.isEmpty
  (((product choices).map join).filter (· != "")).eraseDups

end NestedStyles.Selector
