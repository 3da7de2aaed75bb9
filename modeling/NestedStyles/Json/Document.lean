import NestedStyles.Json.Token

/-!
# JSON texts

`Document.ofTokens` reads tokens with a stack of the lists and objects that are open. Every token
either goes on from one state to the next or breaks the text off, and then everything that is open
ends in `Json.broken`.
-/

namespace NestedStyles.Json

/-- A list or object that is open, with what has been read of it, the last first. -/
inductive Frame where
  | list (before : List Json)
  /-- An object in which a value is due. -/
  | object (before : List (Option String × Json)) (name : Option String)

/-- A value that is put into an open list or object, which ends with it. -/
def Frame.close (value : Json) : Frame → Json
  | .list before => .list (value :: before).reverse
  | .object before name => .object ((name, value) :: before).reverse

/-- What may come next, with the open lists and objects, the innermost first. -/
inductive State where
  /-- A value; `first` in a list that may also end here. -/
  | valueDue (first : Bool) (frames : List Frame)
  /-- The name of a member; `first` in an object that may also end here. -/
  | nameDue (first : Bool) (before : List (Option String × Json)) (frames : List Frame)
  /-- The colon behind a name. -/
  | colonDue (before : List (Option String × Json)) (name : Option String) (frames : List Frame)
  /-- A comma or the end, behind a value. -/
  | behind (value : Json) (frames : List Frame)

/-- The value whose text breaks off in a state. Behind the outermost value there is none. -/
def State.broken : State → Json
  | .valueDue _ frames => frames.foldl Frame.close .broken
  | .nameDue _ before frames => frames.foldl Frame.close ((Frame.object before none).close .broken)
  | .colonDue before name frames =>
    frames.foldl Frame.close ((Frame.object before name).close .broken)
  | .behind value [] => value
  | .behind value (.list before :: frames) =>
    frames.foldl Frame.close ((Frame.list (value :: before)).close .broken)
  | .behind value (.object before name :: frames) =>
    frames.foldl Frame.close ((Frame.object ((name, value) :: before) none).close .broken)

/-- The state behind a token, if the token may come. -/
def State.next? : State → Token → Option State
  | .valueDue true (.list before :: frames), .closeList =>
    some (.behind (.list before.reverse) frames)
  | .valueDue _ frames, .openList => some (.valueDue true (.list [] :: frames))
  | .valueDue _ frames, .openObject => some (.nameDue true [] frames)
  | .valueDue _ frames, .scalar value => some (.behind value frames)
  | .nameDue true before frames, .closeObject => some (.behind (.object before.reverse) frames)
  | .nameDue _ before frames, .scalar (.text name) => some (.colonDue before name frames)
  | .colonDue before name frames, .colon => some (.valueDue false (.object before name :: frames))
  | .behind value (.list before :: frames), .comma =>
    some (.valueDue false (.list (value :: before) :: frames))
  | .behind value (.list before :: frames), .closeList =>
    some (.behind (.list (value :: before).reverse) frames)
  | .behind value (.object before name :: frames), .comma =>
    some (.nameDue false ((name, value) :: before) frames)
  | .behind value (.object before name :: frames), .closeObject =>
    some (.behind (.object ((name, value) :: before).reverse) frames)
  | _, _ => none

/-- A value and whether its text ends with it. -/
structure Document where
  value : Json
  ends : Bool

namespace Document

/-- Reads tokens on from a state. -/
def ofTokens : State → List Token → Document
  | .behind value [], [] => ⟨value, true⟩
  | state, [] => ⟨state.broken, false⟩
  | state, token :: rest =>
    match state.next? token with
    | some next => ofTokens next rest
    | none => ⟨state.broken, false⟩

/-- Reads a text. -/
def ofText (text : String) : Document :=
  ofTokens (.valueDue false []) (Token.ofChars text.toList)

end Document

end NestedStyles.Json
