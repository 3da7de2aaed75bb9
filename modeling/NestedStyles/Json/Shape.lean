import NestedStyles.Json.Document
import NestedStyles.Entries
import NestedStyles.Text.Quoted

/-!
# JSON values of a given shape

The readers here go through a value in the order of its text and fail at the first fault: a place
where the text is not well formed, or a value of the wrong shape. A list or object of the wrong
shape is judged by its opening bracket alone.
-/

namespace NestedStyles.Json

/-- What stands in a text in place of what is expected. -/
inductive Found where
  | null
  | bool (b : Bool)
  | integer (n : Int)
  | float (n : Number)
  | text (s : String)
  | list
  | object
deriving DecidableEq

/-- Why a value has the wrong shape. -/
inductive Misshape where
  | type (found : Found) (expected : String)
  /-- A pair has fewer items than two. -/
  | length (items : Nat)
  /-- A field is given twice. -/
  | duplicate (field : String)
deriving DecidableEq

/-- Why a text cannot be read. -/
inductive Fault where
  /-- The text is not well formed. -/
  | malformed
  /-- A value has the wrong shape. -/
  | misshapen (cause : Misshape)
deriving DecidableEq

/-- The value in words. -/
def Found.description : Found → String
  | .null => "null"
  | .bool b => "boolean `" ++ (if b then "true" else "false") ++ "`"
  | .integer n => "integer `" ++ Int.repr n ++ "`"
  | .float n => "floating point `" ++ n.fractionalText ++ "`"
  | .text s => "string " ++ Text.quoted s
  | .list => "sequence"
  | .object => "map"

/-- The fault in words. -/
def Misshape.message : Misshape → String
  | .type found expected =>
    "invalid type: " ++ found.description ++ ", expected " ++ expected
  | .length items => "invalid length " ++ Nat.repr items ++ ", expected a tuple of size 2"
  | .duplicate field => "duplicate field `" ++ field ++ "`"

/-- The fault in words. -/
def Fault.message : Fault → String
  | .malformed => "invalid JSON"
  | .misshapen cause => cause.message

/-- A number as it is reported. -/
def Numeric.found : Numeric → Found
  | .unsigned n => .integer n.toNat
  | .signed n => .integer n.toInt
  | .float n _ => .float n

/-- What a value is reported as, if it is well formed so far. -/
def found : Json → Except Fault Found
  | .null => .ok .null
  | .bool b => .ok (.bool b)
  | .number (some n) => .ok n.found
  | .number none => .error .malformed
  | .text (some s) => .ok (.text s)
  | .text none => .error .malformed
  | .list _ => .ok .list
  | .object _ => .ok .object
  | .broken => .error .malformed

/-- The fault of a value that should be something else. -/
def mismatch {α : Type} (expected : String) (value : Json) : Except Fault α :=
  value.found.bind fun found => .error (.misshapen (.type found expected))

/-- A name that is well formed. -/
def nameOf : Option String → Except Fault String
  | some name => .ok name
  | none => .error .malformed

/-- A string. -/
def asText : Json → Except Fault String
  | .text (some s) => .ok s
  | value => value.mismatch "a string"

/-- A value or null. -/
def asOptional {α : Type} (read : Json → Except Fault α) : Json → Except Fault (Option α)
  | .null => .ok none
  | value => (read value).map some

/-- A list. -/
def asList {α : Type} (read : Json → Except Fault α) : Json → Except Fault (List α)
  | .list items => items.mapM read
  | value => value.mismatch "a sequence"

/-- Two strings in a list. -/
def asPair : Json → Except Fault (String × String)
  | .list [] => .error (.misshapen (.length 0))
  | .list [first] => do
    let _ ← first.asText
    .error (.misshapen (.length 1))
  | .list (first :: second :: more) => do
    let first ← first.asText
    let second ← second.asText
    if more.isEmpty then .ok (first, second) else .error .malformed
  | value => value.mismatch "a tuple of size 2"

/-- An object with values of one kind. -/
def asEntries {α : Type} (read : Json → Except Fault α) : Json → Except Fault (Entries α)
  | .object members =>
    members.foldlM (fun entries (name, value) => do
      let name ← nameOf name
      return entries.insert name (← read value)) []
  | value => value.mismatch "a map"

/-- The members of an object with the given fields, each read on top of those before it. Other
members only have to be well formed. -/
def ofMembers {α : Type} (fields : List String) (read : α → String → Json → Except Fault α) :
    (seen : List String) → α → List (Option String × Json) → Except Fault α
  | _, state, [] => .ok state
  | seen, state, (name, value) :: rest => do
    let name ← nameOf name
    if name ∈ fields then
      if name ∈ seen then .error (.misshapen (.duplicate name))
      else ofMembers fields read (name :: seen) (← read state name value) rest
    else if value.isIntact then ofMembers fields read seen state rest
    else .error .malformed

/-- The items of a list that stand for the given fields, in order. -/
def ofItems {α : Type} (read : α → String → Json → Except Fault α) :
    (fields : List String) → α → List Json → Except Fault α
  | _, state, [] => .ok state
  | [], _, _ :: _ => .error .malformed
  | field :: fields, state, value :: rest => do
    ofItems read fields (← read state field value) rest

/-- A record with the given fields, as an object or as a list of the fields in order. -/
def asRecord {α : Type} (expected : String) (fields : List String)
    (read : α → String → Json → Except Fault α) (start : α) : Json → Except Fault α
  | .object members => ofMembers fields read [] start members
  | .list items => ofItems read fields start items
  | value => value.mismatch expected

/-- Reads a text as a value of some shape, with nothing behind it. -/
def Document.read {α : Type} (read : Json → Except Fault α) (text : String) : Except Fault α := do
  let document := ofText text
  let result ← read document.value
  if document.ends then .ok result else .error .malformed

end NestedStyles.Json
