import NestedStyles.Options.Basic
import NestedStyles.Text.Lead
import NestedStyles.Text.Space

/-!
# What an `@` key refers to

An `@` key names a mode or a media query, or it is a media query in full. A mode comes first, then
the full form, then the name of a media query. The keys of the `@media` map at the root are media
queries, with `@` only if they are named or given in full.
-/

namespace NestedStyles

/-- What an `@` key refers to. -/
inductive Target where
  /-- The mode with this selector. -/
  | mode (selector : String)
  /-- The media query. -/
  | media (query : String)
deriving DecidableEq

namespace Target

/-- The name that an `@` key gives. -/
def name (key : String) : String := Text.trimmedStart ((Text.without? "@" key).getD key)

/-- The media query of a key that gives it in full: `@media`, white space and the query. -/
def literalMedia? (key : String) : Option String :=
  (Text.without? "@media" key).bind fun rest =>
    let query := Text.trimmed rest
    if rest.toList.head?.any Text.isSpace && query != "" then some query else none

/-- What an `@` key refers to. -/
def ofKey? (options : Options) (key : String) : Option Target :=
  ((options.modes.get? (name key)).map mode).or
    (((literalMedia? key).map media).or ((options.queries.get? (name key)).map media))

/-- The media query of an entry of the `@media` map. -/
def mapQuery? (options : Options) (key : String) : Option String :=
  (literalMedia? key).or <|
    match Text.without? "@" key with
    | some name => options.queries.get? (Text.trimmedStart name)
    | none => if Text.isBlank key then none else some (Text.trimmed key)

end Target

end NestedStyles
