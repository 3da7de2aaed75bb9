import NestedStyles.Json.Shape
import NestedStyles.Options.Config

/-!
# Options and configurations in JSON
-/

namespace NestedStyles

open Json (Fault asEntries asList asOptional asPair asRecord asText)

/-- A table of texts by name. -/
def readTexts (value : Json) : Except Fault (Entries String) := asEntries asText value

/-- The automatic modes, or null for none. -/
def readAuto (value : Json) : Except Fault (Option (Entries AutoMode)) :=
  asOptional (asEntries fun pair => (asPair pair).map fun (selector, query) => ⟨selector, query⟩)
    value

namespace Options

/-- The names of the tables. -/
def fields : List String := ["mediaQueries", "mediaPrefixes", "auto"]

/-- Reads a table into the options. -/
def readField (options : Options) (field : String) (value : Json) : Except Fault Options := do
  match field with
  | "mediaQueries" => return { options with queries := ← readTexts value }
  | "mediaPrefixes" => return { options with modes := ← readTexts value }
  | _ => return { options with auto := ← readAuto value }

/-- Compile options. -/
def ofJson (value : Json) : Except Fault Options :=
  asRecord "struct CompileOptions" fields readField .empty value

/-- Reads the text of compile options. -/
def ofText (text : String) : Except Fault Options := Json.Document.read ofJson text

end Options

namespace Shorthand

/-- Reads a field of a shorthand entry. -/
def readField (shorthand : Shorthand) (field : String) (value : Json) :
    Except Fault Shorthand := do
  match field with
  | "selector" => return { shorthand with selector := ← asOptional asText value }
  | _ => return { shorthand with query := ← asOptional asText value }

/-- A shorthand entry. -/
def ofJson (value : Json) : Except Fault Shorthand :=
  asRecord "struct MediaSelector" ["selector", "mediaQuery"] readField ⟨none, none⟩ value

end Shorthand

namespace Config

/-- The names of the parts of a configuration. -/
def fields : List String := Options.fields ++ ["mediaSelectors", "globalRootSelector"]

/-- Reads a part of a configuration. -/
def readField (config : Config) (field : String) (value : Json) : Except Fault Config := do
  match field with
  | "mediaQueries" => return { config with queries := ← readTexts value }
  | "mediaPrefixes" => return { config with modes := ← readTexts value }
  | "auto" => return { config with auto := ← readAuto value }
  | "mediaSelectors" =>
    let shorthands ← asEntries (asEntries (asList Shorthand.ofJson)) value
    return { config with shorthands }
  | _ => return { config with root := ← asOptional asText value }

/-- A configuration. -/
def ofJson (value : Json) : Except Fault Config :=
  asRecord "struct StyleConfig" fields readField .empty value

/-- Reads the text of a configuration. -/
def ofText (text : String) : Except Fault Config := Json.Document.read ofJson text

end Config

end NestedStyles
