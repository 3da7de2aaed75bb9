import NestedStyles.Options.Basic

/-!
# Configurations

A configuration gives the tables of the options and a shorthand for them: groups of variants, each
with entries that have a selector, a media query or both. `Config.options` folds the shorthand into
the tables. A table entry that is already there stands, and `Config.warnings` tells of the entries
that come to nothing.
-/

namespace NestedStyles

/-- A shorthand for a mode (a selector), a media query, or an automatic mode (both). -/
structure Shorthand where
  selector : Option String
  query : Option String
deriving DecidableEq

/-- Tables, the shorthand by group and variant, and the selector of the root element. -/
structure Config where
  queries : Entries String
  modes : Entries String
  auto : Option (Entries AutoMode)
  shorthands : Entries (Entries (List Shorthand))
  root : Option String

/-- Why a shorthand comes to nothing. -/
inductive Warning where
  /-- A media query of this name is there already. -/
  | queryTaken (variant : String)
  /-- The entry has neither a selector nor a media query. -/
  | emptyShorthand (group variant : String)
deriving DecidableEq

/-- The warning in words. -/
def Warning.message : Warning → String
  | .queryTaken variant =>
    "media shorthand `" ++ variant ++ "` is also in mediaQueries; using the mediaQueries value"
  | .emptyShorthand group variant =>
    "media selector `" ++ group ++ "." ++ variant ++ "` has neither a selector nor a media query"

namespace Config

/-- A configuration that says nothing. -/
def empty : Config := ⟨[], [], none, [], none⟩

/-- The selector of the root element. -/
def rootSelector (config : Config) : String := config.root.getD ":root"

/-- The shorthand entries with their group and variant, in order. -/
def entries (config : Config) : List (String × String × Shorthand) :=
  config.shorthands.flatMap fun (group, variants) =>
    variants.flatMap fun (variant, shorthands) => shorthands.map (group, variant, ·)

/-- The tables without the shorthand. -/
def tables (config : Config) : Options := ⟨config.queries, config.modes, config.auto⟩

/-- Folds one shorthand entry into the options. -/
def fold (root : String) (state : Options × List Warning) (entry : String × String × Shorthand) :
    Options × List Warning :=
  let (options, warnings) := state
  let (group, variant, shorthand) := entry
  match shorthand.selector, shorthand.query with
  | none, some query =>
    if (options.queries.get? variant).isSome then (options, warnings ++ [.queryTaken variant])
    else (options.withQuery variant query, warnings)
  | some selector, none =>
    ({ options with modes := options.modes.insertNew variant (root ++ selector) }, warnings)
  | some selector, some query =>
    let auto := (options.auto.getD []).insertNew variant ⟨root ++ selector, query⟩
    ({ options with auto := some auto }, warnings)
  | none, none => (options, warnings ++ [.emptyShorthand group variant])

/-- The options and the warnings of a configuration. -/
def resolve (config : Config) : Options × List Warning :=
  config.entries.foldl (fold config.rootSelector) (config.tables, [])

/-- The options of a configuration. -/
def options (config : Config) : Options := config.resolve.1

/-- The warnings of a configuration, in the order of the shorthand. -/
def warnings (config : Config) : List Warning := config.resolve.2

end Config

end NestedStyles
