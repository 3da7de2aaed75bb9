import NestedStyles.Entries

/-!
# Compile options

The tables that `@` keys are looked up in. A media query and a mode have a name each. A mode
prefixes its rules with a selector, and an automatic mode gives the same rules under a media query
and another selector.
-/

namespace NestedStyles

/-- How the rules of a mode are given without the mode being set. -/
structure AutoMode where
  /-- The selector that takes the place of the mode's. -/
  selector : String
  /-- The media query that the rules stand under. -/
  query : String
deriving DecidableEq

/-- The tables that `@` keys are looked up in. -/
structure Options where
  /-- Media queries by name. -/
  queries : Entries String
  /-- The selectors of the modes by name. -/
  modes : Entries String
  /-- The automatic modes by the name of the mode. -/
  auto : Option (Entries AutoMode)

namespace Options

/-- Options without a table entry. -/
def empty : Options := ⟨[], [], none⟩

/-- Names a media query. -/
def withQuery (options : Options) (name query : String) : Options :=
  { options with queries := options.queries.insert name query }

/-- Gives a mode its selector. -/
def withMode (options : Options) (name selector : String) : Options :=
  { options with modes := options.modes.insert name selector }

/-- Makes a mode automatic. -/
def withAuto (options : Options) (mode selector query : String) : Options :=
  { options with auto := some ((options.auto.getD []).insert mode ⟨selector, query⟩) }

end Options

end NestedStyles
