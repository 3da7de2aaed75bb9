import NestedStyles.Number.Text

/-!
# Diagnostics and errors

A diagnostic reports a node that the compiler leaves out; an error ends the compilation. Both name
the node by its path, which begins with the headers of the at-rules it is compiled under.
-/

namespace NestedStyles

/-- The keys of a path in a message. -/
def displayPath (keys : List String) : String := " -> ".intercalate keys

/-- Why a node is left out. -/
inductive Problem where
  /-- An `@` key that names nothing. -/
  | unresolved (key : String)
  /-- An `@` key without a block. -/
  | withoutBlock (key : String)
  /-- A property without a selector above it. -/
  | orphan (property : String)
  /-- An entry of the `@media` map without a block. -/
  | invalidMediaEntry (key : String)
deriving DecidableEq

/-- A node that is left out, and why. -/
structure Diagnostic where
  path : List String
  problem : Problem
deriving DecidableEq

/-- Two diagnostics that read alike: the keys of a path are seen only as they are displayed. -/
def Diagnostic.same (a b : Diagnostic) : Bool :=
  displayPath a.path == displayPath b.path && a.problem == b.problem

/-- What is wrong with the node. -/
def Problem.message : Problem → String
  | .unresolved key => "media query type `" ++ key ++ "` is unknown; the block is dropped"
  | .withoutBlock key => "`" ++ key ++ "` must hold a block of rules"
  | .orphan property => "`" ++ property ++ "` has no selector above it"
  | .invalidMediaEntry key => "media entry `" ++ key ++ "` must hold a block of rules"

/-- The diagnostic as a warning. -/
def Diagnostic.warning (diagnostic : Diagnostic) : String :=
  displayPath diagnostic.path ++ ": " ++ diagnostic.problem.message

/-- Why a tree has no CSS. -/
inductive CompileError where
  /-- A number that is not finite, at this path. -/
  | nonFinite (path : List String) (number : Number)
  /-- The selector of a mode names a mode, that one another, and so on without an end. -/
  | endless (path : List String)
deriving DecidableEq

/-- The error in words. -/
def CompileError.message : CompileError → String
  | .nonFinite path number =>
    "`" ++ displayPath path ++ "` holds the number " ++ number.text ++ ", which has no CSS form"
  | .endless path => "the modes below `" ++ displayPath path ++ "` name each other without an end"

end NestedStyles
