import NestedStyles.Collected
import NestedStyles.Layout
import NestedStyles.Tree.Depth

/-!
# Stylesheets

A tree compiles to its layer statements and rules, and then to the blocks of its layers, container
queries and media queries, each a tree that is compiled in turn under its header. The modes come
last: as one tree below their selectors, and again for the automatic modes under their media
queries.

Every bucket has fewer `@` keys on its paths than the tree it was collected from, unless the
selector of a mode begins with `@` and so refers to another mode. `StyleTree.steps` allows for as
many references as there are modes.
-/

namespace NestedStyles

/-- CSS and the problems that were found on the way to it. -/
structure Stylesheet where
  css : String
  diagnostics : List Diagnostic

/-- The buckets of the automatic modes by their media query: the content of each mode, below the
selector that takes the place of the mode's. -/
def Buckets.autoBuckets (options : Options) (buckets : Buckets) : Entries StyleTree :=
  (options.auto.getD []).foldl (fun found (mode, auto) =>
    match (options.modes.get? mode).bind buckets.modeContent? with
    | none => found
    | some content => fileUnder auto.query [auto.selector] content found) []

namespace Stylesheet

/-- The stylesheet as a block below a header, without a block if it has no CSS. -/
def under (header : String) (sheet : Stylesheet) : Stylesheet :=
  { sheet with css := if sheet.css = "" then "" else Layout.block header sheet.css }

/-- The stylesheet without the problems that were reported before. -/
def silent (sheet : Stylesheet) : Stylesheet := { sheet with diagnostics := [] }

/-- The stylesheet of what a tree holds and of its buckets, section by section. -/
def assemble (found : Collected) (parts : List Stylesheet) : Stylesheet :=
  { css := Layout.sections <|
      "\n".intercalate found.buckets.statements :: found.rules.css :: parts.map css
    diagnostics := found.diagnostics ++ parts.flatMap diagnostics }

end Stylesheet

namespace StyleTree

/-- The stylesheet of a tree in a number of steps, each a tree that is compiled. With `auto` the
modes are also given as automatic ones; what is found there was reported for the modes before. -/
def compileWithin (options : Options) :
    (steps : Nat) → (scope : List String) → (auto : Bool) → StyleTree →
      Except CompileError Stylesheet
  | 0, scope, _, _ => .error (.endless scope)
  | steps + 1, scope, auto, tree => do
    let found ← tree.collect options scope
    let block (auto : Bool) (header : String) (bucket : StyleTree) :
        Except CompileError Stylesheet := do
      let sheet ← compileWithin options steps (scope ++ [header]) auto bucket
      return sheet.under header
    let layers ← found.buckets.layers.mapM fun (header, bucket) => block true header bucket
    let containers ← found.buckets.containers.mapM fun (header, bucket) =>
      block true header bucket
    let media ← found.buckets.media.mapM fun (query, bucket) =>
      block true ("@media " ++ query) bucket
    let modes ←
      if found.buckets.modes.isEmpty then pure []
      else (compileWithin options steps scope false found.buckets.modes).map ([·])
    let automatic ← (if auto then found.buckets.autoBuckets options else []).mapM
      fun (query, bucket) => block false ("@media " ++ query) bucket
    let automatic := automatic.map Stylesheet.silent
    return Stylesheet.assemble found (layers ++ containers ++ media ++ modes ++ automatic)

/-- Steps enough for every tree and table in which no modes name each other in a circle. -/
def steps (options : Options) (tree : StyleTree) : Nat :=
  (tree.atDepth + 1) * (options.modes.length + 3)

/-- The stylesheet of a tree. Nothing is reported twice. -/
def compile (options : Options) (tree : StyleTree) : Except CompileError Stylesheet := do
  let sheet ← tree.compileWithin options (tree.steps options) [] true
  return { sheet with diagnostics := sheet.diagnostics.eraseDupsBy Diagnostic.same }

end StyleTree

end NestedStyles
