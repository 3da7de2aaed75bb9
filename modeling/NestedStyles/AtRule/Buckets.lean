import NestedStyles.AtRule.Target
import NestedStyles.Selector.Alternatives
import NestedStyles.Tree.Merge

/-!
# Buckets of at-rules

Every at-rule block is filed with the blocks that go under the same header. A bucket is a style
tree: the selectors above the `@` key stand around the block, so that the bucket compiles to rules
with the same selectors. The blocks of a mode stand below the selector of the mode, and their first
selector is marked as a descendant of it.
-/

namespace NestedStyles

/-- The at-rules of one tree. -/
structure Buckets where
  /-- The statements that name layers, each once. -/
  statements : List String
  /-- Blocks by the header of their layer. -/
  layers : Entries StyleTree
  /-- Blocks by the header of their container query. -/
  containers : Entries StyleTree
  /-- Blocks by their media query. -/
  media : Entries StyleTree
  /-- Blocks by the selector of their mode. -/
  modes : StyleTree

/-- Files a block below its parents in the bucket of a header. -/
def fileUnder (header : String) (parents : List String) (block : StyleTree)
    (buckets : Entries StyleTree) : Entries StyleTree :=
  buckets.upsert header fun old => (old.getD []).merge (StyleTree.nest parents block)

namespace StyleTree

mutual

/-- An entry whose selector key is marked as a descendant. Keys below an `@` key are marked too,
since they come right behind the same selector. -/
def markedEntry (key : String) : Node → String × Node
  | .leaf value => (key, .leaf value)
  | .tree entries =>
    if (reference? entries).isSome then (key, .tree entries)
    else if Text.isAtKey key then (key, .tree (Entries.ofList (markedEntries entries)))
    else if Text.isBlank key then (key, .tree entries)
    else (Selector.asDescendant key, .tree entries)

/-- Entries with their selector keys marked as descendants. -/
def markedEntries : List (String × Node) → List (String × Node)
  | [] => []
  | (key, node) :: rest => markedEntry key node :: markedEntries rest

end

/-- The tree with its selector keys marked as descendants. Of two keys that are marked alike the
later one stands, in the place of the earlier. -/
def marked (block : StyleTree) : StyleTree := Entries.ofList (markedEntries block)

end StyleTree

namespace Buckets

/-- Nothing filed yet. -/
def empty : Buckets := ⟨[], [], [], [], []⟩

/-- The statement of an `@layer` key with the names that follow it. -/
def statement (key : String) (names : Option String) : String :=
  let names := Text.trimmed (names.getD "")
  if names = "" then key ++ ";" else key ++ " " ++ names ++ ";"

/-- Notes the statement of an `@layer` key, unless it is there. -/
def addStatement (buckets : Buckets) (key : String) (names : Option String) : Buckets :=
  if statement key names ∈ buckets.statements then buckets
  else { buckets with statements := buckets.statements ++ [statement key names] }

/-- Files a block of a layer. -/
def addLayer (buckets : Buckets) (header : String) (parents : List String) (block : StyleTree) :
    Buckets :=
  { buckets with layers := fileUnder (Text.trimmed header) parents block buckets.layers }

/-- Files a block of a container query. -/
def addContainer (buckets : Buckets) (header : String) (parents : List String)
    (block : StyleTree) : Buckets :=
  { buckets with containers := fileUnder (Text.trimmed header) parents block buckets.containers }

/-- Files a block of a media query. -/
def addMedia (buckets : Buckets) (query : String) (parents : List String) (block : StyleTree) :
    Buckets :=
  { buckets with media := fileUnder query parents block buckets.media }

/-- The block below its parents, marked as a descendant of what comes before: its first parent
that is not blank is, or the selectors of the block itself if it has no such parent. -/
def descendantTree (parents : List String) (block : StyleTree) : StyleTree :=
  let blank := parents.takeWhile Text.isBlank
  match parents.dropWhile Text.isBlank with
  | [] => StyleTree.nest blank block.marked
  | first :: rest => StyleTree.nest (blank ++ Selector.asDescendant first :: rest) block

/-- Files a block of a mode. -/
def addMode (buckets : Buckets) (selector : String) (parents : List String) (block : StyleTree) :
    Buckets :=
  { buckets with
    modes := buckets.modes.merge (StyleTree.nest [selector] (descendantTree parents block)) }

/-- Files a block by what its key refers to. -/
def add (buckets : Buckets) (target : Target) (parents : List String) (block : StyleTree) :
    Buckets :=
  match target with
  | .mode selector => buckets.addMode selector parents block
  | .media query => buckets.addMedia query parents block

/-- What is filed under the selector of a mode, if it is not empty. -/
def modeContent? (buckets : Buckets) (selector : String) : Option StyleTree :=
  match buckets.modes.get? selector with
  | some (.tree content) => if content.isEmpty then none else some content
  | _ => none

end Buckets

end NestedStyles
