import NestedStyles.AtRule.Buckets
import NestedStyles.Diagnostic
import NestedStyles.Property
import NestedStyles.RuleSet
import NestedStyles.Selector.Joined
import NestedStyles.Tree.Walk
import NestedStyles.Value.Content

/-!
# What a tree holds

One walk of a tree collects its declarations into a rule set and files its at-rule blocks into
buckets. Nodes below an `@` key belong to the bucket of that key and are passed over. What can be
neither written nor filed is reported.
-/

namespace NestedStyles

/-- The value of a property as it is written, if it is. -/
def Value.written? (property : String) (value : Value) : Option String :=
  if property = "content" then some value.content else value.css?

/-- The declarations, at-rules and problems found in a tree. -/
structure Collected where
  rules : RuleSet
  buckets : Buckets
  diagnostics : List Diagnostic

namespace Collected

/-- Nothing found yet. -/
def empty : Collected := ⟨[], .empty, []⟩

/-- Reports a node. -/
def report (found : Collected) (path : List String) (problem : Problem) : Collected :=
  { found with diagnostics := found.diagnostics ++ [⟨path, problem⟩] }

/-- Writes a declaration under every selector of the keys above it. -/
def declare (scope : List String) (found : Collected) (visit : Visit) (value : Value) :
    Except CompileError Collected :=
  match value.nonFinite? with
  | some number => .error (.nonFinite (scope ++ visit.path) number)
  | none =>
    let property := Property.name visit.key
    match value.written? property with
    | none => .ok found
    | some css =>
      match Selector.ofPath visit.parents with
      | [] => .ok (found.report (scope ++ visit.path) (.orphan property))
      | selectors =>
        let write (rules : RuleSet) (selector : String) := rules.declare selector property css
        .ok { found with rules := selectors.foldl write found.rules }

/-- Files an entry of the `@media` map at the root. -/
def fileMedia (options : Options) (scope : List String) (found : Collected)
    (entry : String × Node) : Collected :=
  let (key, node) := entry
  match node.block?, Target.mapQuery? options key with
  | none, _ => found.report (scope ++ ["@media", key]) (.invalidMediaEntry key)
  | some _, none => found.report (scope ++ ["@media", key]) (.unresolved key)
  | some block, some query => { found with buckets := found.buckets.addMedia query [] block }

/-- Files the block of an `@` key that refers to a mode or a media query. -/
def fileReference (options : Options) (scope : List String) (found : Collected)
    (visit : Visit) : Collected :=
  match visit.node.block?, Target.ofKey? options visit.key with
  | none, _ => found.report (scope ++ visit.path) (.withoutBlock visit.key)
  | some _, none => found.report (scope ++ visit.path) (.unresolved visit.key)
  | some block, some target =>
    { found with buckets := found.buckets.add target visit.parents block }

/-- The names in the text of a layer statement. -/
def layerNames : Node → Option String
  | .leaf (.text names) => some names
  | _ => none

/-- Takes in one node. -/
def visit (options : Options) (scope : List String) (found : Collected) (visit : Visit) :
    Except CompileError Collected :=
  if visit.inAtRule then .ok found
  else
    match visit.role with
    | .scope => .ok found
    | .declaration =>
      match visit.node.value? with
      | none => .ok found
      | some value => found.declare scope visit value
    | .layerStatement =>
      let buckets := found.buckets.addStatement visit.key (layerNames visit.node)
      .ok { found with buckets }
    | .layerBlock =>
      let block := visit.node.block?.getD []
      .ok { found with buckets := found.buckets.addLayer visit.key visit.parents block }
    | .containerBlock =>
      let block := visit.node.block?.getD []
      .ok { found with buckets := found.buckets.addContainer visit.key visit.parents block }
    | .mediaMap => .ok (visit.node.entries.foldl (fileMedia options scope) found)
    | .reference => .ok (fileReference options scope found visit)

end Collected

/-- What a tree holds. The headers of the at-rules it is compiled under are the scope of the paths
in reports. -/
def StyleTree.collect (options : Options) (scope : List String) (tree : StyleTree) :
    Except CompileError Collected :=
  tree.walk (Collected.visit options scope) .empty

end NestedStyles
