import NestedStyles.Proofs.Parts
import NestedStyles.Proofs.Trimmed

/-!
# Changes of blocks

A change of blocks that commutes with merging may be made before a walk or in the buckets after it:
if the visits file the changed blocks, the buckets hold the changed trees
(`StyleTree.tableOf_change`, `StyleTree.modesOf_change`). Two trees that fail, declare and note
alike compile to the same text if their parts do (`StyleTree.css_compileWithin_congr`).
-/

namespace NestedStyles

/-- The filing with its block changed. -/
def Filing.change (f : StyleTree → StyleTree) (filing : Filing) : Filing :=
  { filing with block := f filing.block }

/-- The filing of a block of a mode with its block changed. -/
def ModeFiling.change (f : StyleTree → StyleTree) (filing : ModeFiling) : ModeFiling :=
  { filing with block := f filing.block }

/-- What a list gives is changed if it is for each member. -/
theorem filterMap_change {α β γ : Type} {g : α → Option β} {g' : α → Option γ} {change : β → γ}
    {list : List α} (h : ∀ a ∈ list, g' a = (g a).map change) :
    list.filterMap g' = (list.filterMap g).map change := by
  have hmap : list.map g' = list.map fun a => (g a).map change := List.map_congr_left h
  rw [List.map_filterMap]
  simpa [List.filterMap_map, Function.comp_def] using congrArg (List.filterMap id) hmap

variable {options : Options} {f : StyleTree → StyleTree}

theorem Filing.ofMapEntry?_change {key : String} {node changed : Node}
    (hblock : changed.block? = node.block?.map f) :
    Filing.ofMapEntry? options (key, changed) =
      (Filing.ofMapEntry? options (key, node)).map (Filing.change f) := by
  unfold Filing.ofMapEntry?
  dsimp only
  rw [hblock]
  cases node.block? <;> cases Target.mapQuery? options key <;> rfl

namespace Visit

variable {visit changed : Visit} (hpath : changed.path = visit.path)
  (hrole : changed.role = visit.role) (hblock : changed.node.block? = visit.node.block?.map f)

include hpath hrole hblock

/-- A visit with its block changed files the changed block of a mode. -/
theorem modeFiling?_change : changed.modeFiling? options =
    (visit.modeFiling? options).map (ModeFiling.change f) := by
  have hin : changed.inAtRule = visit.inAtRule := congrArg (·.dropLast.any Text.isAtKey) hpath
  have hparents : changed.parents = visit.parents := congrArg List.dropLast hpath
  have hkey : changed.key = visit.key := congrArg (·.getLast?.getD "") hpath
  rw [modeFiling?, modeFiling?, hin, hrole, hkey, hparents, hblock]
  split
  · rfl
  · cases visit.role <;> cases visit.node.block? <;>
      cases Target.ofKey? options visit.key with
      | none => rfl
      | some target => cases target <;> rfl

/-- A visit with its blocks changed files the changed blocks. -/
theorem filings_change (hnil : f [] = []) (hentries : visit.role = .mediaMap →
      changed.node.entries.filterMap (Filing.ofMapEntry? options) =
        (visit.node.entries.filterMap (Filing.ofMapEntry? options)).map (Filing.change f)) :
    changed.filings options = (visit.filings options).map (Filing.change f) := by
  have hin : changed.inAtRule = visit.inAtRule := congrArg (·.dropLast.any Text.isAtKey) hpath
  have hparents : changed.parents = visit.parents := congrArg List.dropLast hpath
  have hkey : changed.key = visit.key := congrArg (·.getLast?.getD "") hpath
  have hown : (visit.node.block?.map f).getD [] = f (visit.node.block?.getD []) := by
    cases visit.node.block? with
    | none => exact hnil.symm
    | some block => rfl
  rw [filings, filings, hin, hrole, hkey, hparents, hblock]
  split
  · rfl
  · cases hvisit : visit.role with
    | layerBlock => exact congrArg (fun block => [Filing.mk _ _ _ block]) hown
    | containerBlock => exact congrArg (fun block => [Filing.mk _ _ _ block]) hown
    | mediaMap => exact hentries hvisit
    | reference =>
      cases visit.node.block? with
      | none => rfl
      | some block =>
        cases Target.ofKey? options visit.key with
        | none => rfl
        | some target => cases target <;> rfl
    | _ => rfl

end Visit

namespace StyleTree

section Filed

variable {q : StyleTree → Prop} (h : KeepsMerges q f) {tree changed : StyleTree}

include h

/-- If the changed blocks are filed, the buckets of a table are changed. -/
theorem tableOf_change
    (hfilings : changed.filings options = (tree.filings options).map (Filing.change f))
    (hnest : ∀ filing ∈ tree.filings options,
      q filing.tree ∧ (filing.change f).tree = f filing.tree) (table : Table) :
    changed.tableOf options table =
      (tree.tableOf options table).map fun entry => (entry.1, f entry.2) := by
  rw [tableOf, tableOf, hfilings, List.filter_map, List.foldl_map]
  exact @KeepsMerges.foldl_fileUnder q f h _ Filing.header Filing.parents Filing.block
    (fun filing => f filing.block) _
    (fun filing hfiling => hnest filing (List.mem_filter.mp hfiling).1) [] (by simp)

/-- If the changed blocks of modes are filed, the bucket of the modes is changed. -/
theorem modesOf_change (hfilings : changed.modeFilings options =
      (tree.modeFilings options).map (ModeFiling.change f))
    (hnest : ∀ filing ∈ tree.modeFilings options,
      q filing.tree ∧ (filing.change f).tree = f filing.tree) :
    changed.modesOf options = f (tree.modesOf options) := by
  rw [modesOf, modesOf, hfilings, ← h.mergeAll (List.forall_mem_map.mpr fun filing hfiling =>
    (hnest filing hfiling).1), List.map_map, List.map_map]
  exact congrArg mergeAll (List.map_congr_left fun filing hfiling => (hnest filing hfiling).2)

end Filed

/-- Two trees compile to the same text, or end with the same error, if the same ends their walks,
they declare and note the same, and their parts have the same texts, empty ones aside. -/
theorem css_compileWithin_congr {tree changed : StyleTree} {steps : Nat} {scope : List String}
    {auto : Bool} (hfailure : changed.failure? scope = tree.failure? scope)
    (hstatements : changed.statements = tree.statements)
    (hdeclared : changed.ownLeaves.flatMap Leaf.declared = tree.ownLeaves.flatMap Leaf.declared)
    (hparts : ∀ found left, Collected.Holds options tree found →
      Collected.Holds options changed left →
        ((left.parts options auto).mapM fun part : Part =>
            (part.compile options steps scope).map Stylesheet.css).map (List.filter (· != "")) =
          ((found.parts options auto).mapM fun part : Part =>
            (part.compile options steps scope).map Stylesheet.css).map (List.filter (· != ""))) :
    (changed.compileWithin options (steps + 1) scope auto).map Stylesheet.css =
      (tree.compileWithin options (steps + 1) scope auto).map Stylesheet.css := by
  cases hfails : tree.failure? scope with
  | some e =>
    rw [compileWithin, compileWithin, Collected.collect_of_failure hfails,
      Collected.collect_of_failure (hfailure.trans hfails)]
  | none =>
    obtain ⟨found, hfound, hholds⟩ := @Collected.exists_collect options scope tree hfails
    obtain ⟨left, hleft, hleftHolds⟩ :=
      @Collected.exists_collect options scope changed (hfailure.trans hfails)
    have hnotes : left.buckets.statements = found.buckets.statements := by
      rw [hleftHolds.statements, hholds.statements, hstatements]
    have hrules : left.rules = found.rules := by
      rw [hleftHolds.rules, hholds.rules, hdeclared]
    -- A section of its own for an empty text is no section, so empty texts may be left out.
    have hsections (texts : List String) (first second : String) :
        Layout.sections (first :: second :: texts) =
          Layout.sections ([first, second].filter (· != "") ++ texts.filter (· != "")) := by
      rw [← List.filter_append, Layout.sections_filter]
      rfl
    have hkept (result : Except CompileError (List String)) (front : List String) :
        result.map (fun texts => Layout.sections (front ++ texts.filter (· != ""))) =
          (result.map (List.filter (· != ""))).map fun texts =>
            Layout.sections (front ++ texts) := by
      cases result <;> rfl
    rw [css_compileWithin_succ options steps auto hleft,
      css_compileWithin_succ options steps auto hfound, hnotes, hrules]
    simp only [hsections]
    rw [hkept, hparts found left hholds hleftHolds, ← hkept]

end StyleTree

end NestedStyles
