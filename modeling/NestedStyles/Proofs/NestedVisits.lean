import NestedStyles.Proofs.Below

/-!
# The walk of a nested block

Nesting puts keys in front of the paths that a walk of the block visits, and it adds one visit for
each scope around the block, the inner scopes before the outer ones (`StyleTree.visits_nest`). The
keys of the scopes do not matter: a scope around a block is no leaf
(`StyleTree.isLeaf_of_mem_wrappers`).
-/

namespace NestedStyles

namespace StyleTree

universe u v

/-- The visits to the scopes that nesting puts around a block, the innermost scope first. -/
def wrappers (segments : List String) (block : StyleTree) : List Visit :=
  (List.range segments.length).reverse.map fun above =>
    ⟨segments.take (above + 1), .tree (nest (segments.drop (above + 1)) block)⟩

theorem wrappers_cons (segment : String) (segments : List String) (block : StyleTree) :
    wrappers (segment :: segments) block =
      (wrappers segments block).map (Visit.below [segment]) ++
        [⟨[segment], .tree (nest segments block)⟩] := by
  rw [wrappers, List.length_cons, List.range_succ_eq_map, List.reverse_cons, List.map_append,
    ← List.map_reverse, List.map_map, wrappers, List.map_map]
  rfl

theorem length_wrappers (segments : List String) (block : StyleTree) :
    (wrappers segments block).length = segments.length := by
  rw [wrappers, List.length_map, List.length_reverse, List.length_range]

/-- What is visited in a block below keys is what is visited inside the block, a reference being a
leaf, and then the scopes around it. -/
theorem visits_nest_cons (segment : String) (segments : List String) (block : StyleTree) :
    (nest (segment :: segments) block).visits =
      block.visitsInside.map (Visit.below (segment :: segments)) ++
        wrappers (segment :: segments) block := by
  induction segments generalizing segment with
  | nil =>
    rw [nest_cons, nest_nil, visits, visitsBelow, visitsBelow, List.append_nil]
    exact visitsNode_tree [segment] block
  | cons next segments ih =>
    have href : (nest (next :: segments) block).reference? = none := reference?_singleton next _
    calc (nest (segment :: next :: segments) block).visits
        = visitsNode [segment] (.tree (nest (next :: segments) block)) := by
          rw [nest_cons, visits, visitsBelow, visitsBelow, List.append_nil]
          rfl
      _ = (nest (next :: segments) block).visits.map (Visit.below [segment]) ++
            [⟨[segment], .tree (nest (next :: segments) block)⟩] := by
          rw [visitsNode_tree, visitsInside_eq_visits href]
      _ = _ := by
          rw [ih, List.map_append, List.map_map, List.append_assoc, ← wrappers_cons]
          rfl

section Block

variable {segments : List String} {block : StyleTree} (hblock : block.reference? = none)

include hblock

/-- Nesting puts keys in front of the paths that are visited and adds the scopes around the
block. -/
theorem visits_nest : (nest segments block).visits =
    block.visits.map (Visit.below segments) ++ wrappers segments block := by
  cases segments with
  | nil =>
    rw [nest_nil]
    exact ((List.append_nil _).trans (List.map_id _)).symm
  | cons segment segments => rw [visits_nest_cons, visitsInside_eq_visits hblock]

/-- No scope around a block is a leaf, whatever the keys are. -/
theorem isLeaf_of_mem_wrappers {scope : Visit} (h : scope ∈ wrappers segments block) :
    scope.node.isLeaf = false := by
  obtain ⟨above, -, rfl⟩ := List.mem_map.mp h
  have href := reference?_nest hblock (segments.drop (above + 1))
  rw [Node.isLeaf, Node.value?, href]
  rfl

/-- To walk a nested block is to walk the block with the keys in front of each path and then the
scopes around it from the inside to the outside, and a block can be nested step by step. -/
theorem walk_nest :
    (nest segments block).visits =
        block.visits.map (Visit.below segments) ++ wrappers segments block ∧
      (wrappers segments block).length = segments.length ∧
      (∀ scope ∈ wrappers segments block, scope.node.isLeaf = false) ∧
      (∀ {ε : Type u} {σ : Type v} (visit : σ → Visit → Except ε σ) (state : σ),
        walk visit state (nest segments block) =
          (walk (fun state inner => visit state (inner.below segments)) state block).bind
            ((wrappers segments block).foldlM visit ·)) ∧
      ∀ (outer inner : List String) (other : StyleTree),
        nest (outer ++ inner) other = nest outer (nest inner other) := by
  refine ⟨visits_nest hblock, length_wrappers segments block,
    fun scope => isLeaf_of_mem_wrappers hblock, fun visit state => ?_, nest_append⟩
  rw [walk_eq_foldlM, walk_eq_foldlM, visits_nest hblock, List.foldlM_append, List.foldlM_map]
  rfl

end Block

/-- Keys with the names of a reference's parts make no leaf of a scope. -/
theorem walk_nest_reference_keys :
    reference? [("name", .leaf (.text "x"))] = none ∧
      (nest ["var", "name"] [("name", .leaf (.text "x"))]).visits =
        [⟨["var", "name", "name"], .leaf (.text "x")⟩,
          ⟨["var", "name"], .tree [("name", .leaf (.text "x"))]⟩,
          ⟨["var"], .tree [("name", .tree [("name", .leaf (.text "x"))])]⟩] :=
  ⟨rfl, (walk_nest.{0, 0} rfl).1.trans rfl⟩

end StyleTree

end NestedStyles
