import Mathlib.Data.List.Nodup
import NestedStyles.Proofs.Below
import NestedStyles.Proofs.DeepUnion

/-!
# The order of a walk

A walk visits the nodes that paths through blocks lead to (`StyleTree.mem_visits_iff`), each once
and what stands in a block before the block (`StyleTree.pairwise_visits`). A visit that fails ends
it, and nothing else does (`StyleTree.exists_run`). What one level of collection takes in comes in
the order of the document, although the walk goes through blocks from the inside
(`StyleTree.walk_postorder`).
-/

namespace NestedStyles

/-! ## Paths through blocks -/

namespace StyleTree

/-- The path leads to the node, and every node above the node is a block. -/
inductive Reaches : StyleTree → List String → Node → Prop
  | here {tree : StyleTree} {key : String} {node : Node} (hmem : (key, node) ∈ tree) :
      Reaches tree [key] node
  | inside {tree block : StyleTree} {key : String} {path : List String} {node : Node}
      (hmem : (key, .tree block) ∈ tree) (hblock : block.reference? = none)
      (h : Reaches block path node) : Reaches tree (key :: path) node

/-- The paths part at a block, where the key of the first one comes before the key of the other. -/
inductive Earlier : StyleTree → List String → List String → Prop
  | here {tree : StyleTree} {key other : String} (h : [key, other].Sublist tree.keys)
      (path more : List String) : Earlier tree (key :: path) (other :: more)
  | inside {tree block : StyleTree} {key : String} {path other : List String}
      (hmem : (key, .tree block) ∈ tree) (hblock : block.reference? = none)
      (h : Earlier block path other) : Earlier tree (key :: path) (key :: other)

end StyleTree

namespace Visit

/-- The path of the other visit goes on where that of the visit ends. -/
def IsAbove (visit other : Visit) : Prop := visit.path <+: other.path ∧ visit.path ≠ other.path

theorem IsAbove.below {visit other : Visit} (h : visit.IsAbove other) (above : List String) :
    (visit.below above).IsAbove (other.below above) :=
  ⟨(List.prefix_append_right_inj above).mpr h.1, fun heq => h.2 (List.append_cancel_left heq)⟩

/-- Children come before their parent, and siblings in the order of their keys. -/
def ChildrenFirst (tree : StyleTree) (visit other : Visit) : Prop :=
  other.IsAbove visit ∨ tree.Earlier visit.path other.path

/-- A parent comes before its children, and siblings in the order of their keys. -/
def ParentFirst (tree : StyleTree) (visit other : Visit) : Prop :=
  visit.IsAbove other ∨ tree.Earlier visit.path other.path

end Visit

namespace StyleTree

open Visit

/-- The visits to a node are the one to the node and, before it, those to what stands in it if it is
a block. -/
theorem mem_visitsNode_iff {key : String} {node : Node} {visit : Visit} :
    visit ∈ visitsNode [key] node ↔ visit = ⟨[key], node⟩ ∨
      ∃ (block : StyleTree) (inner : Visit), node = .tree block ∧ block.reference? = none ∧
        inner ∈ block.visits ∧ visit = inner.below [key] := by
  cases node with
  | leaf value => simp [visitsNode]
  | tree entries =>
    rw [visitsNode_tree, visitsInside]
    cases href : reference? entries with
    | some value => simp [href]
    | none => simp [href, or_comm, eq_comm]

/-- A walk visits the nodes that paths through blocks lead to. -/
theorem mem_visits_iff {tree : StyleTree} {visit : Visit} :
    visit ∈ tree.visits ↔ tree.Reaches visit.path visit.node := by
  induction tree using maps_induction generalizing visit with
  | step tree ih =>
    rw [visits, visitsBelow_eq_flatMap, List.mem_flatMap]
    constructor
    · rintro ⟨⟨key, node⟩, hmem, hvisit⟩
      rcases mem_visitsNode_iff.mp hvisit with rfl | ⟨block, inner, rfl, hblock, hinner, rfl⟩
      · exact .here hmem
      · exact .inside hmem hblock ((ih key block hmem).mp hinner)
    · obtain ⟨path, node⟩ := visit
      rintro (⟨hmem⟩ | @⟨_, block, key, path, _, hmem, hblock, h⟩)
      · exact ⟨_, hmem, mem_visitsNode_iff.mpr (Or.inl rfl)⟩
      · exact ⟨_, hmem, mem_visitsNode_iff.mpr (Or.inr ⟨block, ⟨path, node⟩, rfl, hblock,
          (ih key block hmem).mpr h, rfl⟩)⟩

/-! ## The order of the visits -/

theorem pairwise_visitsNode {tree : StyleTree} {key : String} {node : Node}
    (hmem : (key, node) ∈ tree)
    (hbelow : ∀ block : StyleTree, node = .tree block →
      block.visits.Pairwise (ChildrenFirst block)) :
    (visitsNode [key] node).Pairwise (ChildrenFirst tree) := by
  cases node with
  | leaf value => exact List.pairwise_singleton _ _
  | tree entries =>
    rw [visitsNode_tree, visitsInside]
    cases href : reference? entries with
    | some value => exact List.pairwise_singleton _ _
    | none =>
      rw [if_neg (by simp), List.pairwise_append, List.pairwise_map]
      refine ⟨(hbelow entries rfl).imp ?_, List.pairwise_singleton _ _, ?_⟩
      · rintro visit other (habove | hearlier)
        · exact Or.inl (habove.below [key])
        · exact Or.inr (.inside hmem href hearlier)
      -- The visit to the block itself stands behind those to what is in it.
      · intro visit hvisit other hother
        obtain ⟨inner, hinner, rfl⟩ := List.mem_map.mp hvisit
        obtain rfl := List.mem_singleton.mp hother
        obtain ⟨k, more, hpath⟩ := path_of_mem_visitsBelow hinner
        exact Or.inl ⟨List.prefix_append _ _, by simp [Visit.below, hpath]⟩

/-- A walk visits children before their parent and siblings in the order of their keys. -/
theorem pairwise_visits (tree : StyleTree) : tree.visits.Pairwise (ChildrenFirst tree) := by
  induction tree using maps_induction with
  | step tree ih =>
    rw [visits, visitsBelow_eq_flatMap, List.pairwise_flatMap]
    constructor
    · rintro ⟨key, node⟩ hmem
      refine pairwise_visitsNode hmem fun block hblock => ?_
      subst hblock
      exact ih key block hmem
    · refine List.pairwise_iff_forall_sublist.mpr fun {entry next} hsublist => ?_
      intro visit hvisit other hother
      obtain ⟨more, hmore⟩ := path_of_mem_visitsNode hvisit
      obtain ⟨rest, hrest⟩ := path_of_mem_visitsNode hother
      have hkeys : [entry.1, next.1].Sublist tree.keys := hsublist.map Prod.fst
      right
      rw [← hmore, ← hrest]
      exact .here hkeys more rest

section Distinct

variable {tree : StyleTree}

/-- Where no key stands twice, no path comes before itself. -/
theorem not_earlier_self (hdistinct : tree.isDistinct = true) (path : List String) :
    ¬ tree.Earlier path path := by
  induction path generalizing tree with
  | nil => exact fun h => nomatch h
  | cons key path ih =>
    rintro (⟨hkeys⟩ | ⟨hmem, -, h⟩)
    · exact List.nodup_iff_sublist.mp (isDistinct_iff.mp hdistinct).1 key hkeys
    · exact ih (isDistinct_of_mem hdistinct hmem) h

variable (hdistinct : tree.isDistinct = true)

include hdistinct

/-- No path is visited twice. -/
theorem nodup_paths : (tree.visits.map Visit.path).Nodup := by
  refine List.pairwise_map.mpr ((pairwise_visits tree).imp ?_)
  rintro visit other (habove | hearlier) heq
  · exact habove.2 heq.symm
  · rw [heq] at hearlier
    exact not_earlier_self hdistinct _ hearlier

end Distinct

/-! ## Nodes above a node -/

/-- What stands above the end of a path is reached by the beginning of the path, and is a block. -/
theorem Reaches.exists_above {tree : StyleTree} {path more : List String} {node : Node}
    (h : tree.Reaches (path ++ more) node) (hpath : path ≠ []) (hmore : more ≠ []) :
    ∃ block : StyleTree, tree.Reaches path (.tree block) ∧ block.reference? = none := by
  induction path generalizing tree with
  | nil => exact absurd rfl hpath
  | cons key path ih =>
    rw [List.cons_append] at h
    generalize hrest : path ++ more = rest at h
    rcases h with ⟨-⟩ | @⟨_, block, _, _, _, hmem, hblock, h⟩
    · exact absurd (List.append_eq_nil_iff.mp hrest).2 hmore
    · subst hrest
      by_cases hnil : path = []
      · exact ⟨block, hnil ▸ .here hmem, hblock⟩
      · obtain ⟨inner, hinner, href⟩ := ih h hnil
        exact ⟨inner, .inside hmem hblock hinner, href⟩

/-- A visited node has a key. -/
theorem exists_key_of_mem_visits {tree : StyleTree} {visit : Visit} (h : visit ∈ tree.visits) :
    ∃ above key, visit = ⟨above ++ [key], visit.node⟩ := by
  obtain ⟨path, node⟩ := visit
  obtain ⟨k, more, rfl⟩ := path_of_mem_visitsBelow h
  refine ⟨(k :: more).dropLast, (k :: more).getLast (by simp), ?_⟩
  rw [List.nil_append, List.dropLast_append_getLast]

/-- A visit is below an `@` key exactly if a node above it, which is visited too, has one. -/
theorem inAtRule_iff {tree : StyleTree} {visit : Visit} (h : visit ∈ tree.visits) :
    visit.inAtRule = true ↔
      ∃ other ∈ tree.visits, other.IsAbove visit ∧ Text.isAtKey other.key = true := by
  obtain ⟨above, key, hvisit⟩ := exists_key_of_mem_visits h
  rw [hvisit] at h ⊢
  rw [inAtRule_mk, List.any_eq_true]
  constructor
  · rintro ⟨k, hk, hat⟩
    obtain ⟨front, between, rfl⟩ := List.append_of_mem hk
    have hsplit : front ++ k :: between ++ [key] = (front ++ [k]) ++ (between ++ [key]) := by simp
    have hreaches := mem_visits_iff.mp h
    dsimp only at hreaches
    rw [hsplit] at hreaches
    obtain ⟨block, hblock, -⟩ := hreaches.exists_above (by simp) (by simp)
    refine ⟨⟨front ++ [k], .tree block⟩, mem_visits_iff.mpr hblock, ⟨?_, ?_⟩, by simpa using hat⟩
    · exact ⟨between ++ [key], hsplit.symm⟩
    · simp
  · rintro ⟨other, hother, ⟨⟨more, hmore⟩, hne⟩, hat⟩
    obtain ⟨front, k, hk⟩ := exists_key_of_mem_visits hother
    rw [hk] at hmore hne hat
    have hnil : more ≠ [] := fun hnil => hne (by simpa [hnil] using hmore)
    refine ⟨k, ?_, by simpa using hat⟩
    have habove := congrArg List.dropLast hmore
    rw [List.dropLast_append_of_ne_nil hnil, List.dropLast_concat] at habove
    rw [← habove]
    simp

/-! ## What one level of collection takes in -/

section Level

variable {tree : StyleTree} (hdistinct : tree.isDistinct = true)

include hdistinct

/-- A node above a visit that no `@` key stands above is the scope of a selector. -/
theorem role_of_isAbove {visit other : Visit} (hvisit : visit ∈ tree.visits)
    (hother : other ∈ tree.visits) (h : visit.IsAbove other) (hin : other.inAtRule = false) :
    visit.role = .scope := by
  have hkey : Text.isAtKey visit.key = false := by
    refine Bool.eq_false_iff.mpr fun hat => Bool.eq_false_iff.mp hin ?_
    exact (inAtRule_iff hother).mpr ⟨visit, hvisit, h, hat⟩
  obtain ⟨⟨more, hmore⟩, hne⟩ := h
  obtain ⟨above, key, hpath⟩ := exists_key_of_mem_visits hvisit
  have hreaches := mem_visits_iff.mp hother
  rw [← hmore] at hreaches
  obtain ⟨block, hblock, href⟩ := hreaches.exists_above (by rw [hpath]; simp)
    fun hnil => hne (by simpa [hnil] using hmore)
  -- No other node is visited at this path, so the visit is to the block.
  have hsame : ⟨visit.path, .tree block⟩ = visit :=
    List.inj_on_of_nodup_map (nodup_paths hdistinct) (mem_visits_iff.mpr hblock) hvisit rfl
  rw [hpath, Visit.key_mk] at hkey
  rw [← hsame, hpath]
  exact Visit.role_of_block above hkey href

/-- Of the visits that no `@` key stands above, those to other nodes than scopes come in the order
of the document. -/
theorem pairwise_parentFirst : (tree.visits.filter fun visit =>
      !visit.inAtRule && visit.role ≠ .scope).Pairwise (ParentFirst tree) := by
  refine ((pairwise_visits tree).filter _).imp_of_mem fun {visit other} hvisit hother h => ?_
  simp only [List.mem_filter, Bool.and_eq_true, Bool.not_eq_true', decide_eq_true_eq]
    at hvisit hother
  obtain habove | hearlier := h
  · exact absurd (role_of_isAbove hdistinct hother.1 hvisit.1 habove hvisit.2.1) hother.2.2
  · exact Or.inr hearlier

end Level

/-! ## Runs of a walk -/

universe u v

/-- How a row of visits may go, with the visits that are made of it: all of them, each from the
state that the one before it leaves, or those up to the first that fails. -/
inductive Run {ε : Type u} {σ : Type v} (callback : σ → Visit → Except ε σ) (start : σ) :
    (visits made : List Visit) → Except ε σ → Prop
  | done {visits : List Visit} {final : σ} (h : visits.foldlM callback start = .ok final) :
      Run callback start visits visits (.ok final)
  | failed (front rest : List Visit) {last : Visit} {reached : σ} {error : ε}
      (hfront : front.foldlM callback start = .ok reached)
      (hlast : callback reached last = .error error) :
      Run callback start (front ++ last :: rest) (front ++ [last]) (.error error)

section Run

variable {ε : Type u} {σ : Type v}

/-- The callback with a log of its visits, which is kept when it fails. -/
def logged (callback : σ → Visit → Except ε σ) (state : σ × List Visit) (visit : Visit) :
    Except (ε × List Visit) (σ × List Visit) :=
  match callback state.1 visit with
  | .ok reached => .ok (reached, state.2 ++ [visit])
  | .error error => .error (error, state.2 ++ [visit])

/-- A result with the log of the visits. -/
def withLog (made : List Visit) : Except ε σ → Except (ε × List Visit) (σ × List Visit)
  | .ok final => .ok (final, made)
  | .error error => .error (error, made)

variable {callback : σ → Visit → Except ε σ} {start : σ} {visits made : List Visit}
  {result : Except ε σ}

/-- The visits that are made are a beginning of the row. -/
theorem Run.made_prefix (h : Run callback start visits made result) : made <+: visits := by
  cases h with
  | done => exact List.prefix_refl _
  | failed front rest => exact ⟨rest, by simp⟩

/-- If the callback never fails, all visits are made. -/
theorem Run.of_no_failure (h : Run callback start visits made result)
    (hcallback : ∀ state, ∀ visit ∈ visits, ∃ reached, callback state visit = .ok reached) :
    made = visits ∧ ∃ final, result = .ok final := by
  cases h with
  | done => exact ⟨rfl, _, rfl⟩
  | @failed front rest last reached error _ hlast =>
    obtain ⟨next, hnext⟩ := hcallback reached last (by simp)
    exact absurd (hlast.symm.trans hnext) (by simp)

/-- A visit that does not fail comes first in a run from the state that it leaves. -/
theorem Run.cons {visit : Visit} {reached : σ} (hvisit : callback start visit = .ok reached)
    (h : Run callback reached visits made result) :
    Run callback start (visit :: visits) (visit :: made) result := by
  have hstep (visits : List Visit) :
      (visit :: visits).foldlM callback start = visits.foldlM callback reached := by
    rw [List.foldlM_cons, hvisit]
    rfl
  cases h with
  | done h => exact .done ((hstep _).trans h)
  | failed front rest hfront hlast =>
    exact .failed (visit :: front) rest ((hstep _).trans hfront) hlast

/-- Visits that are made one after another make a run, which a log of them shows. -/
theorem exists_run (callback : σ → Visit → Except ε σ) (start : σ) (visits log : List Visit) :
    ∃ made result, Run callback start visits made result ∧
      visits.foldlM callback start = result ∧
      visits.foldlM (logged callback) (start, log) = withLog (log ++ made) result := by
  induction visits generalizing start log with
  | nil => exact ⟨[], .ok start, .done rfl, rfl, by rw [List.append_nil]; rfl⟩
  | cons visit rest ih =>
    rw [List.foldlM_cons, List.foldlM_cons]
    cases hvisit : callback start visit with
    | error error =>
      have hlogged : logged callback (start, log) visit = .error (error, log ++ [visit]) := by
        rw [logged, hvisit]
      exact ⟨[visit], .error error, .failed [] rest rfl hvisit, rfl, by rw [hlogged]; rfl⟩
    | ok reached =>
      have hlogged : logged callback (start, log) visit = .ok (reached, log ++ [visit]) := by
        rw [logged, hvisit]
      obtain ⟨made, result, hrun, hresult, hlog⟩ := ih reached (log ++ [visit])
      refine ⟨visit :: made, result, hrun.cons hvisit, hresult, ?_⟩
      rw [List.append_cons, ← hlog, hlogged]
      rfl

end Run

/-- A walk visits the nodes that paths through blocks lead to: each once, children before their
parent and siblings in the order of their keys. The visits that are made are all of these or those
up to the first that fails, whose error is then the result. A visit is below an `@` key exactly if a
node above it has one, and of the visits that are not, those to other nodes than scopes come in the
order of the document. -/
theorem walk_postorder {tree : StyleTree} (hdistinct : tree.isDistinct = true) :
    (∀ visit, visit ∈ tree.visits ↔ tree.Reaches visit.path visit.node) ∧
      (tree.visits.map Visit.path).Nodup ∧ tree.visits.Pairwise (ChildrenFirst tree) ∧
      (∀ {ε : Type u} {σ : Type v} (callback : σ → Visit → Except ε σ) (start : σ),
        ∃ made result, Run callback start tree.visits made result ∧ made <+: tree.visits ∧
          ((∀ state, ∀ visit ∈ tree.visits, ∃ reached, callback state visit = .ok reached) →
            made = tree.visits ∧ ∃ final, result = .ok final) ∧
          walk callback start tree = result ∧
          walk (logged callback) (start, []) tree = withLog made result) ∧
      (∀ visit ∈ tree.visits, (visit.inAtRule = true ↔
        ∃ other ∈ tree.visits, other.IsAbove visit ∧ Text.isAtKey other.key = true)) ∧
      (tree.visits.filter fun visit =>
        !visit.inAtRule && visit.role ≠ .scope).Pairwise (ParentFirst tree) := by
  refine ⟨fun _ => mem_visits_iff, nodup_paths hdistinct, pairwise_visits tree, ?_,
    fun _ => inAtRule_iff, pairwise_parentFirst hdistinct⟩
  intro ε σ callback start
  obtain ⟨made, result, hrun, hresult, hlog⟩ := exists_run callback start tree.visits []
  refine ⟨made, result, hrun, hrun.made_prefix, hrun.of_no_failure, ?_, ?_⟩
  · rw [walk_eq_foldlM, hresult]
  · rw [walk_eq_foldlM, hlog, List.nil_append]

/-- Counts visits and fails at a key. -/
def countTo (key : String) (count : Nat) (visit : Visit) : Except Nat Nat :=
  if visit.key = key then .error count else .ok (count + 1)

/-- A query in a block. -/
def queried : StyleTree := [("p", .tree [("@phone", .tree [("color", .leaf .null)])])]

/-- A walk that ends at an `@` key has visited what is below it, and one that looks for another key
comes to its end. -/
theorem walk_postorder_ends_at_query :
    queried.isDistinct = true ∧
      (∃ other ∈ queried.visits, other.IsAbove ⟨["p", "@phone", "color"], .leaf .null⟩ ∧
        Text.isAtKey other.key = true) ∧
      (∃ made result, Run (countTo "@phone") 0 queried.visits made result ∧
        walk (countTo "@phone") 0 queried = result) ∧
      ∃ final, walk (countTo "@print") 0 queried = .ok final := by
  have hdistinct : queried.isDistinct = true := by decide
  obtain ⟨hmem, -, -, hrun, hin, -⟩ := walk_postorder.{0, 0} hdistinct
  have hcolor := (hmem ⟨["p", "@phone", "color"], .leaf .null⟩).mpr
    (.inside List.mem_cons_self (by decide) (.inside List.mem_cons_self (by decide)
      (.here List.mem_cons_self)))
  obtain ⟨made, result, hgoes, -, -, hwalk, -⟩ := hrun (countTo "@phone") 0
  obtain ⟨_, _, -, -, hall, hend, -⟩ := hrun (countTo "@print") 0
  have hother : ∀ visit ∈ queried.visits, visit.key ≠ "@print" := by decide
  obtain ⟨-, final, rfl⟩ := hall fun state visit hvisit =>
    ⟨state + 1, if_neg (hother visit hvisit)⟩
  exact ⟨hdistinct, (hin _ hcolor).mp (by decide), ⟨made, result, hgoes, hwalk⟩, final, hend⟩

end StyleTree

end NestedStyles
