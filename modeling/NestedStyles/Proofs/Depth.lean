import NestedStyles.Proofs.Hoisting
import NestedStyles.Proofs.Passing

/-!
# The depth of the parts

A block is filed without the `@` key above it, and neither merging nor marking adds one. So every
part of a tree has fewer `@` keys on its paths than the tree, if no selector of a mode begins with
`@` (`StyleTree.atDepth_of_mem_parts`), and steps beyond the depth of a tree change nothing
(`StyleTree.compileWithin_steps`).
-/

namespace NestedStyles

/-- No selector of a mode, nor one that takes its place, refers to a mode itself. -/
structure Options.IsFlat (options : Options) : Prop where
  modes : ∀ entry ∈ options.modes, Text.isAtKey entry.2 = false
  auto : ∀ entry ∈ options.auto.getD [], Text.isAtKey entry.2.selector = false

namespace StyleTree

/-- What a key adds to the depth. -/
def keyDepth (key : String) : Nat := if Text.isAtKey key then 1 else 0

theorem keyDepth_of_plain {key : String} (h : Text.isAtKey key = false) : keyDepth key = 0 := by
  rw [keyDepth, h]
  rfl

theorem atDepth_cons (key : String) (node : Node) (rest : StyleTree) :
    atDepth ((key, node) :: rest) = max (keyDepth key + nodeAtDepth node) (atDepth rest) := rfl

/-- The depth of a tree bounds that of its entries. -/
theorem depth_of_mem {tree : StyleTree} {key : String} {node : Node} (h : (key, node) ∈ tree) :
    keyDepth key + nodeAtDepth node ≤ tree.atDepth := by
  induction tree with
  | nil => simp at h
  | cons entry rest ih =>
    obtain ⟨k, n⟩ := entry
    rw [atDepth_cons]
    rcases List.mem_cons.mp h with h | h
    · obtain ⟨rfl, rfl⟩ := Prod.mk.inj h
      omega
    · have := ih h
      omega

/-! ## Merging -/

theorem atDepth_upsert {n : Nat} {key : String} {change : Option Node → Node}
    (hchange : ∀ old, (∀ node, old = some node → keyDepth key + nodeAtDepth node ≤ n) →
      keyDepth key + nodeAtDepth (change old) ≤ n) :
    ∀ {tree : StyleTree}, tree.atDepth ≤ n → atDepth (tree.upsert key change) ≤ n
  | [], _ => by
    rw [Entries.upsert, atDepth_cons]
    have := hchange none (by simp)
    simpa [atDepth] using this
  | (k, node) :: rest, h => by
    rw [atDepth_cons] at h
    rw [Entries.upsert]
    split
    · next hk =>
      subst hk
      have := hchange (some node) fun other hother => by
        rw [← Option.some.inj hother]
        omega
      rw [atDepth_cons]
      omega
    · have := @atDepth_upsert n key change hchange rest (by omega)
      rw [atDepth_cons]
      omega

mutual

theorem nodeAtDepth_mergeNode {n : Nat} {old : Option Node}
    (hold : ∀ node, old = some node → nodeAtDepth node ≤ n) :
    ∀ {node : Node}, nodeAtDepth node ≤ n → nodeAtDepth (mergeNode old node) ≤ n
  | .leaf value, h => h
  | .tree entries, h => by
    match old with
    | none => exact h
    | some (.leaf value) => exact h
    | some (.tree existing) =>
      rw [mergeNode, nodeAtDepth]
      exact atDepth_merge (hold _ rfl) h

/-- A merge is not deeper than the trees that are merged. -/
theorem atDepth_merge {n : Nat} {target : StyleTree} (htarget : target.atDepth ≤ n) :
    ∀ {source : List (String × Node)}, atDepth source ≤ n → atDepth (merge target source) ≤ n
  | [], _ => htarget
  | (key, node) :: rest, h => by
    rw [atDepth_cons] at h
    rw [merge]
    refine atDepth_merge (atDepth_upsert (fun old hold => ?_) htarget) (by omega)
    have := @nodeAtDepth_mergeNode (n - keyDepth key) old
      (fun other hother => by have := hold other hother; omega) node (by omega)
    omega

end

/-! ## Marking -/

theorem atDepth_ofList {n : Nat} {writes : StyleTree} (h : writes.atDepth ≤ n) :
    atDepth (Entries.ofList writes) ≤ n := by
  have hfold : ∀ (writes start : StyleTree), start.atDepth ≤ n → writes.atDepth ≤ n →
      atDepth (writes.foldl (fun entries write => Entries.insert write.1 write.2 entries)
        start) ≤ n := by
    intro writes
    induction writes with
    | nil => exact fun start hstart _ => hstart
    | cons write rest ih =>
      intro start hstart hwrites
      obtain ⟨key, node⟩ := write
      rw [atDepth_cons] at hwrites
      have hnew : keyDepth key + nodeAtDepth node ≤ n := by omega
      exact ih _ (atDepth_upsert (fun _ _ => hnew) hstart) (by omega)
  exact hfold writes [] (Nat.zero_le n) h

mutual

theorem depth_markedEntry (key : String) : ∀ node : Node,
    keyDepth (markedEntry key node).1 + nodeAtDepth (markedEntry key node).2 ≤
      keyDepth key + nodeAtDepth node
  | .leaf value => Nat.le_refl _
  | .tree entries => by
    rw [markedEntry]
    split
    · exact Nat.le_refl _
    · split
      · have := atDepth_ofList (atDepth_markedEntries entries)
        dsimp only [nodeAtDepth]
        omega
      · split
        · exact Nat.le_refl _
        · dsimp only
          rw [keyDepth_of_plain (isAtKey_asDescendant key)]
          omega

/-- Marking the keys of a block does not make it deeper. -/
theorem atDepth_markedEntries : ∀ entries : List (String × Node),
    atDepth (markedEntries entries) ≤ atDepth entries
  | [] => Nat.le_refl _
  | (key, node) :: rest => by
    have hself := depth_markedEntry key node
    have hrest := atDepth_markedEntries rest
    rw [markedEntries, atDepth_cons, atDepth_cons]
    omega

end

/-- The content of a mode is not deeper than its block. -/
theorem atDepth_descendantTree {parents : List String}
    (hparents : parents.any Text.isAtKey = false) (block : StyleTree) :
    (Buckets.descendantTree parents block).atDepth ≤ block.atDepth := by
  rcases Selector.blank_or_split parents with hblank | ⟨blank, first, rest, rfl, hblank, hfirst⟩
  · rw [descendantTree_of_blank hblank, atDepth_nest hparents]
    exact atDepth_ofList (atDepth_markedEntries block)
  · rw [descendantTree_split hblank hfirst]
    refine Nat.le_of_eq (atDepth_nest ?_ block)
    rw [List.any_append, List.any_cons, isAtKey_asDescendant]
    rw [List.any_append, List.any_cons, Bool.or_eq_false_iff, Bool.or_eq_false_iff] at hparents
    rw [hparents.1, hparents.2.2]
    rfl

/-! ## Visits -/

mutual

theorem depth_of_mem_visitsNode {above : List String} {key : String} {visit : Visit} :
    ∀ {node : Node}, visit ∈ visitsNode (above ++ [key]) node →
      keyDepth visit.key + nodeAtDepth visit.node ≤ keyDepth key + nodeAtDepth node
  | .leaf value, h => by
    rw [visitsNode, List.mem_singleton] at h
    exact Nat.le_of_eq (by rw [h, Visit.key_mk])
  | .tree entries, h => by
    have hnode (hvisit : visit = ⟨above ++ [key], .tree entries⟩) :
        keyDepth visit.key + nodeAtDepth visit.node ≤ keyDepth key + atDepth entries := by
      rw [hvisit, Visit.key_mk]
      exact Nat.le_refl _
    rw [visitsNode] at h
    rw [nodeAtDepth]
    split at h
    · exact hnode (List.mem_singleton.mp h)
    · rcases List.mem_append.mp h with h | h
      · have := depth_of_mem_visitsBelow h
        omega
      · exact hnode (List.mem_singleton.mp h)

/-- The depth of a tree bounds that of every node that is visited. -/
theorem depth_of_mem_visitsBelow {above : List String} {visit : Visit} :
    ∀ {entries : List (String × Node)}, visit ∈ visitsBelow above entries →
      keyDepth visit.key + nodeAtDepth visit.node ≤ atDepth entries
  | [], h => by simp [visitsBelow] at h
  | (key, node) :: rest, h => by
    rw [atDepth_cons]
    rcases List.mem_append.mp h with h | h
    · have := depth_of_mem_visitsNode h
      omega
    · have := depth_of_mem_visitsBelow h
      omega

end

theorem atDepth_of_block? {node : Node} {block : StyleTree} (h : node.block? = some block) :
    nodeAtDepth node = block.atDepth := by
  rw [Node.eq_tree_of_block? h, nodeAtDepth]

section Parts

variable {options : Options} {tree : StyleTree}

/-- A filed block is less deep than the tree. -/
theorem atDepth_filing {filing : Filing} (h : filing ∈ tree.filings options) :
    filing.tree.atDepth + 1 ≤ tree.atDepth := by
  obtain ⟨visit, hvisit, hfiling⟩ := List.mem_flatMap.mp h
  have hdepth := depth_of_mem_visitsBelow hvisit
  obtain ⟨hin, hkey, ⟨hparents, hblock, -⟩ | ⟨hparents, entry, hentry, hblock, -⟩⟩ :=
    Visit.mem_filings hfiling
  · rw [keyDepth, if_pos hkey] at hdepth
    rw [Filing.tree, hparents, atDepth_nest hin, hblock]
    cases hnode : visit.node.block? with
    | none =>
      rw [Option.getD_none, atDepth]
      omega
    | some block =>
      rw [atDepth_of_block? hnode] at hdepth
      rw [Option.getD_some]
      omega
  · rw [keyDepth, if_pos hkey] at hdepth
    rw [Filing.tree, hparents, nest_nil]
    cases hnode : visit.node with
    | leaf value =>
      rw [hnode] at hentry
      exact absurd hentry (by simp [Node.entries])
    | tree entries =>
      rw [hnode, nodeAtDepth] at hdepth
      rw [hnode] at hentry
      have : keyDepth entry.1 + nodeAtDepth entry.2 ≤ atDepth entries := depth_of_mem hentry
      rw [atDepth_of_block? hblock] at this
      omega

/-- The content of a mode is less deep than the tree. -/
theorem atDepth_modeFiling {filing : ModeFiling} (h : filing ∈ tree.modeFilings options) :
    filing.content.atDepth + 1 ≤ tree.atDepth := by
  obtain ⟨visit, hvisit, hfiling⟩ := List.mem_filterMap.mp h
  have hdepth := depth_of_mem_visitsBelow hvisit
  obtain ⟨hin, -, hkey, hparents, hblock, -⟩ := Visit.modeFiling?_eq_some hfiling
  rw [keyDepth, if_pos hkey, atDepth_of_block? hblock] at hdepth
  have := atDepth_descendantTree hin filing.block
  rw [ModeFiling.content, hparents]
  omega

theorem atDepth_below_selector {selector : String} (h : Text.isAtKey selector = false)
    (content : StyleTree) : (nest [selector] content).atDepth = content.atDepth :=
  atDepth_nest (by simpa using h) content

/-- Every part of a tree is less deep than the tree. -/
theorem atDepth_of_mem_parts (hflat : options.IsFlat) {auto : Bool} {found : Collected}
    (hholds : Collected.Holds options tree found) {part : Part}
    (h : part ∈ found.parts options auto) : part.tree.atDepth + 1 ≤ tree.atDepth := by
  refine Collected.of_mem_parts (p := fun _ t => t.atDepth + 1 ≤ tree.atDepth) hholds
    (fun _ (a b : StyleTree) ha hb => ?_) (fun _ => atDepth_filing) (fun filing hfiling => ?_)
    (fun modes hmodes selector content hget entry hentry => ?_) h
  · have hfirst : a.atDepth ≤ tree.atDepth - 1 := by
      rcases ha with rfl | ha
      · exact Nat.zero_le _
      · omega
    have := @atDepth_merge (tree.atDepth - 1) a hfirst b (by omega)
    omega
  · obtain ⟨visit, -, hvisit⟩ := List.mem_filterMap.mp hfiling
    obtain ⟨-, -, -, -, -, htarget⟩ := Visit.modeFiling?_eq_some hvisit
    have hselector : Text.isAtKey filing.selector = false :=
      hflat.modes _ (Entries.mem_of_get? (Target.mode_of_ofKey? htarget))
    rw [ModeFiling.tree, atDepth_below_selector hselector]
    exact atDepth_modeFiling hfiling
  · have := depth_of_mem (Entries.mem_of_get? hget)
    rw [nodeAtDepth] at this
    rw [atDepth_below_selector (hflat.auto entry hentry)]
    omega

/-! ## Steps -/

/-- Any number of steps beyond the depth of a tree gives the same stylesheet. -/
theorem compileWithin_steps (hflat : options.IsFlat) {m n : Nat} (hm : tree.atDepth < m)
    (hn : tree.atDepth < n) (scope : List String) (auto : Bool) :
    tree.compileWithin options m scope auto = tree.compileWithin options n scope auto := by
  induction m generalizing n tree scope auto with
  | zero => omega
  | succ m ih =>
    obtain ⟨n, rfl⟩ : ∃ k, n = k + 1 := ⟨n - 1, by omega⟩
    cases hfound : tree.collect options scope with
    | error e => rw [compileWithin, compileWithin, hfound]; rfl
    | ok found =>
      rw [compileWithin_succ options m auto hfound, compileWithin_succ options n auto hfound]
      refine congrArg (Except.map _) (mapM_congr fun part hpart => ?_)
      have := atDepth_of_mem_parts hflat (Collected.holds_collect hfound) hpart
      rw [Part.compile, Part.compile]
      exact congrArg (Except.map _) (ih (by omega) (by omega) _ _)

/-- There are more steps for a tree than it is deep. -/
theorem atDepth_lt_steps (options : Options) (tree : StyleTree) :
    tree.atDepth < tree.steps options := by
  rw [steps, Nat.add_mul, Nat.mul_add]
  omega

/-- The CSS of a tree is what any number of steps beyond its depth gives. -/
theorem css_compile_of_steps (hflat : options.IsFlat) {n : Nat} (hn : tree.atDepth < n) :
    (tree.compile options).map Stylesheet.css =
      (tree.compileWithin options n [] true).map Stylesheet.css := by
  rw [css_compile, compileWithin_steps hflat (atDepth_lt_steps options tree) hn]

/-- What a tree collects to determines what it compiles to. -/
theorem compile_congr (hflat : options.IsFlat) {tree' : StyleTree}
    (hcollect : ∀ scope, tree.collect options scope = tree'.collect options scope) :
    tree.compile options = tree'.compile options := by
  have hsteps (t : StyleTree) (ht : t.atDepth < max tree.atDepth tree'.atDepth + 1) :
      t.compileWithin options (t.steps options) [] true =
        t.compileWithin options (max tree.atDepth tree'.atDepth + 1) [] true :=
    compileWithin_steps hflat (atDepth_lt_steps options t) ht [] true
  rw [compile, compile, hsteps tree (by omega), hsteps tree' (by omega), compileWithin,
    compileWithin, hcollect]

end Parts

end StyleTree

end NestedStyles
