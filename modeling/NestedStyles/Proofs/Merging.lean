import NestedStyles.Proofs.Lookup
import NestedStyles.Tree.Merge

/-!
# What a merge leaves

At a path where the second tree has a node, a merge leaves what `mergeNode` makes of it
(`StyleTree.node?_merge_of_some`). Everywhere else it leaves what the first tree has, unless a value
of the second tree stands above (`node?_merge_of_none`). A condition on all nodes that merging two
maps keeps holds of the merge of two trees (`every_merge`).
-/

namespace NestedStyles.StyleTree

/-! ## Keys of a merge -/

theorem merge_eq_foldl (target source : StyleTree) : target.merge source =
    source.foldl (fun tree entry => tree.upsert entry.1 (mergeNode · entry.2)) target := by
  induction source generalizing target with
  | nil => rfl
  | cons entry rest ih => rw [merge, ih, List.foldl_cons]

theorem Distinct.merge {target source : StyleTree} (h : target.Distinct) :
    (target.merge source).Distinct := by
  rw [merge_eq_foldl]
  exact h.foldl_upsert Prod.fst (fun entry old => mergeNode old entry.2) source

/-- Each key of the second tree is written once. -/
theorem get?_merge {target source : StyleTree} (hsource : source.Distinct) (key : String) :
    (target.merge source).get? key =
      ((source.get? key).map (mergeNode (target.get? key))).or (target.get? key) := by
  induction source generalizing target with
  | nil => rfl
  | cons entry rest ih =>
    obtain ⟨k, node⟩ := entry
    obtain ⟨hk, hrest⟩ := List.nodup_cons.mp hsource
    rw [merge, ih hrest, Entries.get?_upsert]
    by_cases h : key = k
    · subst h
      have hnone : Entries.get? key rest = none := Entries.get?_eq_none_iff.mpr hk
      simp [hnone, Entries.get?]
    · simp [h, Ne.symm h, Entries.get?]

/-- The keys of a merge are those of the first tree and behind them those that are new in the
second. -/
theorem keys_merge (target : StyleTree) {source : StyleTree} (hsource : source.Distinct) :
    (target.merge source).keys = target.keys ++ source.keys.filter (· ∉ target.keys) := by
  induction source generalizing target with
  | nil => exact (List.append_nil _).symm
  | cons entry rest ih =>
    obtain ⟨k, node⟩ := entry
    obtain ⟨hk, hrest⟩ := List.nodup_cons.mp hsource
    rw [merge, ih _ hrest, Entries.keys_upsert, Entries.keys_cons]
    split
    · next hmem => rw [List.filter_cons_of_neg (by simpa using hmem)]
    · next hmem =>
      have hnew : (Entries.keys rest).filter (· ∉ target.keys ++ [k]) =
          (Entries.keys rest).filter (· ∉ target.keys) :=
        List.filter_congr fun key hkey => by
          have hne : key ≠ k := fun h => hk (h ▸ hkey)
          simp [hne]
      rw [List.filter_cons_of_pos (by simpa using hmem), hnew, List.append_assoc,
        List.singleton_append]

/-- Writing over an empty tree leaves what is written. -/
theorem merge_nil_left {source : StyleTree} (h : source.Distinct) : merge [] source = source := by
  refine (Distinct.merge Entries.distinct_nil).eq_of_view ?_ fun key => ?_
  · rw [keys_merge [] h]
    simp
  · rw [get?_merge h]
    rcases source.get? key with _ | value | entries <;> rfl

/-! ## Conditions on all nodes -/

section Every

variable {p : String → Node → Bool}

theorem every_upsert {key : String} {change : Option Node → Node} {tree : StyleTree}
    (h : every p tree = true)
    (hchange : ∀ old, (∀ node, old = some node → p key node = true ∧ nodeEvery p node = true) →
      p key (change old) = true ∧ nodeEvery p (change old) = true) :
    every p (tree.upsert key change) = true := by
  induction tree with
  | nil =>
    rw [Entries.upsert, every_cons]
    obtain ⟨h₁, h₂⟩ := hchange none (by simp)
    rw [h₁, h₂]
    rfl
  | cons entry rest ih =>
    obtain ⟨k, node⟩ := entry
    rw [every_cons, Bool.and_eq_true, Bool.and_eq_true] at h
    rw [Entries.upsert]
    split
    · next hk =>
      subst hk
      obtain ⟨h₁, h₂⟩ := hchange (some node) fun other hother =>
        Option.some.inj hother ▸ h.1
      rw [every_cons, h₁, h₂, h.2]
      rfl
    · rw [every_cons, h.1.1, h.1.2, ih h.2]
      rfl

mutual

theorem every_mergeNode (hmaps : ∀ key old new, p key (.tree old) = true →
      p key (.tree new) = true → p key (.tree (merge old new)) = true)
    {key : String} {old : Option Node}
    (hold : ∀ node, old = some node → p key node = true ∧ nodeEvery p node = true) :
    ∀ {node : Node}, p key node = true → nodeEvery p node = true →
      p key (mergeNode old node) = true ∧ nodeEvery p (mergeNode old node) = true
  | .leaf value, hself, hbelow => ⟨hself, hbelow⟩
  | .tree entries, hself, hbelow => by
    match old with
    | none => exact ⟨hself, hbelow⟩
    | some (.leaf value) => exact ⟨hself, hbelow⟩
    | some (.tree existing) =>
      obtain ⟨hexisting, hinner⟩ := hold _ rfl
      exact ⟨hmaps key existing entries hexisting hself, every_merge hmaps hinner hbelow⟩

/-- A condition that merging two maps keeps holds everywhere in a merge. -/
theorem every_merge (hmaps : ∀ key old new, p key (.tree old) = true →
      p key (.tree new) = true → p key (.tree (merge old new)) = true)
    {target : StyleTree} (htarget : every p target = true) :
    ∀ {source : List (String × Node)}, every p source = true → every p (merge target source) = true
  | [], _ => htarget
  | (key, node) :: rest, hsource => by
    simp only [every_cons, Bool.and_eq_true] at hsource
    obtain ⟨⟨hself, hbelow⟩, hrest⟩ := hsource
    rw [merge]
    refine every_merge hmaps (every_upsert htarget fun old hold => ?_) hrest
    exact every_mergeNode hmaps hold hself hbelow

end

theorem isDistinct_merge {target source : StyleTree} (htarget : target.isDistinct = true)
    (hsource : source.isDistinct = true) : (target.merge source).isDistinct = true := by
  obtain ⟨hroot, hbelow⟩ := isDistinct_iff.mp htarget
  refine isDistinct_iff.mpr ⟨Distinct.merge hroot, every_merge (fun _ old new hold _ => ?_) hbelow
    (isDistinct_iff.mp hsource).2⟩
  exact Node.isDistinct_tree.mpr (Distinct.merge (Node.isDistinct_tree.mp hold))

/-- The maps in a tree with distinct keys have distinct keys. -/
theorem isDistinct_of_mem {tree entries : StyleTree} (h : tree.isDistinct = true) {key : String}
    (hmem : (key, .tree entries) ∈ tree) : entries.isDistinct = true := by
  obtain ⟨hself, hbelow⟩ := every_iff.mp (isDistinct_iff.mp h).2 key (.tree entries) hmem
  exact isDistinct_iff.mpr ⟨Node.isDistinct_tree.mp hself, hbelow⟩

theorem isPlain_merge {target source : StyleTree} (htarget : target.isPlain = true)
    (hsource : source.isPlain = true) : (target.merge source).isPlain = true :=
  every_merge (fun _ _ _ (hold : (!Text.isAtKey _) = true) _ => hold) htarget hsource

theorem isFinite_merge {target source : StyleTree} (htarget : target.isFinite = true)
    (hsource : source.isFinite = true) : (target.merge source).isFinite = true :=
  every_merge (fun _ _ _ _ _ => rfl) htarget hsource

end Every

/-! ## Paths of a merge -/

section Paths

variable {target source : StyleTree}

/-- The entries of the map that stands at a key, none if no map does. -/
def entriesOf (node : Option Node) : StyleTree := (node.map Node.entries).getD []

theorem bind_down?_of_ne_nil {path : List String} (hpath : path ≠ []) (node : Option Node) :
    node.bind (Node.down? path) = (entriesOf node).node? path := by
  obtain ⟨key, path, rfl⟩ := List.exists_cons_of_ne_nil hpath
  rcases node with _ | value | entries
  · rfl
  · rfl
  · rfl

/-- A map is written over the entries of the map that stands there. -/
theorem down?_mergeNode {entries : StyleTree} (hentries : entries.Distinct) {path : List String}
    (hpath : path ≠ []) (old : Option Node) :
    (mergeNode old (.tree entries)).down? path = (merge (entriesOf old) entries).node? path := by
  obtain ⟨key, path, rfl⟩ := List.exists_cons_of_ne_nil hpath
  have hnil : (merge [] entries).node? (key :: path) = entries.node? (key :: path) := by
    rw [node?_cons, node?_cons, get?_merge hentries]
    rcases entries.get? key with _ | value | inner
    · rfl
    · rfl
    · rfl
  rcases old with _ | value | existing
  · exact hnil.symm
  · exact hnil.symm
  · rfl

theorem mergeNode_tree_ne_leaf (old : Option Node) (entries : StyleTree) (value : Value) :
    mergeNode old (.tree entries) ≠ .leaf value := by
  rcases old with _ | other | existing
  · exact fun h => Node.noConfusion h
  · exact fun h => Node.noConfusion h
  · exact fun h => Node.noConfusion h

/-- Where the second tree has a node, it is written over what the first tree has there. -/
theorem node?_merge_of_some (hsource : source.isDistinct = true) {path : List String}
    (hpath : path ≠ []) {node : Node} (h : source.node? path = some node) :
    (target.merge source).node? path = some (mergeNode (target.node? path) node) := by
  induction path generalizing target source with
  | nil => exact absurd rfl hpath
  | cons key path ih =>
    obtain ⟨hroot, hbelow⟩ := isDistinct_iff.mp hsource
    rw [node?_cons] at h
    obtain ⟨next, hnext, hnode⟩ := Option.bind_eq_some_iff.mp h
    rw [node?_cons, get?_merge hroot, hnext, Option.map_some, Option.some_or, Option.bind_some,
      node?_cons]
    by_cases hnil : path = []
    · subst hnil
      obtain rfl : next = node := by simpa [Node.down?_nil] using hnode
      rw [Node.down?_nil]
      cases target.get? key with
      | none => rfl
      | some old => rw [Option.bind_some, Node.down?_nil]
    · cases next with
      | leaf value =>
        rw [Node.down?_leaf hnil] at hnode
        exact absurd hnode (by simp)
      | tree entries =>
        have hentries := isDistinct_of_mem hsource (Entries.mem_of_get? hnext)
        rw [down?_mergeNode (isDistinct_iff.mp hentries).1 hnil, bind_down?_of_ne_nil hnil]
        exact ih hentries hnil hnode

/-- Where the second tree has no node, the first tree stays as it is, unless a value of the second
tree stands above. -/
theorem node?_merge_of_none (hsource : source.isDistinct = true) {path : List String}
    (h : source.node? path = none) :
    (target.merge source).node? path =
      if source.endsAbove path then none else target.node? path := by
  induction path generalizing target source with
  | nil => simp [node?, Node.down?] at h
  | cons key path ih =>
    obtain ⟨hroot, hbelow⟩ := isDistinct_iff.mp hsource
    have hends : source.endsAbove (key :: path) = (source.get? key).any (Node.endsAbove path) := rfl
    rw [node?_cons] at h ⊢
    rw [get?_merge hroot, hends]
    cases hnext : source.get? key with
    | none => rfl
    | some next =>
      rw [hnext, Option.bind_some] at h
      rw [Option.map_some, Option.some_or, Option.bind_some, Option.any_some, node?_cons]
      have hnil : path ≠ [] := by
        rintro rfl
        rw [Node.down?_nil] at h
        exact absurd h (by simp)
      cases next with
      | leaf value =>
        obtain ⟨k, path, rfl⟩ := List.exists_cons_of_ne_nil hnil
        rfl
      | tree entries =>
        have hentries := isDistinct_of_mem hsource (Entries.mem_of_get? hnext)
        rw [down?_mergeNode (isDistinct_iff.mp hentries).1 hnil, bind_down?_of_ne_nil hnil]
        exact ih hentries h

end Paths

/-! ## Maps that are merged to a reference -/

/-- A map stands for a reference if it has a text `var`, at most a text `name` and nothing else. -/
theorem isSome_reference? {entries : StyleTree} : (reference? entries).isSome = true ↔
    (∃ css, entries.get? "var" = some (.leaf (.text css))) ∧
      (∀ node, entries.get? "name" = some node → ∃ name, node = .leaf (.text name)) ∧
      ∀ key ∈ entries.keys, key = "var" ∨ key = "name" := by
  rw [Option.isSome_iff_exists]
  constructor
  · rintro ⟨value, hvalue⟩
    obtain ⟨css, name, -, hvar, hname, hkeys⟩ := reference?_eq_some_iff.mp hvalue
    refine ⟨⟨css, hvar⟩, fun node hnode => ?_, hkeys⟩
    obtain ⟨text, -, htext⟩ := Option.map_eq_some_iff.mp (hname.symm.trans hnode)
    exact ⟨text, htext.symm⟩
  · rintro ⟨⟨css, hvar⟩, hname, hkeys⟩
    cases hget : entries.get? "name" with
    | none => exact ⟨_, reference?_eq_some_iff.mpr ⟨css, none, rfl, hvar, hget, hkeys⟩⟩
    | some node =>
      obtain ⟨name, rfl⟩ := hname node hget
      exact ⟨_, reference?_eq_some_iff.mpr ⟨css, some name, rfl, hvar, hget, hkeys⟩⟩

/-- Two maps that stand for references are merged to one that does. -/
theorem isSome_reference?_merge {a b : StyleTree} (hb : b.Distinct)
    (h : (reference? a).isSome = true) (h' : (reference? b).isSome = true) :
    (reference? (a.merge b)).isSome = true := by
  obtain ⟨-, haname, hakeys⟩ := isSome_reference?.mp h
  obtain ⟨⟨css, hbvar⟩, hbname, hbkeys⟩ := isSome_reference?.mp h'
  refine isSome_reference?.mpr ⟨⟨css, ?_⟩, fun node hnode => ?_, fun key hkey => ?_⟩
  · rw [get?_merge hb, hbvar]
    rfl
  · rw [get?_merge hb] at hnode
    cases hname : b.get? "name" with
    | none =>
      rw [hname] at hnode
      exact haname node hnode
    | some other =>
      obtain ⟨name, rfl⟩ := hbname other hname
      rw [hname] at hnode
      exact ⟨name, (Option.some.inj hnode).symm⟩
  · rw [← Entries.get?_isSome, get?_merge hb] at hkey
    cases hget : b.get? key with
    | none =>
      rw [hget] at hkey
      exact hakeys key ((Entries.get?_isSome key a).mp hkey)
    | some other => exact hbkeys key ((Entries.get?_isSome key b).mp (by rw [hget]; rfl))

/-- Two leaves are merged to a leaf. -/
theorem isLeaf_mergeNode {old node : Node} (hdistinct : node.isDistinct = true)
    (h : old.isLeaf = true) (h' : node.isLeaf = true) :
    (mergeNode (some old) node).isLeaf = true := by
  cases node with
  | leaf value => rfl
  | tree entries =>
    cases old with
    | leaf value => exact h'
    | tree existing => exact isSome_reference?_merge (Node.isDistinct_tree.mp hdistinct) h h'

/-! ## Many trees merged -/

/-- The trees merged one after another. -/
def mergeAll (trees : List StyleTree) : StyleTree := trees.foldl merge []

theorem mergeAll_append (front back : List StyleTree) :
    mergeAll (front ++ back) = back.foldl merge (mergeAll front) := List.foldl_append ..

/-- What holds of the empty tree and is kept by merging holds of trees merged one after another. -/
theorem mergeAll_of {p : StyleTree → Prop} (hnil : p []) (hmerge : ∀ a b, p a → p b → p (a.merge b))
    {trees : List StyleTree} (h : ∀ tree ∈ trees, p tree) : p (mergeAll trees) := by
  have hfold : ∀ (trees : List StyleTree) (start : StyleTree), p start → (∀ tree ∈ trees, p tree) →
      p (trees.foldl merge start) := by
    intro trees
    induction trees with
    | nil => exact fun start hstart _ => hstart
    | cons tree rest ih =>
      intro start hstart htrees
      exact ih _ (hmerge _ _ hstart (htrees tree (by simp))) fun t ht => htrees t (by simp [ht])
  exact hfold trees [] hnil h

/-- A merge is not empty if one of the trees is not. -/
theorem merge_ne_nil {target source : StyleTree} (h : target ≠ [] ∨ source ≠ []) :
    target.merge source ≠ [] := by
  induction source generalizing target with
  | nil =>
    rw [merge]
    exact h.resolve_right (absurd rfl)
  | cons entry rest ih =>
    obtain ⟨key, node⟩ := entry
    rw [merge]
    refine ih (Or.inl ?_)
    cases target with
    | nil => simp [Entries.upsert]
    | cons first others =>
      rw [Entries.upsert]
      split <;> simp

theorem mergeAll_ne_nil {trees : List StyleTree} {tree : StyleTree} (h : tree ∈ trees)
    (hne : tree ≠ []) : mergeAll trees ≠ [] := by
  have hfold : ∀ (trees : List StyleTree) (start : StyleTree), start ≠ [] →
      trees.foldl merge start ≠ [] := by
    intro trees
    induction trees with
    | nil => exact fun _ h => h
    | cons tree rest ih => exact fun _ h => ih _ (merge_ne_nil (Or.inl h))
  obtain ⟨front, back, rfl⟩ := List.append_of_mem h
  rw [mergeAll_append, List.foldl_cons]
  exact hfold back _ (merge_ne_nil (Or.inr hne))

/-- What stands at a key of a merge stands at that key of one of the trees. -/
theorem mem_merge {key : String} {node : Node} {source : StyleTree} :
    ∀ {target : StyleTree}, (key, node) ∈ target.merge source →
      (key, node) ∈ target ∨ ∃ new, (key, new) ∈ source := by
  induction source with
  | nil =>
    intro target h
    rw [merge] at h
    exact Or.inl h
  | cons entry rest ih =>
    obtain ⟨k, n⟩ := entry
    intro target h
    rw [merge] at h
    rcases ih h with h | ⟨new, h⟩
    · rcases Entries.mem_upsert h with h | ⟨rfl, -⟩
      · exact Or.inl h
      · exact Or.inr ⟨n, List.mem_cons_self⟩
    · exact Or.inr ⟨new, List.mem_cons_of_mem _ h⟩

/-- The keys of trees that are merged are keys of the trees. -/
theorem exists_of_mem_mergeAll {trees : List StyleTree} {key : String} {node : Node}
    (h : (key, node) ∈ mergeAll trees) : ∃ tree ∈ trees, ∃ new, (key, new) ∈ tree := by
  refine mergeAll_of (p := fun t => ∀ key node, (key, node) ∈ t →
    ∃ tree ∈ trees, ∃ new, (key, new) ∈ tree) (by simp) (fun a b ha hb key node hmem => ?_)
    (fun tree htree key node hmem => ⟨tree, htree, node, hmem⟩) key node h
  rcases mem_merge hmem with hmem | ⟨new, hmem⟩
  · exact ha key node hmem
  · exact hb key new hmem

/-- A change of trees that commutes with merging, on trees that satisfy a condition which merging
keeps. -/
structure KeepsMerges (q : StyleTree → Prop) (f : StyleTree → StyleTree) : Prop where
  nil : q []
  merge : ∀ {a b}, q a → q b → q (a.merge b)
  change_nil : f [] = []
  commutes : ∀ {a b}, q a → q b → StyleTree.merge (f a) (f b) = f (a.merge b)

/-- What the changed trees merge to is the merge of the trees, changed. -/
theorem KeepsMerges.mergeAll {q : StyleTree → Prop} {f : StyleTree → StyleTree}
    (h : KeepsMerges q f) {trees : List StyleTree} (htrees : ∀ tree ∈ trees, q tree) :
    mergeAll (trees.map f) = f (mergeAll trees) := by
  have hfold : ∀ (trees : List StyleTree) (start : StyleTree), q start → (∀ tree ∈ trees, q tree) →
      (trees.map f).foldl StyleTree.merge (f start) = f (trees.foldl StyleTree.merge start) := by
    intro trees
    induction trees with
    | nil => exact fun _ _ _ => rfl
    | cons tree rest ih =>
      intro start hstart htrees
      have htree : q tree := htrees tree (by simp)
      rw [List.map_cons, List.foldl_cons, List.foldl_cons, h.commutes hstart htree,
        ih _ (h.merge hstart htree) fun t ht => htrees t (by simp [ht])]
  rw [StyleTree.mergeAll, StyleTree.mergeAll, ← hfold trees [] h.nil htrees, h.change_nil]

/-- What stands at a path of trees merged one after another is what the last tree that holds
anything there writes. -/
theorem exists_last_of_node?_mergeAll {path : List String} (hpath : path ≠ []) {node : Node}
    {trees : List StyleTree} (htrees : ∀ tree ∈ trees, tree.isDistinct = true)
    (h : (mergeAll trees).node? path = some node) :
    ∃ before tree after written, trees = before ++ tree :: after ∧
      tree.node? path = some written ∧ (∀ later ∈ after, later.node? path = none) ∧
      node = mergeNode ((mergeAll before).node? path) written := by
  have hfold : ∀ (trees : List StyleTree) (start : StyleTree),
      (∀ tree ∈ trees, tree.isDistinct = true) →
      (trees.foldl merge start).node? path = some node →
      (∃ before tree after written, trees = before ++ tree :: after ∧
        tree.node? path = some written ∧ (∀ later ∈ after, later.node? path = none) ∧
        node = mergeNode ((before.foldl merge start).node? path) written) ∨
      start.node? path = some node ∧ ∀ tree ∈ trees, tree.node? path = none := by
    intro trees
    induction trees with
    | nil => exact fun start _ hstart => Or.inr ⟨hstart, by simp⟩
    | cons tree rest ih =>
      intro start htrees hfold
      have htree : tree.isDistinct = true := htrees tree (by simp)
      rcases ih _ (fun t ht => htrees t (by simp [ht])) hfold with
        ⟨before, last, after, written, rfl, hlast⟩ | ⟨hnode, hrest⟩
      · exact Or.inl ⟨tree :: before, last, after, written, rfl, hlast⟩
      cases hwritten : tree.node? path with
      | some written =>
        rw [node?_merge_of_some htree hpath hwritten, Option.some.injEq] at hnode
        exact Or.inl ⟨[], tree, rest, written, rfl, hwritten, hrest, hnode.symm⟩
      | none =>
        rw [node?_merge_of_none htree hwritten] at hnode
        split at hnode
        · exact absurd hnode (by simp)
        · exact Or.inr ⟨hnode, by simpa using ⟨hwritten, hrest⟩⟩
  rcases hfold trees [] htrees h with hlast | ⟨hnil, -⟩
  · exact hlast
  · obtain ⟨key, path, rfl⟩ := List.exists_cons_of_ne_nil hpath
    exact absurd hnil (by simp [node?_cons])

/-- A value in trees merged one after another stands in one of them. -/
theorem exists_of_node?_mergeAll {trees : List StyleTree}
    (htrees : ∀ tree ∈ trees, tree.isDistinct = true) {path : List String} (hpath : path ≠ [])
    {value : Value} (h : (mergeAll trees).node? path = some (.leaf value)) :
    ∃ tree ∈ trees, tree.node? path = some (.leaf value) := by
  obtain ⟨before, tree, after, written, rfl, hwritten, -, hnode⟩ :=
    exists_last_of_node?_mergeAll hpath htrees h
  cases written with
  | leaf other => exact ⟨tree, by simp, hnode ▸ hwritten⟩
  | tree entries => exact absurd hnode.symm (mergeNode_tree_ne_leaf _ _ _)

/-! ## Values that stay -/

section Holds

variable {property : String} {path : List String} {target source : StyleTree}

/-- A map stands at the path, or a value that is written for the property. -/
def HoldsAt (property : String) (path : List String) (tree : StyleTree) : Prop :=
  ∃ node, tree.node? path = some node ∧
    ∀ value, node = .leaf value → (value.written? property).isSome = true

/-- The tree takes nothing away that another one holds at the path: it has no value above, and at
the path it has nothing or a value that is written for the property itself. -/
structure Spares (property : String) (path : List String) (tree : StyleTree) : Prop where
  above : tree.endsAbove path = false
  here : ∀ node, tree.node? path = some node →
    ∃ value, node.value? = some value ∧ (value.written? property).isSome = true

/-- What a tree holds it writes into every other. -/
theorem HoldsAt.merge_left (hsource : source.isDistinct = true) (hpath : path ≠ [])
    (h : HoldsAt property path source) : HoldsAt property path (target.merge source) := by
  obtain ⟨node, hnode, hwritten⟩ := h
  refine ⟨_, node?_merge_of_some hsource hpath hnode, fun value hvalue => hwritten value ?_⟩
  cases node with
  | leaf other => exact hvalue
  | tree entries => exact absurd hvalue (mergeNode_tree_ne_leaf _ _ _)

/-- What a tree holds stays when a tree is written over it that spares it. -/
theorem HoldsAt.merge_right (hsource : source.isDistinct = true) (hpath : path ≠ [])
    (h : HoldsAt property path target) (hspares : Spares property path source) :
    HoldsAt property path (target.merge source) := by
  cases hnode : source.node? path with
  | some node =>
    refine HoldsAt.merge_left hsource hpath ⟨node, hnode, fun value hvalue => ?_⟩
    obtain ⟨other, hother, hwritten⟩ := hspares.here node hnode
    rw [hvalue] at hother
    rwa [Option.some.inj hother]
  | none =>
    obtain ⟨node, hheld, hwritten⟩ := h
    refine ⟨node, ?_, hwritten⟩
    rw [node?_merge_of_none hsource hnode, hspares.above]
    exact hheld

/-- What one of several trees holds stays in their merge if the trees behind it spare it. -/
theorem holdsAt_mergeAll {before after : List StyleTree}
    (htrees : ∀ tree ∈ before ++ source :: after, tree.isDistinct = true) (hpath : path ≠ [])
    (h : HoldsAt property path source) (hspares : ∀ tree ∈ after, Spares property path tree) :
    HoldsAt property path (mergeAll (before ++ source :: after)) := by
  have hfold : ∀ (after : List StyleTree) (target : StyleTree), HoldsAt property path target →
      (∀ tree ∈ after, tree.isDistinct = true ∧ Spares property path tree) →
      HoldsAt property path (after.foldl merge target) := by
    intro after
    induction after with
    | nil => exact fun target htarget _ => htarget
    | cons tree rest ih =>
      intro target htarget hafter
      obtain ⟨hdistinct, hspares⟩ := hafter tree (by simp)
      exact ih _ (htarget.merge_right hdistinct hpath hspares) fun t ht => hafter t (by simp [ht])
  rw [mergeAll_append, List.foldl_cons]
  refine hfold after _ (h.merge_left (htrees source (by simp)) hpath) fun tree htree => ?_
  exact ⟨htrees tree (by simp [htree]), hspares tree htree⟩

end Holds

end NestedStyles.StyleTree
