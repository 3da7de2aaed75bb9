import NestedStyles.Proofs.Hoisting
import NestedStyles.Proofs.Merging

/-!
# Trees with a spine

A tree that is filed for a mode has maps only at its first levels: the selectors of the modes, and
below them the content. Such a tree has a spine (`StyleTree.Spine`), with a condition on the keys of
each level. What a walk finds in it is what it finds below the ends of the spine, one after another
(`StyleTree.flatMap_visits`), and if trees are merged that are nested in the keys of a spine, then
each end has what is merged for it alone (`StyleTree.node?_mergeAll_nest`).
-/

namespace NestedStyles

/-- What stands before and behind an element of a list is related to it. -/
theorem exists_split {α : Type} {R : α → α → Prop} {list : List α} (h : list.Pairwise R) {a : α}
    (ha : a ∈ list) : ∃ front back, list = front ++ a :: back ∧ (∀ b ∈ front, R b a) ∧
      ∀ b ∈ back, R a b := by
  obtain ⟨front, back, rfl⟩ := List.append_of_mem ha
  obtain ⟨-, hback, hfront⟩ := List.pairwise_append.mp h
  exact ⟨front, back, rfl, fun b hb => hfront b hb a List.mem_cons_self,
    (List.pairwise_cons.mp hback).1⟩

namespace StyleTree

/-- Down to a level for each condition every node holds a tree, the keys of the level satisfy the
condition, and none of them stands twice. -/
def Spine : List (String → Prop) → StyleTree → Prop
  | [], _ => True
  | c :: cs, tree =>
    tree.Distinct ∧ ∀ key node, (key, node) ∈ tree → c key ∧ ∃ inner, node = .tree inner ∧
      Spine cs inner

/-- Keys that satisfy the conditions one by one. -/
def Meets : List (String → Prop) → List String → Prop
  | [], [] => True
  | c :: cs, key :: keys => c key ∧ Meets cs keys
  | _, _ => False

/-- The trees at a depth with the keys that lead to them. -/
def level : (depth : Nat) → (above : List String) → StyleTree → List (List String × StyleTree)
  | 0, above, tree => [(above, tree)]
  | depth + 1, above, tree =>
    tree.flatMap fun entry => level depth (above ++ [entry.1]) entry.2.entries

theorem Meets.length_eq : ∀ {cs : List (String → Prop)} {keys : List String}, Meets cs keys →
    keys.length = cs.length
  | [], [], _ => rfl
  | _ :: _, _ :: _, h => congrArg (· + 1) h.2.length_eq

theorem Spine.nil : ∀ cs : List (String → Prop), Spine cs []
  | [] => trivial
  | _ :: _ => ⟨Entries.distinct_nil, by simp⟩

/-- What has a spine is no reference. -/
theorem Spine.reference? {c : String → Prop} {cs : List (String → Prop)} {tree : StyleTree}
    (h : Spine (c :: cs) tree) : tree.reference? = none := by
  cases href : tree.reference? with
  | none => rfl
  | some value =>
    obtain ⟨⟨css, hvar⟩, -⟩ := isSome_reference?.mp (Option.isSome_iff_exists.mpr ⟨value, href⟩)
    obtain ⟨-, inner, hinner, -⟩ := h.2 _ _ (Entries.mem_of_get? hvar)
    exact absurd hinner (by simp)

/-! ## The ends of a spine -/

theorem prefix_of_mem_level {depth : Nat} {above : List String} {tree : StyleTree}
    {found : List String × StyleTree} (h : found ∈ level depth above tree) :
    above <+: found.1 := by
  induction depth generalizing above tree with
  | zero =>
    obtain rfl := List.mem_singleton.mp h
    exact List.prefix_refl above
  | succ depth ih =>
    obtain ⟨entry, -, hfound⟩ := List.mem_flatMap.mp h
    exact (List.prefix_append above [entry.1]).trans (ih hfound)

/-- The ends of a spine are the nodes at the paths that meet the conditions. -/
theorem mem_level {cs : List (String → Prop)} {above path : List String} {tree inner : StyleTree}
    (h : Spine cs tree) : (path, inner) ∈ level cs.length above tree ↔
      ∃ keys, path = above ++ keys ∧ Meets cs keys ∧ tree.node? keys = some (.tree inner) := by
  induction cs generalizing above tree with
  | nil =>
    rw [List.length_nil, level, List.mem_singleton, Prod.mk.injEq]
    constructor
    · rintro ⟨rfl, rfl⟩
      exact ⟨[], (List.append_nil path).symm, trivial, rfl⟩
    · rintro ⟨_ | ⟨key, keys⟩, rfl, hmeets, hnode⟩
      · obtain rfl : tree = inner := by simpa [node?, Node.down?] using hnode
        exact ⟨List.append_nil above, rfl⟩
      · exact hmeets.elim
  | cons c cs ih =>
    obtain ⟨hdistinct, hentries⟩ := h
    rw [List.length_cons, level, List.mem_flatMap]
    constructor
    · rintro ⟨⟨key, node⟩, hmem, hlevel⟩
      obtain ⟨hkey, below, rfl, hbelow⟩ := hentries key node hmem
      obtain ⟨keys, rfl, hmeets, hnode⟩ := (ih hbelow).mp hlevel
      refine ⟨key :: keys, by simp, ⟨hkey, hmeets⟩, ?_⟩
      rw [node?_cons, hdistinct.get?_of_mem hmem]
      exact hnode
    · rintro ⟨_ | ⟨key, keys⟩, rfl, hmeets, hnode⟩
      · exact hmeets.elim
      · obtain ⟨node, hget, hdown⟩ := Option.bind_eq_some_iff.mp hnode
        have hmem := Entries.mem_of_get? hget
        obtain ⟨-, below, rfl, hbelow⟩ := hentries key node hmem
        exact ⟨(key, .tree below), hmem,
          (ih hbelow).mpr ⟨keys, by simp, hmeets.2, hdown⟩⟩

/-- The ends of a spine have different paths. -/
theorem pairwise_level {cs : List (String → Prop)} {above : List String} {tree : StyleTree}
    (h : Spine cs tree) : (level cs.length above tree).Pairwise fun a b => a.1 ≠ b.1 := by
  induction cs generalizing above tree with
  | nil => exact List.pairwise_singleton _ _
  | cons c cs ih =>
    obtain ⟨hdistinct, hentries⟩ := h
    refine List.pairwise_flatMap.mpr ⟨fun entry hentry => ?_, ?_⟩
    · obtain ⟨-, below, hnode, hbelow⟩ := hentries entry.1 entry.2 hentry
      rw [hnode]
      exact ih hbelow
    · refine (List.pairwise_map.mp hdistinct).imp fun hne a ha b hb hpath => hne ?_
      have hfirst := prefix_of_mem_level ha
      have hsecond := prefix_of_mem_level hb
      rw [hpath] at hfirst
      have := List.prefix_of_prefix_length_le hfirst hsecond (by simp)
      simpa using this.eq_of_length (by simp)

/-- Of a list over the ends of a spine only what stands at one of them may be left. -/
theorem flatMap_level {cs : List (String → Prop)} {tree inner : StyleTree} (h : Spine cs tree)
    {path : List String} (hpath : (path, inner) ∈ level cs.length [] tree) {β : Type}
    {g : List String × StyleTree → List β}
    (hg : ∀ found ∈ level cs.length [] tree, found.1 ≠ path → g found = []) :
    (level cs.length [] tree).flatMap g = g (path, inner) := by
  obtain ⟨front, back, hsplit, hbefore, hbehind⟩ := exists_split (pairwise_level h) hpath
  rw [hsplit] at hg ⊢
  have hfront : front.flatMap g = [] := List.flatMap_eq_nil_iff.mpr fun found hfound =>
    hg found (by simp [hfound]) (hbefore found hfound)
  have hback : back.flatMap g = [] := List.flatMap_eq_nil_iff.mpr fun found hfound =>
    hg found (by simp [hfound]) (hbehind found hfound).symm
  rw [List.flatMap_append, List.flatMap_cons, hfront, hback, List.nil_append, List.append_nil]

/-! ## Visits -/

theorem visitsBelow_eq_flatMap (above : List String) (tree : StyleTree) :
    visitsBelow above tree = tree.flatMap fun entry => visitsNode (above ++ [entry.1]) entry.2 := by
  induction tree with
  | nil => rfl
  | cons entry rest ih => rw [visitsBelow, ih, List.flatMap_cons]

theorem filterMap_eq_flatMap {α β : Type} (f : α → Option β) (list : List α) :
    list.filterMap f = list.flatMap fun a => (f a).toList := by
  induction list with
  | nil => rfl
  | cons a rest ih => rw [List.filterMap_cons, List.flatMap_cons, ih]; cases f a <;> rfl

section Visits

variable {β : Type} {g : Visit → List β}
  (hg : ∀ path inner, path.any Text.isAtKey = false → reference? inner = none →
    g ⟨path, .tree inner⟩ = [])

include hg

theorem flatMap_visitsNode {cs : List (String → Prop)}
    (hcs : ∀ c ∈ cs, ∀ key, c key → Text.isAtKey key = false) {tree : StyleTree} (h : Spine cs tree)
    {above : List String} (habove : above.any Text.isAtKey = false) :
    (visitsNode above (.tree tree)).flatMap g = (level cs.length above tree).flatMap
      fun found => (visitsNode found.1 (.tree found.2)).flatMap g := by
  induction cs generalizing above tree with
  | nil => exact (List.flatMap_singleton _ _).symm
  | cons c cs ih =>
    rw [visitsNode_of_block h.reference?, List.flatMap_append, List.flatMap_singleton,
      hg above tree habove h.reference?, List.append_nil, visitsBelow_eq_flatMap,
      List.flatMap_assoc, List.length_cons, level, List.flatMap_assoc]
    rw [List.flatMap_def, List.flatMap_def]
    refine congrArg List.flatten (List.map_congr_left fun entry hentry => ?_)
    obtain ⟨hkey, inner, hnode, hinner⟩ := h.2 entry.1 entry.2 hentry
    have hplain := hcs c List.mem_cons_self _ hkey
    rw [hnode]
    exact ih (fun c' hc' => hcs c' (List.mem_cons_of_mem _ hc')) hinner (by simp [habove, hplain])

/-- What is seen on a walk of a tree with a spine is seen at and below the ends of the spine, if
nothing is seen at a map of its own. -/
theorem flatMap_visits {c : String → Prop} {cs : List (String → Prop)}
    (hcs : ∀ c' ∈ c :: cs, ∀ key, c' key → Text.isAtKey key = false) {tree : StyleTree}
    (h : Spine (c :: cs) tree) :
    tree.visits.flatMap g = (level (c :: cs).length [] tree).flatMap
      fun found => (visitsNode found.1 (.tree found.2)).flatMap g := by
  rw [← flatMap_visitsNode hg hcs h rfl, visitsNode_of_block h.reference?, List.flatMap_append,
    List.flatMap_singleton, hg [] tree rfl h.reference?, List.append_nil, visits]

end Visits

/-! ## Merges of nested trees -/

theorem down?_mergeNode_nest {keys path : List String} (hlength : path.length = keys.length)
    (old : Option Node) (inner : StyleTree) :
    (mergeNode old (.tree (nest keys inner))).down? path =
      if path = keys then some (mergeNode (old.bind (Node.down? keys)) (.tree inner))
      else old.bind (Node.down? path) := by
  induction keys generalizing path old with
  | nil =>
    obtain rfl := List.length_eq_zero_iff.mp hlength
    rw [if_pos rfl, Node.down?_nil, nest_nil]
    cases old with
    | none => rfl
    | some node => rw [Option.bind_some, Node.down?_nil]
  | cons key keys ih =>
    obtain _ | ⟨k, path⟩ := path
    · simp at hlength
    -- What is no tree has nothing below it, so that an empty tree may stand for it.
    have htree (existing : StyleTree) :
        (mergeNode (some (.tree existing)) (.tree (nest (key :: keys) inner))).down? (k :: path) =
          if k :: path = key :: keys then
            some (mergeNode ((existing.get? key).bind (Node.down? keys)) (.tree inner))
          else (existing.get? k).bind (Node.down? path) := by
      rw [mergeNode, nest_cons, merge, merge, Node.down?, Entries.get?_upsert]
      by_cases hk : k = key
      · subst hk
        rw [if_pos rfl, Option.bind_some, ih (by simpa using hlength)]
        simp
      · rw [if_neg hk, if_neg (by simp [hk])]
    rcases old with _ | value | existing
    · exact htree []
    · exact htree []
    · exact htree existing

/-- Merging a nested tree changes the node at the end of its keys, and no other as deep. -/
theorem node?_merge_nest {keys path : List String} (hlength : path.length = keys.length)
    (target inner : StyleTree) :
    (target.merge (nest keys inner)).node? path =
      if path = keys then some (mergeNode (target.node? keys) (.tree inner))
      else target.node? path := by
  have hmerge := down?_mergeNode_nest hlength (some (.tree target)) inner
  rwa [mergeNode] at hmerge

/-- Of trees that are nested in as many keys each, those nested in the keys of a path make up the
node at its end. -/
theorem node?_mergeAll_nest {nested : List (List String × StyleTree)} {path : List String}
    (hlength : ∀ entry ∈ nested, path.length = entry.1.length) (hpath : path ≠ []) :
    (mergeAll (nested.map fun entry => nest entry.1 entry.2)).node? path =
      ((nested.filter (·.1 = path)).map Prod.snd).foldl
        (fun old inner => some (mergeNode old (.tree inner))) none := by
  have hfold : ∀ (nested : List (List String × StyleTree)) (start : StyleTree),
      (∀ entry ∈ nested, path.length = entry.1.length) →
      ((nested.map fun entry => nest entry.1 entry.2).foldl merge start).node? path =
        ((nested.filter (·.1 = path)).map Prod.snd).foldl
          (fun old inner => some (mergeNode old (.tree inner))) (start.node? path) := by
    intro nested
    induction nested with
    | nil => exact fun _ _ => rfl
    | cons entry rest ih =>
      intro start hlength
      rw [List.map_cons, List.foldl_cons, ih _ fun other h => hlength other (by simp [h]),
        node?_merge_nest (hlength entry (by simp))]
      by_cases hentry : entry.1 = path
      · simp [hentry]
      · simp [hentry, Ne.symm hentry]
  have hnil : node? path [] = none := by
    obtain ⟨key, rest, rfl⟩ := List.exists_cons_of_ne_nil hpath
    rfl
  rw [mergeAll, hfold nested [] hlength, hnil]

/-- A node at the end of as many keys was merged from a tree nested in them. -/
theorem exists_nested_of_node? {nested : List (List String × StyleTree)} {path : List String}
    (hlength : ∀ entry ∈ nested, path.length = entry.1.length) (hpath : path ≠ []) {node : Node}
    (h : (mergeAll (nested.map fun entry => nest entry.1 entry.2)).node? path = some node) :
    ∃ entry ∈ nested, entry.1 = path := by
  rw [node?_mergeAll_nest hlength hpath] at h
  obtain ⟨entry, hentry⟩ : ∃ entry, entry ∈ nested.filter (·.1 = path) :=
    List.exists_mem_of_ne_nil _ fun hnil => by simp [hnil] at h
  obtain ⟨hentry, hkeys⟩ := List.mem_filter.mp hentry
  exact ⟨entry, hentry, of_decide_eq_true hkeys⟩

/-- Merging a nested tree keeps a spine. -/
theorem Spine.merge_nest {cs : List (String → Prop)} {target : StyleTree} (h : Spine cs target)
    {keys : List String} (hkeys : Meets cs keys) (inner : StyleTree) :
    Spine cs (target.merge (nest keys inner)) := by
  induction cs generalizing target keys with
  | nil => trivial
  | cons c cs ih =>
    obtain _ | ⟨key, keys⟩ := keys
    · exact hkeys.elim
    obtain ⟨hkey, hkeys⟩ := hkeys
    have hnest : Spine cs (nest keys inner) := by
      have hmerge := ih (Spine.nil cs) hkeys
      obtain _ | ⟨first, keys⟩ := keys
      · cases cs with
        | nil => trivial
        | cons c' cs => exact hkeys.elim
      · simpa [merge, Entries.upsert, mergeNode] using hmerge
    rw [nest_cons, merge, merge]
    refine ⟨h.1.upsert _ _, fun k node hmem => ?_⟩
    rcases Entries.mem_upsert hmem with hmem | ⟨rfl, old, rfl, hold⟩
    · exact h.2 k node hmem
    · refine ⟨hkey, ?_⟩
      rcases old with _ | value | existing
      · exact ⟨_, rfl, hnest⟩
      · exact ⟨_, rfl, hnest⟩
      · obtain ⟨-, below, hbelow, hspine⟩ := h.2 _ _ (hold _ rfl)
        obtain rfl := Node.tree.inj hbelow
        exact ⟨_, rfl, ih hspine hkeys⟩

/-- Trees that are nested in keys that meet the conditions merge to a tree with a spine. -/
theorem spine_mergeAll {cs : List (String → Prop)} {nested : List (List String × StyleTree)}
    (h : ∀ entry ∈ nested, Meets cs entry.1) :
    Spine cs (mergeAll (nested.map fun entry => nest entry.1 entry.2)) := by
  have hfold : ∀ (nested : List (List String × StyleTree)) (start : StyleTree), Spine cs start →
      (∀ entry ∈ nested, Meets cs entry.1) →
      Spine cs ((nested.map fun entry => nest entry.1 entry.2).foldl merge start) := by
    intro nested
    induction nested with
    | nil => exact fun _ hstart _ => hstart
    | cons entry rest ih =>
      intro start hstart h
      exact ih _ (hstart.merge_nest (h entry (by simp)) entry.2) fun other hother =>
        h other (by simp [hother])
  exact hfold nested [] (Spine.nil cs) h

end StyleTree

end NestedStyles
