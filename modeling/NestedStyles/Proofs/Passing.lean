import NestedStyles.Proofs.KeyTargets
import NestedStyles.Proofs.ModeLeaves
import NestedStyles.Proofs.Parts

/-!
# Conditions that pass to the parts

What is compiled for a part is made of the nodes of the tree: they are nested in the keys above
them, merged, marked as descendants and put below the selector of a mode. A condition on the nodes
that all of this keeps (`Passes`) holds of every part if it holds of the tree
(`StyleTree.everyRoot_of_mem_parts`). Entries of the root may be held to less than the nodes below
them, since the selector of a mode only stands at the root.
-/

namespace NestedStyles

namespace StyleTree

/-- A condition holds of the entries of the root, and another one of everything below. -/
def everyRoot (r q : String → Node → Bool) (tree : StyleTree) : Prop :=
  ∀ key node, (key, node) ∈ tree → r key node = true ∧ nodeEvery q node = true

end StyleTree

/-- A condition `r` on the entries of a root and a condition `q` on all nodes below that the parts
of a tree take over. Of a map they see only its key. -/
structure Passes (options : Options) (r q : String → Node → Bool) : Prop where
  root : ∀ {key node}, q key node = true → r key node = true
  mapRoot : ∀ {key a b}, r key (.tree a) = true → r key (.tree b) = true
  map : ∀ {key a b}, q key (.tree a) = true → q key (.tree b) = true
  marked : ∀ {key a}, Text.isBlank key = false → r key (.tree a) = true →
    q (Selector.asDescendant key) (.tree a) = true
  blank : ∀ {key a}, Text.isBlank key = true → r key (.tree a) = true → q key (.tree a) = true
  /-- The selectors of the modes stand at the root. -/
  mode : ∀ {name selector}, options.modes.get? name = some selector →
    ∀ a, r selector (.tree a) = true
  auto : ∀ entry ∈ options.auto.getD [], ∀ a, r entry.2.selector (.tree a) = true

namespace StyleTree

variable {r q : String → Node → Bool}

theorem everyRoot_of_every (hroot : ∀ {key node}, q key node = true → r key node = true)
    {tree : StyleTree} (h : every q tree = true) : everyRoot r q tree := fun key node hmem => by
  obtain ⟨hself, hbelow⟩ := every_iff.mp h key node hmem
  exact ⟨hroot hself, hbelow⟩

theorem everyRoot_nil : everyRoot r q [] := fun _ _ h => absurd h (by simp)

theorem everyRoot_singleton {key : String} {entries : StyleTree}
    (hkey : r key (.tree entries) = true) (hentries : every q entries = true) :
    everyRoot r q [(key, .tree entries)] := by
  intro k node h
  obtain ⟨rfl, rfl⟩ := Prod.mk.inj (List.mem_singleton.mp h)
  exact ⟨hkey, hentries⟩

/-! ## What writing and marking keep -/

theorem everyRoot_merge (hroot : ∀ {key a b}, r key (.tree a) = true → r key (.tree b) = true)
    (hbelow : ∀ {key a b}, q key (.tree a) = true → q key (.tree b) = true) :
    ∀ {source target : StyleTree}, everyRoot r q target → everyRoot r q source →
      everyRoot r q (target.merge source)
  | [], target, htarget, _ => by
    rw [merge]
    exact htarget
  | (key, node) :: rest, target, htarget, hsource => by
    obtain ⟨hself, hinner⟩ := hsource key node List.mem_cons_self
    rw [merge]
    refine everyRoot_merge hroot hbelow (fun k n h => ?_)
      fun k n h => hsource k n (List.mem_cons_of_mem _ h)
    rcases Entries.mem_upsert h with h | ⟨rfl, old, rfl, hold⟩
    · exact htarget k n h
    cases node with
    | leaf value => exact ⟨hself, hinner⟩
    | tree entries =>
      rcases old with _ | value | existing
      · exact ⟨hself, hinner⟩
      · exact ⟨hself, hinner⟩
      · obtain ⟨-, hexisting⟩ := htarget _ _ (hold _ rfl)
        exact ⟨hroot hself, every_merge (fun _ _ _ h _ => hbelow h) hexisting hinner⟩

theorem every_ofList {writes : List (String × Node)} (h : every q writes = true) :
    every q (Entries.ofList writes) = true :=
  every_iff.mpr fun _ _ hmem => every_iff.mp h _ _ (Entries.mem_ofList hmem)

section Passes

variable {options : Options}

mutual

theorem every_markedEntry (hpasses : Passes options r q) {key : String} :
    ∀ {node : Node}, q key node = true →
    nodeEvery q node = true → q (markedEntry key node).1 (markedEntry key node).2 = true ∧
      nodeEvery q (markedEntry key node).2 = true
  | .leaf value, hself, hbelow => ⟨hself, hbelow⟩
  | .tree entries, hself, hbelow => by
    rw [markedEntry]
    split
    · exact ⟨hself, hbelow⟩
    · split
      · exact ⟨hpasses.map hself, every_ofList (every_markedEntries_of_passes hpasses hbelow)⟩
      · split
        · exact ⟨hself, hbelow⟩
        · next hblank =>
          exact ⟨hpasses.marked (by simpa using hblank) (hpasses.root hself), hbelow⟩

/-- Marking the keys of a block keeps the condition. -/
theorem every_markedEntries_of_passes (hpasses : Passes options r q) :
    ∀ {entries : List (String × Node)}, every q entries = true →
      every q (markedEntries entries) = true
  | [], _ => rfl
  | (key, node) :: rest, h => by
    rw [every_cons, Bool.and_eq_true, Bool.and_eq_true] at h
    obtain ⟨hself, hbelow⟩ := every_markedEntry hpasses h.1.1 h.1.2
    rw [markedEntries, every_cons, hself, hbelow, every_markedEntries_of_passes hpasses h.2]
    rfl

end

/-- The content of a mode keeps the condition, the key of the root included. -/
theorem every_descendantTree_of_passes (hpasses : Passes options r q) {parents : List String}
    {block : StyleTree} (hparents : ∀ key ∈ parents, ∀ a, r key (.tree a) = true)
    (hbelow : ∀ key ∈ parents.tail, ∀ a, q key (.tree a) = true) (hblock : every q block = true) :
    every q (Buckets.descendantTree parents block) = true := by
  rcases Selector.blank_or_split parents with hblank | ⟨blank, first, rest, rfl, hblank, hfirst⟩
  · rw [descendantTree_of_blank hblank]
    exact every_nest (fun key hkey back => hpasses.blank (hblank key hkey) (hparents key hkey _))
      (every_ofList (every_markedEntries_of_passes hpasses hblock))
  · rw [descendantTree_split hblank hfirst]
    refine every_nest (fun key hkey back => ?_) hblock
    rcases List.mem_append.mp hkey with hfront | hback
    · exact hpasses.blank (hblank key hfront) (hparents key (List.mem_append_left _ hfront) _)
    rcases List.mem_cons.mp hback with rfl | hrest
    · exact hpasses.marked hfirst (hparents first (by simp) _)
    · refine hbelow key ?_ _
      cases blank with
      | nil => exact hrest
      | cons b blank => exact List.mem_append_right _ (List.mem_cons_of_mem _ hrest)

end Passes

/-! ## What is filed -/

mutual

theorem keys_of_mem_visitsNode {c : String → Prop}
    (hmap : ∀ {key entries}, q key (.tree entries) = true → reference? entries = none → c key)
    {above : List String} {key : String} {visit : Visit} : ∀ {node : Node}, q key node = true →
      nodeEvery q node = true → visit ∈ visitsNode (above ++ [key]) node →
      ∃ keys, visit.parents = above ++ keys ∧ ∀ k ∈ keys, c k
  | .leaf value, _, _, h => by
    rw [visitsNode, List.mem_singleton] at h
    exact ⟨[], by rw [h, Visit.parents_mk, List.append_nil], by simp⟩
  | .tree entries, hself, hbelow, h => by
    have hnode (hvisit : visit = ⟨above ++ [key], .tree entries⟩) :
        ∃ keys, visit.parents = above ++ keys ∧ ∀ k ∈ keys, c k :=
      ⟨[], by rw [hvisit, Visit.parents_mk, List.append_nil], by simp⟩
    cases href : reference? entries with
    | some value =>
      rw [visitsNode, href, if_pos Option.isSome_some] at h
      exact hnode (List.mem_singleton.mp h)
    | none =>
      rw [visitsNode_of_block href] at h
      rcases List.mem_append.mp h with h | h
      · obtain ⟨keys, hparents, hkeys⟩ := keys_of_mem_visitsBelow hmap hbelow h
        refine ⟨key :: keys, by rw [hparents, List.append_assoc, List.singleton_append], ?_⟩
        rintro k hk
        rcases List.mem_cons.mp hk with rfl | hk
        · exact hmap hself href
        · exact hkeys k hk
      · exact hnode (List.mem_singleton.mp h)

/-- What a condition on nodes says of the keys of blocks holds of the keys above a visit. -/
theorem keys_of_mem_visitsBelow {c : String → Prop}
    (hmap : ∀ {key entries}, q key (.tree entries) = true → reference? entries = none → c key)
    {above : List String} {visit : Visit} : ∀ {entries : List (String × Node)},
      every q entries = true → visit ∈ visitsBelow above entries →
      ∃ keys, visit.parents = above ++ keys ∧ ∀ k ∈ keys, c k
  | [], _, h => by simp [visitsBelow] at h
  | (key, node) :: rest, hevery, h => by
    rw [every_cons, Bool.and_eq_true, Bool.and_eq_true] at hevery
    rcases List.mem_append.mp h with h | h
    · exact keys_of_mem_visitsNode hmap hevery.1.1 hevery.1.2 h
    · exact keys_of_mem_visitsBelow hmap hevery.2 h

end

/-- A visit of a tree is to an entry of its root, or below one. -/
theorem root_of_mem_visits {tree : StyleTree} {visit : Visit} (h : visit ∈ tree.visits) :
    (∃ key, visit.path = [key] ∧ (key, visit.node) ∈ tree) ∨
      ∃ key entries, (key, .tree entries) ∈ tree ∧ visit ∈ visitsBelow [key] entries := by
  unfold visits at h
  induction tree with
  | nil => simp [visitsBelow] at h
  | cons entry rest ih =>
    obtain ⟨key, node⟩ := entry
    rw [visitsBelow] at h
    rcases List.mem_append.mp h with h | h
    · cases node with
      | leaf value =>
        rw [visitsNode, List.mem_singleton] at h
        exact Or.inl ⟨key, by rw [h]; rfl, by rw [h]; exact List.mem_cons_self⟩
      | tree entries =>
        rw [visitsNode] at h
        split at h
        · rw [List.mem_singleton] at h
          exact Or.inl ⟨key, by rw [h]; rfl, by rw [h]; exact List.mem_cons_self⟩
        · rcases List.mem_append.mp h with h | h
          · exact Or.inr ⟨key, entries, List.mem_cons_self, h⟩
          · rw [List.mem_singleton] at h
            exact Or.inl ⟨key, by rw [h]; rfl, by rw [h]; exact List.mem_cons_self⟩
    · rcases ih h with ⟨k, hpath, hmem⟩ | ⟨k, entries, hmem, hvisit⟩
      · exact Or.inl ⟨k, hpath, List.mem_cons_of_mem _ hmem⟩
      · exact Or.inr ⟨k, entries, List.mem_cons_of_mem _ hmem, hvisit⟩

theorem every_of_block? {node : Node} (h : nodeEvery q node = true) {block : StyleTree}
    (hblock : node.block? = some block) : every q block = true := by
  rwa [Node.eq_tree_of_block? hblock] at h

section Filed

variable {options : Options} (hpasses : Passes options r q) {tree : StyleTree}
  (htree : everyRoot r q tree)

include hpasses htree

/-- What a visit sees satisfies the conditions, and so do the keys above it. -/
theorem passes_visit {visit : Visit} (h : visit ∈ tree.visits) :
    r visit.key visit.node = true ∧ nodeEvery q visit.node = true ∧
      (∀ key ∈ visit.parents, ∀ a, r key (.tree a) = true) ∧
      ∀ key ∈ visit.parents.tail, ∀ a, q key (.tree a) = true := by
  rcases root_of_mem_visits h with ⟨key, hpath, hmem⟩ | ⟨key, entries, hmem, hvisit⟩
  · obtain ⟨hself, hbelow⟩ := htree _ _ hmem
    have hkey : visit.key = key := by rw [Visit.key, hpath]; rfl
    have hparents : visit.parents = [] := by rw [Visit.parents, hpath]; rfl
    rw [hkey, hparents]
    exact ⟨hself, hbelow, by simp, by simp⟩
  · obtain ⟨hself, hbelow⟩ := htree _ _ hmem
    obtain ⟨hnode, hinner⟩ := every_of_mem_visitsBelow hbelow hvisit
    obtain ⟨keys, hparents, hkeys⟩ := @keys_of_mem_visitsBelow q
      (fun key => ∀ a, q key (.tree a) = true) (fun h _ _ => hpasses.map h) _ _ _ hbelow hvisit
    rw [hparents]
    refine ⟨hpasses.root hnode, hinner, ?_, hkeys⟩
    rintro k hk a
    rcases List.mem_cons.mp hk with rfl | hk
    · exact hpasses.mapRoot hself
    · exact hpasses.root (hkeys k hk a)

theorem everyRoot_nest_visit {visit : Visit} (h : visit ∈ tree.visits) {block : StyleTree}
    (hblock : every q block = true) : everyRoot r q (nest visit.parents block) := by
  obtain ⟨-, -, hparents, hbelow⟩ := passes_visit hpasses htree h
  cases hkeys : visit.parents with
  | nil => exact everyRoot_of_every hpasses.root hblock
  | cons key keys =>
    rw [hkeys] at hparents hbelow
    refine everyRoot_singleton (hparents key (by simp) _) (every_nest ?_ hblock)
    exact fun k hk back => hbelow k hk _

theorem everyRoot_filing {filing : Filing} (h : filing ∈ tree.filings options) :
    everyRoot r q filing.tree := by
  obtain ⟨visit, hvisit, hfiling⟩ := List.mem_flatMap.mp h
  obtain ⟨-, hinner, -⟩ := passes_visit hpasses htree hvisit
  obtain ⟨-, -, ⟨hparents, hblock, -⟩ | ⟨hparents, entry, hentry, hblock, -⟩⟩ :=
    Visit.mem_filings hfiling
  · rw [Filing.tree, hparents]
    refine everyRoot_nest_visit hpasses htree hvisit ?_
    rw [hblock]
    cases hnode : visit.node.block? with
    | none => rfl
    | some block => exact every_of_block? hinner hnode
  · rw [Filing.tree, hparents]
    exact everyRoot_of_every hpasses.root
      (every_of_block? (nodeEvery_of_mem_entries hinner hentry).2 hblock)

/-- The content of a mode satisfies the condition on nodes below the root. -/
theorem every_modeFiling {filing : ModeFiling} (h : filing ∈ tree.modeFilings options) :
    every q filing.content = true ∧
      ∃ name, options.modes.get? name = some filing.selector := by
  obtain ⟨visit, hvisit, hfiling⟩ := List.mem_filterMap.mp h
  obtain ⟨-, hinner, hparents, hbelow⟩ := passes_visit hpasses htree hvisit
  obtain ⟨-, -, -, heq, hblock, htarget⟩ := Visit.modeFiling?_eq_some hfiling
  rw [ModeFiling.content, heq]
  exact ⟨every_descendantTree_of_passes hpasses hparents hbelow (every_of_block? hinner hblock),
    _, Target.mode_of_ofKey? htarget⟩

/-- The conditions pass to every part of a tree. -/
theorem everyRoot_of_mem_parts {auto : Bool} {found : Collected}
    (hholds : Collected.Holds options tree found) {part : Part}
    (h : part ∈ found.parts options auto) : everyRoot r q part.tree := by
  refine Collected.of_mem_parts (p := fun _ => everyRoot r q) hholds
    (fun _ a b ha => everyRoot_merge hpasses.mapRoot hpasses.map
      (ha.elim (fun hnil => hnil ▸ everyRoot_nil) id))
    (fun filing hfiling => everyRoot_filing hpasses htree hfiling) (fun filing hfiling => ?_)
    (fun modes hmodes selector content hget entry hentry => ?_) h
  · obtain ⟨hcontent, name, hname⟩ := every_modeFiling hpasses htree hfiling
    exact everyRoot_singleton (hpasses.mode hname _) hcontent
  · obtain ⟨-, hcontent⟩ := hmodes _ _ (Entries.mem_of_get? hget)
    exact everyRoot_singleton (hpasses.auto entry hentry _) hcontent

end Filed

end StyleTree

end NestedStyles
