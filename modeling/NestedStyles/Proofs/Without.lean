import NestedStyles.Proofs.Depth

/-!
# Trees without a key

`StyleTree.without` takes the entries of one `@` key out of a tree, at every depth. It commutes with
everything that files a block : nesting, merging and marking (`without_merge`,
`without_descendantTree`), as long as no other key is turned into the one that is taken out.
-/

namespace NestedStyles

namespace StyleTree

mutual

/-- The node without the entries of a key, at any depth. -/
def withoutNode (K : String) : Node → Node
  | .leaf value => .leaf value
  | .tree entries => .tree (without K entries)

/-- The tree without the entries of a key, at any depth. -/
def without (K : String) : StyleTree → StyleTree
  | [] => []
  | (key, node) :: rest =>
    if key = K then without K rest else (key, withoutNode K node) :: without K rest

end

variable {K : String}

theorem without_cons_self (node : Node) (rest : StyleTree) :
    without K ((K, node) :: rest) = without K rest := by
  rw [without, if_pos rfl]

theorem without_cons {key : String} (h : key ≠ K) (node : Node) (rest : StyleTree) :
    without K ((key, node) :: rest) = (key, withoutNode K node) :: without K rest := by
  rw [without, if_neg h]

theorem get?_without {key : String} (h : key ≠ K) (tree : StyleTree) :
    Entries.get? key (without K tree) = (Entries.get? key tree).map (withoutNode K) := by
  induction tree with
  | nil => rfl
  | cons entry rest ih =>
    obtain ⟨k, node⟩ := entry
    by_cases hk : k = K
    · subst hk
      rw [without_cons_self, ih, Entries.get?, if_neg (Ne.symm h)]
    · rw [without_cons hk, Entries.get?, Entries.get?, ih]
      split <;> rfl

theorem without_nest {segments : List String} (h : K ∉ segments) (block : StyleTree) :
    without K (nest segments block) = nest segments (without K block) := by
  induction segments with
  | nil => rfl
  | cons segment segments ih =>
    rw [List.mem_cons, not_or] at h
    rw [nest_cons, nest_cons, without_cons (Ne.symm h.1), withoutNode, ih h.2]
    rfl

/-! ## Writing -/

theorem without_upsert_self (change : Option Node → Node) (tree : StyleTree) :
    without K (tree.upsert K change) = without K tree := by
  induction tree with
  | nil => exact without_cons_self _ _
  | cons entry rest ih =>
    obtain ⟨k, node⟩ := entry
    rw [Entries.upsert]
    split
    · next hk =>
      subst hk
      rw [without_cons_self, without_cons_self]
    · next hk => rw [without_cons hk, without_cons hk, ih]

theorem without_upsert {key : String} (h : key ≠ K) {change : Option Node → Node}
    (change' : Option Node → Node) (hchange : ∀ old : Option Node,
      change' (old.map (withoutNode K)) = withoutNode K (change old)) (tree : StyleTree) :
    without K (tree.upsert key change) = Entries.upsert key change' (without K tree) := by
  induction tree with
  | nil =>
    rw [Entries.upsert, without_cons h, without, Entries.upsert, ← hchange none]
    rfl
  | cons entry rest ih =>
    obtain ⟨k, node⟩ := entry
    by_cases hk : k = K
    · subst hk
      rw [Entries.upsert, if_neg (Ne.symm h), without_cons_self, without_cons_self, ih]
    · rw [without_cons hk, Entries.upsert, Entries.upsert]
      split
      · rw [without_cons hk, ← hchange (some node)]
        rfl
      · rw [without_cons hk, ih]

mutual

theorem withoutNode_mergeNode (K : String) (old : Option Node) : ∀ node : Node,
    mergeNode (old.map (withoutNode K)) (withoutNode K node) = withoutNode K (mergeNode old node)
  | .leaf value => rfl
  | .tree entries => by
    match old with
    | none => rfl
    | some (.leaf value) => rfl
    | some (.tree existing) =>
      change Node.tree (merge (without K existing) (without K entries)) =
        .tree (without K (merge existing entries))
      rw [without_merge K existing entries]

/-- A merge without a key is the merge of the trees without it. -/
theorem without_merge (K : String) (target : StyleTree) : ∀ source : List (String × Node),
    merge (without K target) (without K source) = without K (merge target source)
  | [] => rfl
  | (key, node) :: rest => by
    by_cases hkey : key = K
    · subst hkey
      rw [without_cons_self, merge, ← without_merge key (target.upsert key _) rest,
        without_upsert_self]
    · rw [without_cons hkey, merge, merge, ← without_merge K (target.upsert key _) rest,
        without_upsert hkey (mergeNode · (withoutNode K node))
          fun old => withoutNode_mergeNode K old node]

end

theorem keepsMerges_without (K : String) : KeepsMerges (fun _ => True) (without K) :=
  ⟨trivial, fun _ _ => trivial, rfl, fun _ _ => without_merge K _ _⟩

theorem without_ofList (K : String) (writes : StyleTree) :
    Entries.ofList (without K writes) = without K (Entries.ofList writes) := by
  have hfold : ∀ writes start : StyleTree,
      (without K writes).foldl (fun entries write => Entries.insert write.1 write.2 entries)
          (without K start) =
        without K (writes.foldl (fun entries write => Entries.insert write.1 write.2 entries)
          start) := by
    intro writes
    induction writes with
    | nil => exact fun _ => rfl
    | cons write rest ih =>
      intro start
      obtain ⟨key, node⟩ := write
      rw [List.foldl_cons]
      by_cases hkey : key = K
      · subst hkey
        rw [without_cons_self, ← ih]
        exact congrArg (List.foldl _ · _) (without_upsert_self _ start).symm
      · rw [without_cons hkey, List.foldl_cons, ← ih]
        exact congrArg (List.foldl _ · _)
          (without_upsert hkey (fun _ => withoutNode K node) (fun _ => rfl) start).symm
  exact hfold writes []

/-! ## Marking -/

/-- No value stands at `var`, so no map stands for a reference. -/
def noVar (key : String) : Node → Bool
  | .leaf _ => key != "var"
  | .tree _ => true

theorem reference?_of_noVar {tree : StyleTree} (h : every noVar tree = true) :
    reference? tree = none := by
  cases href : reference? tree with
  | none => rfl
  | some value =>
    obtain ⟨css, name, rfl⟩ := eq_reference_of_reference? href
    obtain ⟨hself, -⟩ := every_iff.mp h _ _ (Entries.mem_of_get? (get?_var_of_reference? href))
    exact absurd hself (by simp [noVar])

mutual

theorem nodeEvery_withoutNode {p : String → Node → Bool} (K : String)
    (hmap : ∀ {key a b}, p key (.tree a) = true → p key (.tree b) = true) :
    ∀ {node : Node}, nodeEvery p node = true → nodeEvery p (withoutNode K node) = true
  | .leaf _, h => h
  | .tree _, h => every_without K hmap h

/-- A condition that sees only the keys of maps holds everywhere without a key. -/
theorem every_without {p : String → Node → Bool} (K : String)
    (hmap : ∀ {key a b}, p key (.tree a) = true → p key (.tree b) = true) :
    ∀ {entries : List (String × Node)}, every p entries = true → every p (without K entries) = true
  | [], _ => rfl
  | (key, node) :: rest, h => by
    simp only [every_cons, Bool.and_eq_true] at h
    obtain ⟨⟨hself, hbelow⟩, hrest⟩ := h
    rw [without]
    split
    · exact every_without K hmap hrest
    · have hnode : p key (withoutNode K node) = true := by
        cases node with
        | leaf value => exact hself
        | tree entries => exact hmap hself
      rw [every_cons, hnode, nodeEvery_withoutNode K hmap hbelow, every_without K hmap hrest]
      rfl

end

theorem every_noVar_without {tree : StyleTree} (h : every noVar tree = true) (K : String) :
    every noVar (without K tree) = true :=
  every_without K (fun _ => rfl) h

theorem ne_of_not_isAtKey (hK : Text.isAtKey K = true) {key : String}
    (h : Text.isAtKey key = false) : key ≠ K := by
  rintro rfl
  exact absurd (hK.symm.trans h) (by simp)

mutual

theorem markedEntry_withoutNode (hK : Text.isAtKey K = true) {key : String} (hkey : key ≠ K) :
    ∀ {node : Node},
    nodeEvery noVar node = true →
      (markedEntry key node).1 ≠ K ∧ markedEntry key (withoutNode K node) =
        ((markedEntry key node).1, withoutNode K (markedEntry key node).2)
  | .leaf value, _ => ⟨hkey, rfl⟩
  | .tree entries, h => by
    have hleft := every_noVar_without h K
    rw [withoutNode, markedEntry, markedEntry, reference?_of_noVar h, reference?_of_noVar hleft,
      Option.isSome_none]
    simp only [Bool.false_eq_true, if_false]
    split
    · refine ⟨hkey, ?_⟩
      rw [markedEntries_without hK h, without_ofList, withoutNode]
    · split
      · exact ⟨hkey, rfl⟩
      · exact ⟨ne_of_not_isAtKey hK (isAtKey_asDescendant key), rfl⟩

/-- Marking the keys of a block and taking a key of an at-rule out of it commute. -/
theorem markedEntries_without (hK : Text.isAtKey K = true) :
    ∀ {entries : List (String × Node)}, every noVar entries = true →
    markedEntries (without K entries) = without K (markedEntries entries)
  | [], _ => rfl
  | (key, node) :: rest, h => by
    simp only [every_cons, Bool.and_eq_true] at h
    obtain ⟨⟨-, hbelow⟩, hrest⟩ := h
    have ih := markedEntries_without hK hrest
    rw [markedEntries]
    by_cases hkey : key = K
    · subst hkey
      have hself : (markedEntry key node).1 = key := by
        cases node with
        | leaf value => rfl
        | tree entries =>
          rw [markedEntry, hK]
          split
          · rfl
          · rw [if_pos rfl]
      rw [without_cons_self, ih, without, if_pos hself]
    · obtain ⟨hne, hmarked⟩ := markedEntry_withoutNode hK hkey hbelow
      rw [without_cons hkey, markedEntries, ih, hmarked, without, if_neg hne]

end

/-- The content of a mode without a key is the content for the block without it. -/
theorem without_descendantTree (hK : Text.isAtKey K = true) {parents : List String}
    (hparents : parents.any Text.isAtKey = false) {block : StyleTree}
    (hblock : every noVar block = true) :
    Buckets.descendantTree parents (without K block) =
      without K (Buckets.descendantTree parents block) := by
  have hne {key : String} (hkey : key ∈ parents) : key ≠ K :=
    ne_of_not_isAtKey hK (by simpa using List.any_eq_false.mp hparents key hkey)
  rcases Selector.blank_or_split parents with hblank | ⟨blank, first, rest, rfl, hblank, hfirst⟩
  · rw [descendantTree_of_blank hblank, descendantTree_of_blank hblank, marked, marked,
      markedEntries_without hK hblock, without_ofList, without_nest fun hmem => hne hmem rfl]
  · rw [descendantTree_split hblank hfirst, descendantTree_split hblank hfirst, without_nest]
    intro hmem
    rcases List.mem_append.mp hmem with hmem | hmem
    · exact hne (List.mem_append_left _ hmem) rfl
    rcases List.mem_cons.mp hmem with heq | hmem
    · exact ne_of_not_isAtKey hK (isAtKey_asDescendant first) heq.symm
    · exact hne (List.mem_append_right _ (List.mem_cons_of_mem _ hmem)) rfl

end StyleTree

end NestedStyles
