import NestedStyles.Proofs.Changed
import NestedStyles.Proofs.KeyTargets
import NestedStyles.Proofs.Without

/-!
# Keys that refer to nothing

An `@` key that is no at-rule's own and refers to nothing is reported and dropped. It leaves no
trace in the CSS: a tree compiles to the same text, or ends with the same error, without the entries
of the key (`StyleTree.compile_without`). They may stand anywhere, also in blocks that are nested,
merged or marked on the way, and what they leave empty compiles to nothing.
-/

namespace NestedStyles

/-- An `@` key that is no at-rule's own and refers to nothing. -/
structure Options.Ignores (options : Options) (K : String) : Prop where
  isAtKey : Text.isAtKey K = true
  notMedia : K ≠ "@media"
  notLayer : Text.beginsWith "@layer" K = false
  notContainer : Text.beginsWith "@container" K = false
  unresolved : Target.ofKey? options K = none

/-- What is found below a key. -/
def Visit.without (K : String) (visit : Visit) : Visit :=
  ⟨visit.path, StyleTree.withoutNode K visit.node⟩

/-- The filing of a block without a key. -/
def Filing.without (K : String) (filing : Filing) : Filing :=
  { filing with block := StyleTree.without K filing.block }

/-- The filing of a block of a mode without a key. -/
def ModeFiling.without (K : String) (filing : ModeFiling) : ModeFiling :=
  { filing with block := StyleTree.without K filing.block }

/-! ## Visits without a key -/

namespace Node

variable {K : String} {node : Node}

theorem isLeaf_withoutNode (h : StyleTree.nodeEvery StyleTree.noVar node = true) :
    (StyleTree.withoutNode K node).isLeaf = node.isLeaf := by
  cases node with
  | leaf value => rfl
  | tree entries =>
    rw [StyleTree.withoutNode, isLeaf_of_block (StyleTree.reference?_of_noVar h),
      isLeaf_of_block (StyleTree.reference?_of_noVar (StyleTree.every_noVar_without h K))]

theorem value?_withoutNode (h : StyleTree.nodeEvery StyleTree.noVar node = true) :
    (StyleTree.withoutNode K node).value? = node.value? := by
  cases node with
  | leaf value => rfl
  | tree entries =>
    exact (StyleTree.reference?_of_noVar (StyleTree.every_noVar_without h K)).trans
      (StyleTree.reference?_of_noVar h).symm

theorem block?_withoutNode (h : StyleTree.nodeEvery StyleTree.noVar node = true) :
    (StyleTree.withoutNode K node).block? = node.block?.map (StyleTree.without K) := by
  cases node with
  | leaf value => rfl
  | tree entries =>
    rw [StyleTree.withoutNode, block?_of_block (StyleTree.reference?_of_noVar h),
      block?_of_block (StyleTree.reference?_of_noVar (StyleTree.every_noVar_without h K))]
    rfl

theorem entries_withoutNode : (StyleTree.withoutNode K node).entries =
    StyleTree.without K node.entries := by
  cases node with
  | leaf value => rfl
  | tree entries => rfl

end Node

namespace StyleTree

variable {K : String}

mutual

theorem visitsNode_withoutNode {path : List String} (hpath : K ∉ path) : ∀ {node : Node},
    nodeEvery noVar node = true → visitsNode path (withoutNode K node) =
      ((visitsNode path node).filter (K ∉ ·.path)).map (Visit.without K)
  | .leaf value, _ => by
    rw [withoutNode, visitsNode, List.filter_cons_of_pos (by simpa using hpath)]
    rfl
  | .tree entries, h => by
    rw [withoutNode, visitsNode_of_block (reference?_of_noVar h),
      visitsNode_of_block (reference?_of_noVar (every_noVar_without h K)),
      visitsBelow_without hpath h, List.filter_append, List.map_append,
      List.filter_cons_of_pos (by simpa using hpath)]
    rfl

/-- The visits of a tree without a key are those to paths without it. -/
theorem visitsBelow_without {above : List String} (habove : K ∉ above) :
    ∀ {entries : List (String × Node)}, every noVar entries = true →
      visitsBelow above (without K entries) =
        ((visitsBelow above entries).filter (K ∉ ·.path)).map (Visit.without K)
  | [], _ => rfl
  | (key, node) :: rest, h => by
    simp only [every_cons, Bool.and_eq_true] at h
    obtain ⟨⟨-, hbelow⟩, hrest⟩ := h
    have ih := visitsBelow_without habove hrest
    rw [visitsBelow, List.filter_append, List.map_append]
    by_cases hkey : key = K
    · subst hkey
      have hnone : (visitsNode (above ++ [key]) node).filter (key ∉ ·.path) = [] := by
        refine List.filter_eq_nil_iff.mpr fun visit hvisit => ?_
        obtain ⟨more, hmore⟩ := path_of_mem_visitsNode hvisit
        simp [← hmore]
      rw [without_cons_self, ih, hnone]
      rfl
    · have hpath : K ∉ above ++ [key] := by simp [habove, Ne.symm hkey]
      rw [without_cons hkey, visitsBelow, ih, visitsNode_withoutNode hpath hbelow]

end

/-- What is seen at the visits of a tree is seen without a key if nothing is seen below the key. -/
theorem flatMap_visits_without {α β : Type} {tree : StyleTree} (htree : every noVar tree = true)
    {f : Visit → List β} {g : Visit → List α} {change : α → β}
    (hdropped : ∀ visit ∈ tree.visits, K ∈ visit.path → g visit = [])
    (hkept : ∀ visit ∈ tree.visits, K ∉ visit.path → f (visit.without K) = (g visit).map change) :
    (without K tree).visits.flatMap f = (tree.visits.flatMap g).map change := by
  have hvisits : (without K tree).visits =
      (tree.visits.filter (K ∉ ·.path)).map (Visit.without K) :=
    visitsBelow_without (by simp) htree
  rw [hvisits]
  generalize tree.visits = visits at hdropped hkept
  induction visits with
  | nil => rfl
  | cons visit rest ih =>
    have ih := ih (fun v hv => hdropped v (by simp [hv])) fun v hv => hkept v (by simp [hv])
    rw [List.flatMap_cons, List.map_append]
    by_cases hpath : K ∈ visit.path
    · rw [List.filter_cons_of_neg (by simpa using hpath), ih, hdropped visit (by simp) hpath]
      rfl
    · rw [List.filter_cons_of_pos (by simpa using hpath), List.map_cons, List.flatMap_cons, ih,
        hkept visit (by simp) hpath]

theorem filterMap_visits_without {α β : Type} {tree : StyleTree} (htree : every noVar tree = true)
    {f : Visit → Option β} {g : Visit → Option α} {change : α → β}
    (hdropped : ∀ visit ∈ tree.visits, K ∈ visit.path → g visit = none)
    (hkept : ∀ visit ∈ tree.visits, K ∉ visit.path → f (visit.without K) = (g visit).map change) :
    (without K tree).visits.filterMap f = (tree.visits.filterMap g).map change := by
  have hlist {γ : Type} (h : Visit → Option γ) (visits : List Visit) :
      visits.filterMap h = visits.flatMap fun visit => (h visit).toList := by
    induction visits with
    | nil => rfl
    | cons visit rest ih =>
      rw [List.filterMap_cons, List.flatMap_cons, ← ih]
      cases h visit <;> rfl
  rw [hlist, hlist]
  refine flatMap_visits_without htree (fun visit hvisit hpath => ?_) fun visit hvisit hpath => ?_
  · rw [hdropped visit hvisit hpath]
    rfl
  · rw [hkept visit hvisit hpath]
    cases g visit <;> rfl

/-- What is seen at the visits of a tree is the same without a key if nothing is seen below the key
and the same everywhere else. -/
theorem filterMap_visits_same {α : Type} {tree : StyleTree} (htree : every noVar tree = true)
    {f : Visit → Option α} (hdropped : ∀ visit ∈ tree.visits, K ∈ visit.path → f visit = none)
    (hkept : ∀ visit ∈ tree.visits, K ∉ visit.path → f (visit.without K) = f visit) :
    (without K tree).visits.filterMap f = tree.visits.filterMap f := by
  have hsame := @filterMap_visits_without K α α tree htree f f id hdropped
    fun visit hvisit hpath => by rw [hkept visit hvisit hpath, Option.map_id, id]
  rw [hsame, List.map_id]

end StyleTree

namespace Visit

variable {options : Options} {K : String} {visit : Visit}

@[simp] theorem key_without : (visit.without K).key = visit.key := rfl

@[simp] theorem parents_without : (visit.without K).parents = visit.parents := rfl

@[simp] theorem inAtRule_without : (visit.without K).inAtRule = visit.inAtRule := rfl

theorem role_without (h : StyleTree.nodeEvery StyleTree.noVar visit.node = true) :
    (visit.without K).role = visit.role := by
  obtain ⟨path, node⟩ := visit
  cases node with
  | leaf value => rfl
  | tree entries =>
    have hleft := Node.isLeaf_withoutNode (K := K) h
    unfold role
    simp only [without, StyleTree.withoutNode] at hleft ⊢
    rw [hleft]
    rfl

section Kept

variable (h : StyleTree.nodeEvery StyleTree.noVar visit.node = true)

include h

theorem leaf?_without : (visit.without K).leaf? = visit.leaf? := by
  rw [leaf?, leaf?, inAtRule_without, role_without h]
  simp only [without, Node.value?_withoutNode h]
  rfl

theorem statement?_without : (visit.without K).statement? = visit.statement? := by
  have hnames : Collected.layerNames (StyleTree.withoutNode K visit.node) =
      Collected.layerNames visit.node := by
    cases visit.node with
    | leaf value => rfl
    | tree entries => rfl
  rw [statement?, statement?, inAtRule_without, role_without h]
  simp only [without, hnames]
  rfl

theorem modeFiling?_without : (visit.without K).modeFiling? options =
    (visit.modeFiling? options).map (ModeFiling.without K) :=
  modeFiling?_change rfl (role_without h) (Node.block?_withoutNode h)

end Kept

end Visit

namespace Options.Ignores

variable {options : Options} {K : String} (hK : options.Ignores K)

include hK

/-- The key is no media query in the `@media` map either. -/
theorem mapQuery? : Target.mapQuery? options K = none := by
  have hunresolved := hK.unresolved
  rw [Target.ofKey?_eq hK.isAtKey] at hunresolved
  exact Option.map_eq_none_iff.mp (Option.or_eq_none_iff.mp hunresolved).2

/-- What stands at the key is a reference. -/
theorem role {visit : Visit} (hkey : visit.key = K) : visit.role = .reference := by
  have hpath : visit.path ≠ ["@media"] := by
    intro hpath
    rw [Visit.key, hpath] at hkey
    exact hK.notMedia hkey.symm
  unfold Visit.role
  simp only [hkey, hK.notLayer, hK.notContainer, hK.isAtKey, hpath]
  split
  · rfl
  · rfl
  · split <;> rfl

/-- A visit at or below the key finds nothing. -/
theorem nothing_found {visit : Visit} (hpath : K ∈ visit.path) :
    visit.leaf? = none ∧ visit.statement? = none ∧ visit.filings options = [] ∧
      visit.modeFiling? options = none := by
  by_cases hin : visit.inAtRule = true
  · simp only [Visit.leaf?, Visit.statement?, Visit.filings, Visit.modeFiling?, if_pos hin]
    exact ⟨trivial, trivial, trivial, trivial⟩
  · have hkey : visit.key = K := by
      have hne : visit.path ≠ [] := List.ne_nil_of_mem hpath
      have hsplit := List.dropLast_concat_getLast hne
      have hlast : visit.key = visit.path.getLast hne := by
        rw [Visit.key, List.getLast?_eq_some_getLast hne, Option.getD_some]
      rw [← hsplit, List.mem_append, List.mem_singleton] at hpath
      rcases hpath with hparents | heq
      · exact absurd (List.any_eq_true.mpr ⟨K, hparents, hK.isAtKey⟩) hin
      · rw [hlast, heq]
    simp only [Visit.leaf?, Visit.statement?, Visit.filings, Visit.modeFiling?, if_neg hin,
      hK.role hkey, hkey, hK.unresolved]
    refine ⟨trivial, trivial, ?_, ?_⟩ <;> split <;> simp_all

/-- The entries of the `@media` map without the key are filed without it. -/
theorem filterMap_ofMapEntry? {entries : StyleTree}
    (h : StyleTree.every StyleTree.noVar entries = true) :
    (StyleTree.without K entries).filterMap (Filing.ofMapEntry? options) =
      (entries.filterMap (Filing.ofMapEntry? options)).map (Filing.without K) := by
  induction entries with
  | nil => rfl
  | cons entry rest ih =>
    obtain ⟨key, node⟩ := entry
    simp only [StyleTree.every_cons, Bool.and_eq_true] at h
    rw [List.filterMap_cons]
    by_cases hkey : key = K
    · have hnone : Filing.ofMapEntry? options (key, node) = none := by
        unfold Filing.ofMapEntry?
        rw [hkey, hK.mapQuery?]
        cases node.block? <;> rfl
      rw [hkey] at hnone ⊢
      rw [StyleTree.without_cons_self, ih h.2, hnone]
    · have hentry := @Filing.ofMapEntry?_change options (StyleTree.without K) key node _
        (Node.block?_withoutNode h.1.2)
      rw [StyleTree.without_cons hkey, List.filterMap_cons, hentry, ih h.2]
      cases Filing.ofMapEntry? options (key, node) <;> rfl

theorem filings_without {visit : Visit}
    (h : StyleTree.nodeEvery StyleTree.noVar visit.node = true) :
    (visit.without K).filings options = (visit.filings options).map (Filing.without K) := by
  have hentries : StyleTree.every StyleTree.noVar visit.node.entries = true := by
    cases hnode : visit.node with
    | leaf value => rfl
    | tree entries =>
      rw [hnode] at h
      exact h
  refine Visit.filings_change rfl (Visit.role_without h) (Node.block?_withoutNode h) rfl fun _ => ?_
  rw [Visit.without, Node.entries_withoutNode, hK.filterMap_ofMapEntry? hentries]
  rfl

end Options.Ignores

namespace StyleTree

/-! ## What is found without the key -/

section Found

variable {options : Options} {K : String} (hK : options.Ignores K) {tree : StyleTree}
  (htree : every noVar tree = true)

include hK htree

theorem ownLeaves_without : (tree.without K).ownLeaves = tree.ownLeaves := by
  refine filterMap_visits_same htree (fun visit _ hpath => ?_) fun visit hvisit _ => ?_
  · exact (hK.nothing_found hpath).1
  · exact Visit.leaf?_without (every_of_mem_visitsBelow htree hvisit).2

theorem statements_without : (tree.without K).statements = tree.statements := by
  refine congrArg List.eraseDups
    (filterMap_visits_same htree (fun visit _ hpath => ?_) fun visit hvisit _ => ?_)
  · exact (hK.nothing_found hpath).2.1
  · exact Visit.statement?_without (every_of_mem_visitsBelow htree hvisit).2

theorem filings_without :
    (tree.without K).filings options = (tree.filings options).map (Filing.without K) := by
  refine flatMap_visits_without htree (fun visit _ hpath => ?_) fun visit hvisit _ => ?_
  · exact (hK.nothing_found hpath).2.2.1
  · exact hK.filings_without (every_of_mem_visitsBelow htree hvisit).2

theorem modeFilings_without :
    (tree.without K).modeFilings options =
      (tree.modeFilings options).map (ModeFiling.without K) := by
  refine filterMap_visits_without htree (fun visit _ hpath => ?_) fun visit hvisit _ => ?_
  · exact (hK.nothing_found hpath).2.2.2
  · exact Visit.modeFiling?_without (every_of_mem_visitsBelow htree hvisit).2

/-- The same error ends the walk, if one does. -/
theorem failure?_without (scope : List String) :
    (tree.without K).failure? scope = tree.failure? scope := by
  have hlist : (tree.without K).visits.filterMap (Visit.failure? scope) =
      tree.visits.filterMap (Visit.failure? scope) := by
    refine filterMap_visits_same htree (fun visit _ hpath => ?_) fun visit hvisit _ => ?_
    · rw [Visit.failure?, (hK.nothing_found hpath).1]
      rfl
    · rw [Visit.failure?, Visit.leaf?_without (every_of_mem_visitsBelow htree hvisit).2]
      rfl
  rw [failure?, failure?, ← List.head?_filterMap, ← List.head?_filterMap, hlist]

/-- Every bucket of a table is the one that is there without the key, without it. -/
theorem tableOf_without (table : Table) :
    (tree.without K).tableOf options table =
      (tree.tableOf options table).map fun entry => (entry.1, entry.2.without K) := by
  refine tableOf_change (keepsMerges_without K) (filings_without hK htree)
    (fun filing hfiling => ⟨trivial, ?_⟩) table
  have hparents : K ∉ filing.parents := by
    obtain ⟨visit, -, hvisit⟩ := List.mem_flatMap.mp hfiling
    obtain ⟨hin, -, ⟨hparents, -⟩ | ⟨hparents, -⟩⟩ := Visit.mem_filings hvisit
    · rw [hparents]
      exact fun hmem => List.any_eq_false.mp hin K hmem hK.isAtKey
    · simp [hparents]
  exact (without_nest hparents _).symm

/-- The bucket of the modes is the one that is there without the key, without it. -/
theorem modesOf_without (hflat : options.IsFlat) :
    (tree.without K).modesOf options = (tree.modesOf options).without K := by
  refine modesOf_change (keepsMerges_without K) (modeFilings_without hK htree)
    fun filing hfiling => ⟨trivial, ?_⟩
  obtain ⟨visit, hvisit, hfiled⟩ := List.mem_filterMap.mp hfiling
  obtain ⟨hin, -, -, hparents, hblock, htarget⟩ := Visit.modeFiling?_eq_some hfiled
  have hselector : Text.isAtKey filing.selector = false :=
    hflat.modes _ (Entries.mem_of_get? (Target.mode_of_ofKey? htarget))
  have hevery : every noVar filing.block = true :=
    every_of_block? (every_of_mem_visitsBelow htree hvisit).2 hblock
  rw [ModeFiling.tree, ModeFiling.tree, without_nest]
  · rw [ModeFiling.content, ModeFiling.content,
      ← without_descendantTree hK.isAtKey (by rw [hparents]; exact hin) hevery]
    rfl
  · simpa using (ne_of_not_isAtKey hK.isAtKey hselector).symm

end Found

/-- The selectors of the modes are no keys of at-rules. -/
theorem not_isAtKey_of_mem_modesOf {options : Options} (hflat : options.IsFlat) {tree : StyleTree}
    {key : String} {node : Node} (h : (key, node) ∈ tree.modesOf options) :
    Text.isAtKey key = false := by
  obtain ⟨filing, hfiling, rfl⟩ := exists_modeFiling_of_mem h
  obtain ⟨visit, -, hvisit⟩ := List.mem_filterMap.mp hfiling
  obtain ⟨-, -, -, -, -, htarget⟩ := Visit.modeFiling?_eq_some hvisit
  exact hflat.modes _ (Entries.mem_of_get? (Target.mode_of_ofKey? htarget))

/-- A tree with no key of an at-rule at its root is not empty without one if it is not empty. -/
theorem isEmpty_without (hK : Text.isAtKey K = true) {tree : StyleTree}
    (h : ∀ key node, (key, node) ∈ tree → Text.isAtKey key = false) :
    (tree.without K).isEmpty = tree.isEmpty := by
  cases tree with
  | nil => rfl
  | cons entry rest =>
    obtain ⟨key, node⟩ := entry
    rw [without_cons (ne_of_not_isAtKey hK (h key node (by simp)))]
    rfl

end StyleTree

/-! ## Parts without the key -/

namespace StyleTree

/-- A tree of one key with an empty map, which compiles to nothing. -/
def isHollow : StyleTree → Bool
  | [(_, .tree [])] => true
  | _ => false

/-- A hollow tree at a selector compiles to nothing. -/
theorem css_compileWithin_hollow (options : Options) {steps : Nat} (hsteps : 0 < steps)
    (scope : List String) (auto : Bool) {selector : String}
    (hselector : Text.isAtKey selector = false) :
    (compileWithin options steps scope auto [(selector, .tree [])]).map Stylesheet.css =
      .ok "" := by
  obtain ⟨steps, rfl⟩ : ∃ n, steps = n + 1 := ⟨steps - 1, by omega⟩
  have hplain : isPlain [(selector, .tree [])] = true := by
    rw [isPlain, every_cons, hselector]
    rfl
  exact css_compileWithin_of_isPlain options hplain rfl steps scope auto

end StyleTree

namespace Part

/-- The part that is left without a key, if anything is left of an automatic mode. -/
def without? (K : String) (part : Part) : Option Part :=
  if part.silent && (part.tree.without K).isHollow then none
  else some { part with tree := part.tree.without K }

end Part

namespace Buckets

variable {options : Options} {K : String} {buckets left : Buckets}

/-- The bucket of an automatic mode without a key, if anything is left of the mode. -/
theorem autoBucket?_without (hK : Text.isAtKey K = true) (hflat : options.IsFlat)
    (hmodes : left.modes = buckets.modes.without K) {entry : String × AutoMode}
    (hentry : entry ∈ options.auto.getD []) :
    (left.autoBucket? options entry).map
        (fun bucket => (⟨some ("@media " ++ bucket.1), false, true, bucket.2⟩ : Part)) =
      ((buckets.autoBucket? options entry).map
        (fun bucket => (⟨some ("@media " ++ bucket.1), false, true, bucket.2⟩ : Part))).bind
          (Part.without? K) := by
  have hA : entry.2.selector ≠ K := StyleTree.ne_of_not_isAtKey hK (hflat.auto entry hentry)
  rw [autoBucket?, autoBucket?]
  cases hselector : options.modes.get? entry.1 with
  | none => rfl
  | some selector =>
    have hP : selector ≠ K :=
      StyleTree.ne_of_not_isAtKey hK (hflat.modes _ (Entries.mem_of_get? hselector))
    rw [Option.bind_some, Option.bind_some, modeContent?, modeContent?, hmodes,
      StyleTree.get?_without hP]
    rcases buckets.modes.get? selector with _ | value | content
    · rfl
    · rfl
    · have hpart : StyleTree.without K [(entry.2.selector, .tree content)] =
          [(entry.2.selector, .tree (StyleTree.without K content))] := StyleTree.without_cons hA _ _
      cases content with
      | nil => rfl
      | cons first rest =>
        simp only [Option.map_some, StyleTree.withoutNode, List.isEmpty_cons, Bool.false_eq_true,
          if_false, Option.bind_some, Part.without?, hpart]
        cases StyleTree.without K (first :: rest) <;> rfl

end Buckets

namespace Collected

variable {options : Options} {K : String} {tree : StyleTree} {found left : Collected}

/-- The parts of a tree without a key are those of the tree, without the key. -/
theorem parts_without (hK : options.Ignores K) (hflat : options.IsFlat)
    (hqueries : ((options.auto.getD []).map (·.2.query)).Nodup)
    (htree : StyleTree.every StyleTree.noVar tree = true) (hfound : Holds options tree found)
    (hleft : Holds options (tree.without K) left) (auto : Bool) :
    left.parts options auto = (found.parts options auto).filterMap (Part.without? K) := by
  have htable (table : Table) : left.buckets.table table =
      (found.buckets.table table).map fun entry => (entry.1, entry.2.without K) := by
    rw [hleft.tables, hfound.tables, StyleTree.tableOf_without hK htree]
  have hpart (entries : Entries StyleTree) (header : String → String) :
      (entries.map fun entry => (entry.1, entry.2.without K)).map
          (fun entry => (⟨some (header entry.1), true, false, entry.2⟩ : Part)) =
        (entries.map fun entry => (⟨some (header entry.1), true, false, entry.2⟩ : Part)).filterMap
          (Part.without? K) := by
    rw [List.map_map, List.filterMap_map, ← List.filterMap_eq_map]
    rfl
  have hmodes : left.buckets.modes = found.buckets.modes.without K := by
    rw [hleft.modes, hfound.modes, StyleTree.modesOf_without hK htree hflat]
  have hempty : left.buckets.modes.isEmpty = found.buckets.modes.isEmpty := by
    rw [hmodes, hfound.modes]
    exact StyleTree.isEmpty_without hK.isAtKey
      fun _ _ => StyleTree.not_isAtKey_of_mem_modesOf hflat
  have hautos : (left.buckets.autoBuckets options).map
        (fun entry => (⟨some ("@media " ++ entry.1), false, true, entry.2⟩ : Part)) =
      ((found.buckets.autoBuckets options).map
        fun entry => (⟨some ("@media " ++ entry.1), false, true, entry.2⟩ : Part)).filterMap
          (Part.without? K) := by
    rw [Buckets.autoBuckets_eq _ hqueries, Buckets.autoBuckets_eq _ hqueries, List.map_filterMap,
      List.map_filterMap, List.filterMap_filterMap]
    refine (List.filterMap_map (g := id)).symm.trans (Eq.trans ?_ (List.filterMap_map (g := id)))
    refine congrArg (List.filterMap id) (List.map_congr_left fun entry hentry => ?_)
    exact Buckets.autoBucket?_without hK.isAtKey hflat hmodes hentry
  have hlayers := (congrArg (List.map _) (htable .layers)).trans (hpart found.buckets.layers id)
  have hcontainers :=
    (congrArg (List.map _) (htable .containers)).trans (hpart found.buckets.containers id)
  have hmedia :=
    (congrArg (List.map _) (htable .media)).trans (hpart found.buckets.media ("@media " ++ ·))
  simp only [parts, List.filterMap_append]
  congr 1
  · congr 1
    · congr 1
      · congr 1
    · rw [hempty]
      split
      · rfl
      · rw [hmodes]
        rfl
  · split
    · exact hautos
    · rfl

end Collected

namespace Collected

/-- The parts that report nothing are automatic modes, each the content of a mode below its
selector. -/
theorem tree_of_silent {options : Options} {found : Collected} {auto : Bool}
    (hqueries : ((options.auto.getD []).map (·.2.query)).Nodup) {part : Part}
    (h : part ∈ found.parts options auto) (hsilent : part.silent = true) :
    ∃ query entry content, entry ∈ options.auto.getD [] ∧ part.header? = some query ∧
      part.tree = [(entry.2.selector, .tree content)] := by
  simp only [parts, List.mem_append, List.mem_map] at h
  rcases h with (((⟨entry, -, rfl⟩ | ⟨entry, -, rfl⟩) | ⟨entry, -, rfl⟩) | h) | ⟨bucket, h, rfl⟩
  · simp at hsilent
  · simp at hsilent
  · simp at hsilent
  · split at h
    · simp at h
    · rw [List.mem_singleton.mp h] at hsilent
      simp at hsilent
  · split at h
    · rw [Buckets.autoBuckets_eq _ hqueries] at h
      obtain ⟨entry, hentry, hbucket⟩ := List.mem_filterMap.mp h
      obtain ⟨content, -, rfl⟩ := Option.map_eq_some_iff.mp hbucket
      exact ⟨_, entry, content, hentry, rfl, rfl⟩
    · simp at h

end Collected

namespace StyleTree

/-- No part of a tree has a value at `var` if the tree has none. -/
theorem every_noVar_of_mem_parts {options : Options} {tree : StyleTree}
    (htree : every noVar tree = true) {auto : Bool} {found : Collected}
    (hholds : Collected.Holds options tree found) {part : Part}
    (h : part ∈ found.parts options auto) : every noVar part.tree = true := by
  have hpasses : Passes options noVar noVar :=
    ⟨id, fun _ => rfl, fun _ => rfl, fun _ _ => rfl, fun _ _ => rfl, fun _ _ => rfl,
      fun _ _ _ => rfl⟩
  have hroot := everyRoot_of_mem_parts hpasses (everyRoot_of_every id htree) hholds h
  exact every_iff.mpr hroot

section Compile

variable {options : Options} {K : String} (hK : options.Ignores K) (hflat : options.IsFlat)
  (hqueries : ((options.auto.getD []).map (·.2.query)).Nodup)

include hK hflat hqueries

/-- What is left of a part without the key compiles to the text of the part, and the part compiles
to no text if nothing is left. -/
theorem css_part_without {steps : Nat} (hsteps : 0 < steps) (scope : List String)
    {found : Collected} {auto : Bool} {part : Part} (h : part ∈ found.parts options auto)
    (hsame : ∀ scope auto,
      ((part.tree.without K).compileWithin options steps scope auto).map Stylesheet.css =
        (part.tree.compileWithin options steps scope auto).map Stylesheet.css) :
    (∀ left, part.without? K = some left → (left.compile options steps scope).map Stylesheet.css =
        (part.compile options steps scope).map Stylesheet.css) ∧
      (part.without? K = none →
        (part.compile options steps scope).map Stylesheet.css = .ok "") := by
  constructor
  · intro left hleft
    unfold Part.without? at hleft
    split at hleft
    · simp at hleft
    · obtain rfl := Option.some.inj hleft
      rw [Part.map_css_compile, Part.map_css_compile, hsame]
      rfl
  · intro hnone
    unfold Part.without? at hnone
    split at hnone
    · next hhollow =>
      obtain ⟨hsilent, hhollow⟩ := Bool.and_eq_true_iff.mp hhollow
      obtain ⟨query, entry, content, hentry, hquery, htree⟩ :=
        Collected.tree_of_silent hqueries h hsilent
      have hA : Text.isAtKey entry.2.selector = false := hflat.auto entry hentry
      rw [htree, without_cons (ne_of_not_isAtKey hK.isAtKey hA)] at hhollow
      cases hcontent : without K content with
      | cons first rest => simp [withoutNode, hcontent, isHollow, without] at hhollow
      | nil =>
        have hleft : part.tree.without K = [(entry.2.selector, .tree [])] := by
          rw [htree, without_cons (ne_of_not_isAtKey hK.isAtKey hA), withoutNode, hcontent, without]
        rw [Part.map_css_compile, ← hsame, hleft, css_compileWithin_hollow options hsteps _ _ hA]
        exact congrArg Except.ok (by rw [Part.placeCss, hquery]; rfl)
    · simp at hnone

/-- The same text is compiled without the key, in any number of steps beyond the depth. -/
theorem css_compileWithin_without (steps : Nat) : ∀ (scope : List String) (auto : Bool)
    {tree : StyleTree}, every noVar tree = true → tree.atDepth < steps →
    ((tree.without K).compileWithin options steps scope auto).map Stylesheet.css =
      (tree.compileWithin options steps scope auto).map Stylesheet.css := by
  induction steps with
  | zero => exact fun _ _ _ _ hsteps => absurd hsteps (Nat.not_lt_zero _)
  | succ steps ih =>
    intro scope auto tree htree hsteps
    refine css_compileWithin_congr (failure?_without hK htree scope) (statements_without hK htree)
      (congrArg (List.flatMap Leaf.declared) (ownLeaves_without hK htree))
      fun found left hfound hleft => ?_
    have hpart : ∀ part ∈ found.parts options auto, _ := fun part hpart =>
      have hdepth := atDepth_of_mem_parts hflat hfound hpart
      css_part_without hK hflat hqueries (show 0 < steps by omega) scope hpart
        fun scope auto => ih scope auto (every_noVar_of_mem_parts htree hfound hpart) (by omega)
    rw [Collected.parts_without hK hflat hqueries htree hfound hleft auto]
    exact mapM_filterMap_of_empty (fun part h => (hpart part h).1) fun part h => (hpart part h).2

/-- A key that refers to nothing leaves no trace in the CSS: a tree compiles to the same text or
ends with the same error without the entries of the key, wherever they stand. -/
theorem compile_without {tree : StyleTree} (hvar : every (fun key _ => key != "var") tree = true) :
    ((tree.without K).compile options).map Stylesheet.css =
      (tree.compile options).map Stylesheet.css := by
  have hnoVar : every noVar tree = true := by
    refine every_imp (fun key node h => ?_) hvar
    cases node with
    | leaf value => exact h
    | tree entries => rfl
  have hfirst : (tree.without K).atDepth < (tree.without K).steps options + tree.steps options :=
    Nat.lt_add_right _ (atDepth_lt_steps options _)
  have hsecond : tree.atDepth < (tree.without K).steps options + tree.steps options :=
    Nat.lt_add_left _ (atDepth_lt_steps options tree)
  rw [css_compile_of_steps hflat hfirst, css_compile_of_steps hflat hsecond]
  exact css_compileWithin_without hK hflat hqueries _ [] true hnoVar hsecond

end Compile

/-- The key stands in the content of an automatic mode, in the `@media` map and in a scope. Nothing
is left of the mode, and its bucket below the media query compiles to nothing. -/
theorem compile_without_emptied :
    ∃ sheet,
      compile ((Options.empty.withMode "dark" ".dark").withAuto "dark" ":root" "(dark)")
          [("@dark", .tree [("@print", .tree [("p", .tree [("color", .leaf .null)])])]),
            ("@media", .tree [("@print", .tree []), ("screen", .tree [("card", .tree
              [("color", .leaf (.text "red")), ("@print", .leaf (.text "none"))])])])] =
        .ok sheet ∧
      sheet.css = "@media screen \x7b\n  .card \x7b\n    color: red;\n  \x7d\n\x7d" ∧
      (compile ((Options.empty.withMode "dark" ".dark").withAuto "dark" ":root" "(dark)")
          [("@dark", .tree []),
            ("@media", .tree [("screen", .tree [("card", .tree
              [("color", .leaf (.text "red"))])])])]).map Stylesheet.css = .ok sheet.css := by
  refine ⟨_, rfl, by decide +kernel, ?_⟩
  exact @compile_without ((Options.empty.withMode "dark" ".dark").withAuto "dark" ":root" "(dark)")
    "@print" ⟨by decide, by decide, by decide, by decide, by decide⟩ ⟨by decide, by decide⟩
    (by decide) [("@dark", .tree [("@print", .tree [("p", .tree [("color", .leaf .null)])])]),
      ("@media", .tree [("@print", .tree []), ("screen", .tree [("card", .tree
        [("color", .leaf (.text "red")), ("@print", .leaf (.text "none"))])])])] (by decide)

end StyleTree

end NestedStyles
