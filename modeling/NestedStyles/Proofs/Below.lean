import NestedStyles.Proofs.Reported
import NestedStyles.Proofs.Spines

/-!
# Visits below a path

What a walk finds below a path is what it finds in the tree at the end of the path, with the keys of
the path above it: the same blocks are filed (`Visit.filings_below`, `Visit.modeFiling?_below`), and
the same is reported if no declaration loses its selectors (`Visit.reports_below`). Below the root
the key `@media` is a reference like any other (`Role.inside`).
-/

namespace NestedStyles

/-- The visit with more keys above it. -/
def Visit.below (above : List String) (visit : Visit) : Visit := ⟨above ++ visit.path, visit.node⟩

/-- The filing with more keys above it. -/
def Filing.below (above : List String) (filing : Filing) : Filing :=
  { filing with parents := above ++ filing.parents }

/-- The filing with more keys above it. -/
def ModeFiling.below (above : List String) (filing : ModeFiling) : ModeFiling :=
  { filing with parents := above ++ filing.parents }

/-- The role that a node of the root has below other keys. -/
def Role.inside : Role → Role
  | .mediaMap => .reference
  | role => role

namespace StyleTree

mutual

theorem visitsNode_append (outer path : List String) : ∀ node : Node,
    visitsNode (outer ++ path) node = (visitsNode path node).map (Visit.below outer)
  | .leaf value => rfl
  | .tree entries => by
    rw [visitsNode, visitsNode]
    split
    · rfl
    · rw [List.map_append, visitsBelow_outer outer path entries]
      rfl

/-- Visits below more keys are the same visits with these keys above them. -/
theorem visitsBelow_outer (outer path : List String) : ∀ entries : List (String × Node),
    visitsBelow (outer ++ path) entries = (visitsBelow path entries).map (Visit.below outer)
  | [] => rfl
  | (key, node) :: rest => by
    rw [visitsBelow, visitsBelow, List.map_append, List.append_assoc, visitsNode_append outer,
      visitsBelow_outer outer path rest]

end

/-- The visits to a tree that is not the root, the one to the tree itself left out. -/
def visitsInside (tree : StyleTree) : List Visit :=
  if tree.reference?.isSome then [] else tree.visits

theorem visitsInside_eq_visits {tree : StyleTree} (h : tree.reference? = none) :
    tree.visitsInside = tree.visits := by
  rw [visitsInside, h]
  rfl

theorem visitsNode_tree (path : List String) (inner : StyleTree) :
    visitsNode path (.tree inner) =
      inner.visitsInside.map (Visit.below path) ++ [⟨path, .tree inner⟩] := by
  have houter := visitsBelow_outer path [] inner
  rw [List.append_nil] at houter
  rw [visitsNode, visitsInside]
  split
  · rfl
  · rw [houter, visits]

theorem path_ne_nil_of_mem_visitsInside {tree : StyleTree} {visit : Visit}
    (h : visit ∈ tree.visitsInside) : visit.path ≠ [] := by
  unfold visitsInside at h
  split at h
  · simp at h
  · obtain ⟨k, more, hpath⟩ := path_of_mem_visitsBelow h
    rw [hpath]
    simp

end StyleTree

namespace Visit

variable {options : Options} {path : List String} {visit : Visit}

section Below

variable (hvisit : visit.path ≠ [])

include hvisit

theorem key_below : (visit.below path).key = visit.key := by
  rw [below, key, key, List.getLast?_append]
  obtain ⟨k, hk⟩ := Option.ne_none_iff_exists'.mp fun h => hvisit (List.getLast?_eq_none_iff.mp h)
  rw [hk, Option.some_or]

theorem parents_below : (visit.below path).parents = path ++ visit.parents :=
  List.dropLast_append_of_ne_nil hvisit

theorem inAtRule_below (hplain : path.any Text.isAtKey = false) :
    (visit.below path).inAtRule = visit.inAtRule := by
  rw [inAtRule, parents_below hvisit, List.any_append, hplain, Bool.false_or, inAtRule]

/-- Below other keys a node has the role that it has below the root, but for the `@media` map. -/
theorem role_below (hpath : path ≠ []) : (visit.below path).role = visit.role.inside := by
  have hroot : (visit.below path).path ≠ ["@media"] := by
    intro h
    have hlength := congrArg List.length h
    rw [below, List.length_append] at hlength
    have := List.length_pos_iff.mpr hpath
    have := List.length_pos_iff.mpr hvisit
    rw [List.length_singleton] at hlength
    omega
  have hkey := @key_below path visit hvisit
  have hmedia : visit.path = ["@media"] → Text.isAtKey visit.key = true := by
    intro h
    rw [key, h]
    decide
  have hnode : (visit.below path).node = visit.node := rfl
  by_cases hmap : visit.path = ["@media"]
  · simp only [role, hkey, hnode, hroot, hmap, hmedia hmap, if_true, if_false]
    repeat' split
    all_goals rfl
  · simp only [role, hkey, hnode, hroot, hmap, if_false]
    repeat' split
    all_goals rfl

end Below

/-- At a key that is no at-rule's stands a declaration or a scope. -/
theorem role_of_plain (h : Text.isAtKey visit.key = false) :
    visit.role = .declaration ∨ visit.role = .scope := by
  refine Decidable.byContradiction fun hrole => ?_
  obtain ⟨hdeclaration, hscope⟩ := not_or.mp hrole
  exact absurd (h.symm.trans (isAtKey_of_role hdeclaration hscope)) (by simp)

/-- A visit to a key that is no at-rule's files nothing. -/
theorem filings_of_plain (h : Text.isAtKey visit.key = false) :
    visit.filings options = [] ∧ visit.modeFiling? options = none := by
  unfold filings modeFiling?
  split
  · exact ⟨rfl, rfl⟩
  · rcases role_of_plain h with hrole | hrole <;> rw [hrole] <;> exact ⟨rfl, rfl⟩

/-! ## What is filed -/

/-- The block that a visit files below other keys. -/
def filedInside? (options : Options) (visit : Visit) : Option Filing :=
  if visit.inAtRule then none
  else
    match visit.role.inside with
    | .layerBlock =>
      some ⟨.layers, Text.trimmed visit.key, visit.parents, visit.node.block?.getD []⟩
    | .containerBlock =>
      some ⟨.containers, Text.trimmed visit.key, visit.parents, visit.node.block?.getD []⟩
    | .reference =>
      match visit.node.block?, Target.ofKey? options visit.key with
      | some block, some (.media query) => some ⟨.media, query, visit.parents, block⟩
      | _, _ => none
    | _ => none

/-- The block that a visit files for a mode below other keys. -/
def modeFiledInside? (options : Options) (visit : Visit) : Option ModeFiling :=
  if visit.inAtRule then none
  else
    match visit.role.inside, visit.node.block?, Target.ofKey? options visit.key with
    | .reference, some block, some (.mode selector) => some ⟨selector, visit.parents, block⟩
    | _, _, _ => none

theorem inside_ne_mediaMap (role : Role) : role.inside ≠ .mediaMap := by
  cases role <;> simp [Role.inside]

section Below

variable (hvisit : visit.path ≠ []) (hpath : path ≠ []) (hplain : path.any Text.isAtKey = false)

include hvisit hpath hplain

theorem filings_below : (visit.below path).filings options =
    (visit.filedInside? options).toList.map (Filing.below path) := by
  have hnode : (visit.below path).node = visit.node := rfl
  rw [filings, filedInside?, inAtRule_below hvisit hplain, role_below hvisit hpath,
    key_below hvisit, parents_below hvisit, hnode]
  split
  · rfl
  · cases hrole : visit.role.inside with
    | mediaMap => exact absurd hrole (inside_ne_mediaMap _)
    | reference =>
      dsimp only
      cases visit.node.block? with
      | none => rfl
      | some block =>
        cases Target.ofKey? options visit.key with
        | none => rfl
        | some target => cases target <;> rfl
    | _ => rfl

theorem modeFiling?_below : (visit.below path).modeFiling? options =
    (visit.modeFiledInside? options).map (ModeFiling.below path) := by
  have hnode : (visit.below path).node = visit.node := rfl
  rw [modeFiling?, modeFiledInside?, inAtRule_below hvisit hplain, role_below hvisit hpath,
    key_below hvisit, parents_below hvisit, hnode]
  split
  · rfl
  · cases visit.role.inside with
    | reference =>
      cases visit.node.block? with
      | none => rfl
      | some block =>
        cases Target.ofKey? options visit.key with
        | none => rfl
        | some target => cases target <;> rfl
    | _ => rfl

/-! ## What is reported -/

/-- What is reported below a path is reported below another one, unless a declaration has a selector
there only. -/
theorem reports_below {path' : List String} (hpath' : path' ≠ [])
    (hplain' : path'.any Text.isAtKey = false)
    (hselectors : Selector.ofPath (path ++ visit.parents) = [] →
      Selector.ofPath (path' ++ visit.parents) = [])
    {scope : List String} (scope' : List String) {diagnostic : Diagnostic}
    (h : diagnostic ∈ (visit.below path).reports options scope) :
    diagnostic.path = scope ++ (path ++ visit.path) ∧
      ⟨scope' ++ (path' ++ visit.path), diagnostic.problem⟩ ∈
        (visit.below path').reports options scope' := by
  have hproblem {problem : Problem} (hfound : (visit.below path).problem? options = some problem) :
      (visit.below path').problem? options = some problem := by
    have hnode (path : List String) : (visit.below path).node = visit.node := rfl
    rw [problem?, role_below hvisit hpath, key_below hvisit, hnode] at hfound
    rw [problem?, role_below hvisit hpath', key_below hvisit, hnode]
    cases hrole : visit.role.inside with
    | declaration =>
      rw [hrole] at hfound
      obtain ⟨value, hvalue, horphan⟩ := Option.bind_eq_some_iff.mp hfound
      rw [orphan?, key_below hvisit, parents_below hvisit] at horphan
      rw [hvalue, Option.bind_some, orphan?, key_below hvisit, parents_below hvisit]
      split at horphan
      · next hboth =>
        rw [Bool.and_eq_true, List.isEmpty_iff] at hboth
        rw [hboth.1, hselectors hboth.2]
        exact horphan
      · simp at horphan
    | _ =>
      rw [hrole] at hfound
      exact hfound
  rw [reports, inAtRule_below hvisit hplain, role_below hvisit hpath,
    if_neg (inside_ne_mediaMap _)] at h
  rw [reports, inAtRule_below hvisit hplain', role_below hvisit hpath',
    if_neg (inside_ne_mediaMap _)]
  split at h
  · simp at h
  · next hin =>
    rw [if_neg hin]
    obtain ⟨problem, hfound, rfl⟩ := List.mem_map.mp h
    refine ⟨rfl, List.mem_map.mpr ⟨problem, ?_, rfl⟩⟩
    rw [Option.mem_toList] at hfound ⊢
    exact hproblem hfound

end Below

/-- At a key that is no at-rule's a visit reports its own node. -/
theorem path_of_mem_reports (h : Text.isAtKey visit.key = false) {scope : List String}
    {diagnostic : Diagnostic} (hmem : diagnostic ∈ visit.reports options scope) :
    diagnostic.path = scope ++ visit.path := by
  have hrole : visit.role ≠ .mediaMap := by
    rcases role_of_plain h with hrole | hrole <;> simp [hrole]
  rw [reports, if_neg hrole] at hmem
  split at hmem
  · simp at hmem
  · obtain ⟨problem, -, rfl⟩ := List.mem_map.mp hmem
    rfl

end Visit

/-! ## Trees with a spine -/

namespace StyleTree

variable (options : Options)

/-- The blocks that a tree files below other keys. -/
def filedInside (tree : StyleTree) : List Filing :=
  tree.visitsInside.filterMap (Visit.filedInside? options)

/-- The blocks that a tree files for modes below other keys. -/
def modeFiledInside (tree : StyleTree) : List ModeFiling :=
  tree.visitsInside.filterMap (Visit.modeFiledInside? options)

theorem Meets.plain {cs : List (String → Prop)}
    (hcs : ∀ c ∈ cs, ∀ key, c key → Text.isAtKey key = false) {keys : List String}
    (h : Meets cs keys) : keys.any Text.isAtKey = false := by
  induction cs generalizing keys with
  | nil =>
    obtain _ | ⟨key, keys⟩ := keys
    · rfl
    · exact h.elim
  | cons c cs ih =>
    obtain _ | ⟨key, keys⟩ := keys
    · rfl
    · rw [List.any_cons, hcs c List.mem_cons_self key h.1,
        ih (fun c' hc' => hcs c' (List.mem_cons_of_mem _ hc')) h.2]
      rfl

theorem isAtKey_last {path : List String} (h : path.any Text.isAtKey = false) (node : Node) :
    Text.isAtKey (Visit.mk path node).key = false := by
  rw [Visit.key]
  cases hlast : path.getLast? with
  | none => decide
  | some key => simpa using List.any_eq_false.mp h key (List.mem_of_getLast? hlast)

/-- A map below keys that are no at-rules' is not reported itself. -/
theorem reports_of_map {path : List String} (hplain : path.any Text.isAtKey = false)
    {inner : StyleTree} (href : inner.reference? = none) (scope : List String) :
    (Visit.mk path (.tree inner)).reports options scope = [] := by
  have hrole := Visit.role_of_plain (isAtKey_last hplain (.tree inner))
  have hvalue : (Visit.mk path (.tree inner)).node.value? = none := href
  unfold Visit.reports Visit.problem?
  split
  · rfl
  · rcases hrole with hrole | hrole
    · rw [hrole, if_neg (by simp), hvalue]
      rfl
    · rw [hrole, if_neg (by simp)]
      rfl

section Spine

variable {c : String → Prop} {cs : List (String → Prop)}
  (hcs : ∀ c' ∈ c :: cs, ∀ key, c' key → Text.isAtKey key = false)

include hcs

/-- The path to an end of a spine is not empty, and no key on it is an at-rule's. -/
theorem plain_of_mem_level {tree : StyleTree} (h : Spine (c :: cs) tree)
    {found : List String × StyleTree} (hfound : found ∈ level (c :: cs).length [] tree) :
    found.1 ≠ [] ∧ found.1.any Text.isAtKey = false := by
  obtain ⟨keys, hpath, hmeets, -⟩ := (mem_level h).mp hfound
  rw [List.nil_append] at hpath
  rw [hpath]
  refine ⟨fun hnil => ?_, hmeets.plain hcs⟩
  have := hmeets.length_eq
  rw [hnil] at this
  simp at this

/-- What is filed in a tree with a spine is filed below the ends of the spine. -/
theorem filings_of_spine {tree : StyleTree} (h : Spine (c :: cs) tree) :
    tree.filings options = (level (c :: cs).length [] tree).flatMap fun found =>
      (found.2.filedInside options).map (Filing.below found.1) := by
  rw [filings, flatMap_visits (fun path inner hplain _ =>
    (Visit.filings_of_plain (isAtKey_last hplain _)).1) hcs h, List.flatMap_def, List.flatMap_def]
  refine congrArg List.flatten (List.map_congr_left fun found hfound => ?_)
  obtain ⟨hpath, hplain⟩ := plain_of_mem_level hcs h hfound
  rw [visitsNode_tree, List.flatMap_append, List.flatMap_singleton,
    (Visit.filings_of_plain (isAtKey_last hplain _)).1, List.append_nil, List.flatMap_map,
    filedInside, filterMap_eq_flatMap, List.map_flatMap, List.flatMap_def, List.flatMap_def]
  exact congrArg List.flatten (List.map_congr_left fun visit hvisit =>
    Visit.filings_below (path_ne_nil_of_mem_visitsInside hvisit) hpath hplain)

/-- What is filed for modes in a tree with a spine is filed below the ends of the spine. -/
theorem modeFilings_of_spine {tree : StyleTree} (h : Spine (c :: cs) tree) :
    tree.modeFilings options = (level (c :: cs).length [] tree).flatMap fun found =>
      (found.2.modeFiledInside options).map (ModeFiling.below found.1) := by
  have hnone (path : List String) (inner : StyleTree) (hplain : path.any Text.isAtKey = false) :
      ((Visit.mk path (.tree inner)).modeFiling? options).toList = [] := by
    rw [(Visit.filings_of_plain (isAtKey_last hplain _)).2]
    rfl
  rw [modeFilings, filterMap_eq_flatMap,
    flatMap_visits (fun path inner hplain _ => hnone path inner hplain) hcs h, List.flatMap_def,
    List.flatMap_def]
  refine congrArg List.flatten (List.map_congr_left fun found hfound => ?_)
  obtain ⟨hpath, hplain⟩ := plain_of_mem_level hcs h hfound
  rw [visitsNode_tree, List.flatMap_append, List.flatMap_singleton, hnone found.1 found.2 hplain,
    List.append_nil, List.flatMap_map, modeFiledInside, filterMap_eq_flatMap,
    List.map_flatMap, List.flatMap_def, List.flatMap_def]
  refine congrArg List.flatten (List.map_congr_left fun visit hvisit => ?_)
  rw [Visit.modeFiling?_below (path_ne_nil_of_mem_visitsInside hvisit) hpath hplain]
  cases visit.modeFiledInside? options <;> rfl

end Spine

end StyleTree

end NestedStyles
