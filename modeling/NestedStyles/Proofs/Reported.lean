import NestedStyles.Proofs.Walked

/-!
# What a walk reports

What a visit reports depends on the node and the keys above it only (`Visit.reports`), and a walk
reports what its visits do, one after another (`Collected.diagnostics_collect`).
-/

namespace NestedStyles

/-- What is wrong with an entry of the `@media` map. -/
def Problem.ofMapEntry? (options : Options) (entry : String × Node) : Option Problem :=
  match entry.2.block?, Target.mapQuery? options entry.1 with
  | none, _ => some (.invalidMediaEntry entry.1)
  | some _, none => some (.unresolved entry.1)
  | some _, some _ => none

namespace Visit

/-- What is wrong with a declaration: no selector stands above it. -/
def orphan? (visit : Visit) (value : Value) : Option Problem :=
  let property := Property.name visit.key
  if (value.written? property).isSome && (Selector.ofPath visit.parents).isEmpty then
    some (.orphan property)
  else none

/-- What is wrong with the node. -/
def problem? (options : Options) (visit : Visit) : Option Problem :=
  match visit.role with
  | .declaration => visit.node.value?.bind visit.orphan?
  | .reference =>
    match visit.node.block?, Target.ofKey? options visit.key with
    | none, _ => some (.withoutBlock visit.key)
    | some _, none => some (.unresolved visit.key)
    | some _, some _ => none
  | _ => none

/-- What a visit reports: its node, or the entries of the `@media` map. -/
def reports (options : Options) (scope : List String) (visit : Visit) : List Diagnostic :=
  if visit.inAtRule then []
  else if visit.role = .mediaMap then
    visit.node.entries.filterMap fun entry =>
      (Problem.ofMapEntry? options entry).map (⟨scope ++ ["@media", entry.1], ·⟩)
  else (visit.problem? options).toList.map (⟨scope ++ visit.path, ·⟩)

end Visit

namespace Collected

variable {options : Options} {scope : List String} {found found' : Collected} {visit : Visit}

theorem diagnostics_declare {value : Value} (h : found.declare scope visit value = .ok found') :
    found'.diagnostics =
      found.diagnostics ++ (visit.orphan? value).toList.map (⟨scope ++ visit.path, ·⟩) := by
  unfold declare at h
  dsimp only [Visit.orphan?]
  split at h
  · simp at h
  · dsimp only at h
    cases hwritten : value.written? (Property.name visit.key) with
    | none =>
      rw [hwritten] at h
      rw [← Except.ok.inj h]
      exact (List.append_nil _).symm
    | some css =>
      rw [hwritten] at h
      cases hpath : Selector.ofPath visit.parents with
      | nil =>
        rw [hpath] at h
        rw [← Except.ok.inj h]
        rfl
      | cons selector rest =>
        rw [hpath] at h
        rw [← Except.ok.inj h]
        exact (List.append_nil _).symm

theorem diagnostics_foldl_fileMedia (entries : StyleTree) :
    (entries.foldl (fileMedia options scope) found).diagnostics = found.diagnostics ++
      entries.filterMap fun entry =>
        (Problem.ofMapEntry? options entry).map (⟨scope ++ ["@media", entry.1], ·⟩) := by
  induction entries generalizing found with
  | nil => exact (List.append_nil _).symm
  | cons entry rest ih =>
    obtain ⟨key, node⟩ := entry
    rw [List.foldl_cons, ih, List.filterMap_cons, fileMedia, Problem.ofMapEntry?]
    cases node.block? with
    | none => exact List.append_assoc ..
    | some block =>
      cases Target.mapQuery? options key with
      | none => exact List.append_assoc ..
      | some query => rfl

/-- A visit adds what it reports. -/
theorem diagnostics_visit (h : Collected.visit options scope found visit = .ok found') :
    found'.diagnostics = found.diagnostics ++ visit.reports options scope := by
  unfold Collected.visit at h
  unfold Visit.reports Visit.problem?
  by_cases hin : visit.inAtRule = true
  · rw [if_pos hin] at h ⊢
    rw [← Except.ok.inj h, List.append_nil]
  rw [if_neg hin] at h ⊢
  cases hrole : visit.role with
  | declaration =>
    rw [hrole] at h
    dsimp only at h
    cases hvalue : visit.node.value? with
    | none =>
      rw [hvalue] at h
      rw [← Except.ok.inj h]
      exact (List.append_nil _).symm
    | some value =>
      rw [hvalue] at h
      rw [diagnostics_declare h, if_neg (by simp)]
      rfl
  | mediaMap =>
    rw [hrole] at h
    rw [← Except.ok.inj h, if_pos rfl]
    exact diagnostics_foldl_fileMedia _
  | reference =>
    rw [hrole] at h
    rw [← Except.ok.inj h, if_neg (by simp)]
    unfold fileReference
    cases visit.node.block? with
    | none => rfl
    | some block =>
      cases Target.ofKey? options visit.key with
      | none => rfl
      | some target => exact (List.append_nil _).symm
  | _ =>
    rw [hrole] at h
    rw [← Except.ok.inj h]
    exact (List.append_nil _).symm

/-- A walk reports what its visits do, in the order of the document. -/
theorem diagnostics_collect {tree : StyleTree} (h : tree.collect options scope = .ok found) :
    found.diagnostics = tree.visits.flatMap (Visit.reports options scope) := by
  have happend (visits : List Visit) (start : List Diagnostic) :
      visits.foldl (fun reported visit => reported ++ visit.reports options scope) start =
        start ++ visits.flatMap (Visit.reports options scope) := by
    induction visits generalizing start with
    | nil => exact (List.append_nil start).symm
    | cons visit rest ih => rw [List.foldl_cons, ih, List.flatMap_cons, List.append_assoc]
  rw [StyleTree.collect, StyleTree.walk_eq_foldlM] at h
  exact (view_foldlM_visit Collected.diagnostics (fun _ _ _ => diagnostics_visit) h).trans
    (happend tree.visits [])

end Collected

end NestedStyles
