import NestedStyles.Proofs.Depth
import NestedStyles.Proofs.Numbers

/-!
# How a compilation fails

Every tree that is compiled for a part has fewer `@` keys on its paths than the tree it comes from,
if no selector of a mode begins with `@`. So the compilation ends (`StyleTree.compile_ends`), and
the only error it may end with is about a number of the tree that is not finite
(`StyleTree.nonFinite_of_compile`). In a tree without `@` keys that is the first such number in the
order of the document (`StyleTree.compile_eq_error_iff`).
-/

namespace NestedStyles

/-- A condition on the numbers of all leaves passes to the parts. -/
theorem passes_numbersAll (options : Options) (p : Number → Bool) :
    Passes options (fun _ node => node.numbersAll p) (fun _ node => node.numbersAll p) where
  root := id
  mapRoot := id
  map := id
  marked _ := id
  blank _ := id
  mode _ _ := rfl
  auto _ _ _ := rfl

namespace Collected

variable {options : Options} {found : Collected}

/-- The bucket of a header is a part. -/
theorem exists_part_of_mem {bucket : String × StyleTree}
    (h : bucket ∈ found.buckets.layers ++ found.buckets.containers ++ found.buckets.media ++
      found.buckets.autoBuckets options) :
    ∃ part ∈ found.parts options true, part.tree = bucket.2 := by
  unfold parts
  simp only [List.mem_append] at h ⊢
  rcases h with ((h | h) | h) | h
  · exact ⟨_, Or.inl (Or.inl (Or.inl (Or.inl (List.mem_map_of_mem h)))), rfl⟩
  · exact ⟨_, Or.inl (Or.inl (Or.inl (Or.inr (List.mem_map_of_mem h)))), rfl⟩
  · exact ⟨_, Or.inl (Or.inl (Or.inr (List.mem_map_of_mem h))), rfl⟩
  · exact ⟨_, Or.inr (List.mem_map_of_mem h), rfl⟩

/-- The tree of the modes is a part, unless it is empty. -/
theorem exists_part_of_modes (options : Options) (h : found.buckets.modes ≠ []) :
    ∃ part ∈ found.parts options true, part.tree = found.buckets.modes := by
  unfold parts
  simp only [List.mem_append]
  refine ⟨⟨none, false, false, found.buckets.modes⟩, Or.inl (Or.inr ?_), rfl⟩
  rw [if_neg (by simpa using h)]
  exact List.mem_singleton_self _

end Collected

namespace StyleTree

theorem everyRoot_iff {p : String → Node → Bool} {tree : StyleTree} :
    everyRoot p p tree ↔ every p tree = true := every_iff.symm

section Errors

variable {options : Options} {scope : List String} {tree : StyleTree}

/-- A walk fails with a number of a value that is not finite. -/
theorem nonFinite_of_collect {p : Number → Bool}
    (hnumbers : every (fun _ node => node.numbersAll p) tree = true) {e : CompileError}
    (h : tree.collect options scope = .error e) :
    ∃ path n, e = .nonFinite path n ∧ n.isFinite = false ∧ p n = true := by
  cases hfailure : tree.failure? scope with
  | none =>
    obtain ⟨found, hfound, -⟩ := @Collected.exists_collect options scope tree hfailure
    rw [hfound] at h
    exact absurd h (by simp)
  | some other =>
    rw [Collected.collect_of_failure hfailure] at h
    obtain rfl := Except.error.inj h
    obtain ⟨visit, hvisit, hfails⟩ := List.exists_of_findSome?_eq_some hfailure
    obtain ⟨leaf, hleaf, hnumber⟩ := Option.bind_eq_some_iff.mp hfails
    obtain ⟨n, hn, rfl⟩ := Option.map_eq_some_iff.mp hnumber
    obtain ⟨hmem, hinfinite⟩ := Value.of_nonFinite?_eq_some hn
    refine ⟨_, n, rfl, hinfinite, ?_⟩
    obtain ⟨-, -, hvalue, -⟩ := Visit.leaf?_eq_some hleaf
    obtain ⟨hall, -⟩ := every_of_mem_visitsBelow hnumbers hvisit
    cases hnode : visit.node with
    | leaf value =>
      rw [hnode] at hall hvalue
      obtain rfl := Option.some.inj hvalue
      exact List.all_eq_true.mp hall n hmem
    | tree entries =>
      rw [hnode] at hvalue
      obtain ⟨css, name, hreference⟩ := eq_reference_of_reference? hvalue
      rw [hreference] at hmem
      exact absurd hmem (by simp [Value.numbers])

/-- With more steps than a tree is deep, a compilation fails with a number of the tree that is not
finite. -/
theorem nonFinite_of_compileWithin (hflat : options.IsFlat) {p : Number → Bool}
    (hnumbers : every (fun _ node => node.numbersAll p) tree = true) {steps : Nat}
    (hsteps : tree.atDepth < steps) {auto : Bool} {e : CompileError}
    (h : tree.compileWithin options steps scope auto = .error e) :
    ∃ path n, e = .nonFinite path n ∧ n.isFinite = false ∧ p n = true := by
  induction steps generalizing tree scope auto with
  | zero => omega
  | succ steps ih =>
    cases hfound : tree.collect options scope with
    | error other =>
      rw [compileWithin, hfound] at h
      obtain rfl : other = e := Except.error.inj h
      exact nonFinite_of_collect hnumbers hfound
    | ok found =>
      rw [compileWithin_succ options steps auto hfound] at h
      obtain ⟨part, hpart, hfails⟩ := exists_of_mapM_error (Except.eq_error_of_map h)
      have hholds := Collected.holds_collect hfound
      have hdepth := atDepth_of_mem_parts hflat hholds hpart
      have hbelow := everyRoot_iff.mp (everyRoot_of_mem_parts (passes_numbersAll options p)
        (everyRoot_iff.mpr hnumbers) hholds hpart)
      exact ih hbelow (by omega) (Except.eq_error_of_map hfails)

/-- A compilation fails with a number of the tree that is not finite. -/
theorem nonFinite_of_compile (hflat : options.IsFlat) {e : CompileError}
    (h : tree.compile options = .error e) :
    ∃ path n, e = .nonFinite path n ∧ n.isFinite = false ∧ n ∈ tree.numbers := by
  have hnumbers : every (fun _ node => node.numbersAll (decide <| · ∈ tree.numbers)) tree = true :=
    every_numbersAll.mpr fun n hn => decide_eq_true hn
  obtain ⟨path, n, rfl, hinfinite, hmem⟩ := nonFinite_of_compileWithin hflat hnumbers
    (atDepth_lt_steps options tree) (Except.eq_error_of_map h)
  exact ⟨path, n, rfl, hinfinite, of_decide_eq_true hmem⟩

/-- A tree with finite numbers compiles. -/
theorem exists_compile (hflat : options.IsFlat) (h : ∀ n ∈ tree.numbers, n.isFinite = true) :
    ∃ sheet, tree.compile options = .ok sheet := by
  cases hcompile : tree.compile options with
  | ok sheet => exact ⟨sheet, rfl⟩
  | error e =>
    obtain ⟨path, n, -, hinfinite, hmem⟩ := nonFinite_of_compile hflat hcompile
    exact absurd ((h n hmem).symm.trans hinfinite) (by simp)

end Errors

/-! ## Trees without an at-rule -/

section Plain

variable {options : Options} {tree : StyleTree}

/-- Leaves are declared up to the first that holds a number that is not finite. -/
theorem foldlM_declareLeaf_of_find? {scope : List String} {leaves : List Leaf} {leaf : Leaf}
    (hleaf : leaves.find? (!·.value.isFinite) = some leaf) {n : Number}
    (hn : leaf.value.nonFinite? = some n) (found : Collected) :
    leaves.foldlM (Collected.declareLeaf scope) found =
      .error (.nonFinite (scope ++ leaf.path) n) := by
  induction leaves generalizing found with
  | nil => exact absurd hleaf (by simp)
  | cons first rest ih =>
    rw [List.foldlM_cons]
    rw [List.find?_cons] at hleaf
    split at hleaf
    · obtain rfl := Option.some.inj hleaf
      rw [Collected.declareLeaf, Collected.declare, hn]
      rfl
    · next hfinite =>
      have hfirst : first.value.nonFinite? = none :=
        Value.nonFinite?_eq_none_iff.mpr (by simpa using hfinite)
      rw [Collected.declareLeaf_of_finite scope found hfirst]
      exact ih hleaf _

/-- A tree without `@` keys compiles if its leaves hold finite numbers only. -/
theorem exists_compile_of_find?_eq_none (hplain : tree.isPlain = true)
    (h : tree.leaves.find? (!·.value.isFinite) = none) :
    ∃ sheet, tree.compile options = .ok sheet := by
  have hfinite : ∀ leaf ∈ tree.leaves, leaf.value.nonFinite? = none := fun leaf hleaf =>
    Value.nonFinite?_eq_none_iff.mpr (by simpa using List.find?_eq_none.mp h leaf hleaf)
  have hfound := collect_eq_foldlM_leaves options [] hplain
  rw [Collected.foldlM_declareLeaf [] .empty hfinite] at hfound
  obtain ⟨steps, hsteps⟩ := steps_eq_add_two options tree
  rw [compile, hsteps, compileWithin_of_no_buckets options (steps + 1) true hfound
    (Collected.buckets_foldl_takeLeaf [] .empty tree.leaves)]
  exact ⟨_, rfl⟩

/-- A tree without `@` keys fails with the first number in it that is not finite. -/
theorem compile_eq_error_iff (hplain : tree.isPlain = true) {e : CompileError} :
    tree.compile options = .error e ↔ ∃ leaf n, tree.leaves.find? (!·.value.isFinite) = some leaf ∧
      leaf.value.numbers.find? (!·.isFinite) = some n ∧ e = .nonFinite leaf.path n := by
  have hfails {leaf : Leaf} {n : Number} (hleaf : tree.leaves.find? (!·.value.isFinite) = some leaf)
      (hn : leaf.value.nonFinite? = some n) :
      tree.compile options = .error (.nonFinite leaf.path n) := by
    obtain ⟨steps, hsteps⟩ := steps_eq_add_two options tree
    rw [compile, hsteps, compileWithin, collect_eq_foldlM_leaves options [] hplain,
      foldlM_declareLeaf_of_find? hleaf hn]
    rfl
  constructor
  · intro h
    cases hleaf : tree.leaves.find? (!·.value.isFinite) with
    | none =>
      obtain ⟨sheet, hsheet⟩ := @exists_compile_of_find?_eq_none options tree hplain hleaf
      exact absurd (hsheet.symm.trans h) (by simp)
    | some leaf =>
      obtain ⟨n, hn⟩ := Value.exists_nonFinite? (by simpa using List.find?_some hleaf)
      refine ⟨leaf, n, rfl, Value.nonFinite?_eq_find? _ ▸ hn, ?_⟩
      exact Except.error.inj (h.symm.trans (hfails hleaf hn))
  · rintro ⟨leaf, n, hleaf, hn, rfl⟩
    exact hfails hleaf (Value.nonFinite?_eq_find? _ ▸ hn)

/-- A tree without `@` keys fails exactly if one of its leaves holds a number that is not finite. -/
theorem exists_error_iff (hplain : tree.isPlain = true) : (∃ e, tree.compile options = .error e) ↔
    ∃ leaf ∈ tree.leaves, ∃ n ∈ leaf.value.numbers, n.isFinite = false := by
  constructor
  · rintro ⟨e, h⟩
    obtain ⟨leaf, n, hleaf, hn, -⟩ := (compile_eq_error_iff hplain).mp h
    exact ⟨leaf, List.mem_of_find?_eq_some hleaf, n, List.mem_of_find?_eq_some hn,
      by simpa using List.find?_some hn⟩
  · rintro ⟨leaf, hleaf, n, hn, hinfinite⟩
    obtain hfinite | ⟨first, number, hfirst, hnumber⟩ := Leaf.finite_or_first tree.leaves
    · have hvalue := Value.isFinite_eq_false_iff.mpr ⟨n, hn, hinfinite⟩
      exact absurd ((hfinite leaf hleaf).symm.trans hvalue) (by simp)
    · exact ⟨_, (compile_eq_error_iff hplain).mpr
        ⟨first, number, hfirst, Value.nonFinite?_eq_find? _ ▸ hnumber, rfl⟩⟩

end Plain

/-! ## All trees -/

/-- The compilation of a tree ends. The buckets of a tree, those of the automatic modes and the tree
of the modes among them, have fewer `@` keys on their paths than the tree, if no selector of a mode
begins with `@`. So more steps than the tree is deep are never used up, and they all give the same
result. -/
theorem compile_ends {options : Options} (hflat : options.IsFlat) (tree : StyleTree) :
    (∀ scope found, tree.collect options scope = .ok found →
      (∀ bucket ∈ found.buckets.layers ++ found.buckets.containers ++ found.buckets.media ++
        found.buckets.autoBuckets options, bucket.2.atDepth < tree.atDepth) ∧
      (found.buckets.modes ≠ [] → found.buckets.modes.atDepth < tree.atDepth)) ∧
    (∀ scope auto, ∃ result, (∀ path, result ≠ .error (.endless path)) ∧
      ∀ steps, tree.atDepth < steps → tree.compileWithin options steps scope auto = result) ∧
    ∀ path, tree.compile options ≠ .error (.endless path) := by
  refine ⟨fun scope found hfound => ?_, fun scope auto => ?_, fun path h => ?_⟩
  · have hparts (part : Part) (hpart : part ∈ found.parts options true) :
        part.tree.atDepth < tree.atDepth :=
      atDepth_of_mem_parts hflat (Collected.holds_collect hfound) hpart
    constructor
    · intro bucket hbucket
      obtain ⟨part, hpart, htree⟩ := Collected.exists_part_of_mem hbucket
      exact htree ▸ hparts part hpart
    · intro hmodes
      obtain ⟨part, hpart, htree⟩ := Collected.exists_part_of_modes options hmodes
      exact htree ▸ hparts part hpart
  · refine ⟨tree.compileWithin options (tree.atDepth + 1) scope auto, fun path h => ?_,
      fun steps hsteps => compileWithin_steps hflat hsteps (Nat.lt_succ_self _) scope auto⟩
    obtain ⟨_, _, he, -⟩ := nonFinite_of_compileWithin hflat
      (every_numbersAll.mpr fun _ _ => rfl) (Nat.lt_succ_self _) h
    exact absurd he (by simp)
  · obtain ⟨_, _, he, -⟩ := nonFinite_of_compile hflat h
    exact absurd he (by simp)

/-- A layer in the block of a mode is found when the tree of the modes is compiled, which is less
deep. -/
theorem compile_ends_layer_in_mode :
    ∃ found, collect (Options.empty.withMode "dark" ".dark") []
        [("@dark", .tree [("@layer base", .tree [("p", .tree [("color", .leaf .null)])])])] =
          .ok found ∧
      found.buckets.modes.atDepth < 2 ∧
      ∀ path, compile (Options.empty.withMode "dark" ".dark")
        [("@dark", .tree [("@layer base", .tree [("p", .tree [("color", .leaf .null)])])])] ≠
          .error (.endless path) := by
  obtain ⟨hbuckets, -, hcompile⟩ := @compile_ends (Options.empty.withMode "dark" ".dark")
    ⟨by decide, by decide⟩
    [("@dark", .tree [("@layer base", .tree [("p", .tree [("color", .leaf .null)])])])]
  exact ⟨_, rfl, (hbuckets [] _ rfl).2 (by decide), hcompile⟩

/-- The errors of a compilation are about numbers that are not finite. A tree with finite numbers
compiles, and so does every tree that is read from a text; an error names a number of the tree; and
a tree without `@` keys fails with its first leaf that holds such a number, named by its path and
its first such number. -/
theorem compile_fails_by_number {options : Options} (hflat : options.IsFlat) :
    (∀ tree : StyleTree, (∀ n ∈ tree.numbers, n.isFinite = true) →
      ∃ sheet, tree.compile options = .ok sheet) ∧
    (∀ text tree, ofText text = .ok tree → ∃ sheet, tree.compile options = .ok sheet) ∧
    (∀ (tree : StyleTree) e, tree.compile options = .error e →
      ∃ path n, e = .nonFinite path n ∧ n.isFinite = false ∧ n ∈ tree.numbers) ∧
    ∀ tree : StyleTree, tree.isPlain = true →
      ((∃ e, tree.compile options = .error e) ↔
        ∃ leaf ∈ tree.leaves, ∃ n ∈ leaf.value.numbers, n.isFinite = false) ∧
      ∀ e, tree.compile options = .error e ↔ ∃ leaf n,
        tree.leaves.find? (!·.value.isFinite) = some leaf ∧
        leaf.value.numbers.find? (!·.isFinite) = some n ∧ e = .nonFinite leaf.path n := by
  refine ⟨fun tree => exists_compile hflat, fun text tree h => ?_,
    fun tree e => nonFinite_of_compile hflat, fun tree hplain => ⟨?_, fun e => ?_⟩⟩
  · exact exists_compile hflat (isFinite_iff.mp (isFinite_ofText h))
  · exact exists_error_iff hplain
  · exact compile_eq_error_iff hplain

/-- The number stands in a list, and it is found when the tree of the modes is compiled. -/
theorem compile_fails_by_number_in_mode :
    ∃ path n, compile (Options.empty.withMode "dark" ".dark")
        [("p", .tree [("@dark", .tree [("margin", .leaf (.list [.text "0", .number .nan]))])])] =
          .error (.nonFinite path n) ∧
      path = [".dark", "& p", "margin"] ∧ n ∈ [Number.nan] := by
  obtain ⟨-, -, hnumber, -⟩ :=
    @compile_fails_by_number (Options.empty.withMode "dark" ".dark") ⟨by decide, by decide⟩
  obtain ⟨path, n, he, -, hmem⟩ := hnumber
    [("p", .tree [("@dark", .tree [("margin", .leaf (.list [.text "0", .number .nan]))])])]
    (.nonFinite [".dark", "& p", "margin"] .nan) rfl
  obtain ⟨rfl, rfl⟩ := CompileError.nonFinite.inj he
  exact ⟨_, _, rfl, rfl, hmem⟩

end StyleTree

end NestedStyles
