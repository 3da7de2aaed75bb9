import NestedStyles.Proofs.ReadTree

/-!
# Numbers of a tree

The numbers in the values of a tree, list items included, in the order of the document. The error
about a value names the first of its numbers that is not finite (`Value.nonFinite?_eq_find?`), and a
tree that is read from JSON has finite numbers only (`StyleTree.isFinite_ofText`): a numeral that is
out of range cannot be read.
-/

namespace NestedStyles

/-- The number of an item, unless it is a text. -/
def Item.number? : Item → Option Number
  | .text _ => none
  | .number n => some n

/-- The numbers in a value, in order. -/
def Value.numbers : Value → List Number
  | .number n => [n]
  | .list items => items.filterMap Item.number?
  | _ => []

/-- All numbers in the value are finite. -/
def Value.isFinite (value : Value) : Bool := value.numbers.all Number.isFinite

namespace Value

/-- The number that is reported of a value is the first that is not finite. -/
theorem nonFinite?_eq_find? (value : Value) :
    value.nonFinite? = value.numbers.find? (!·.isFinite) := by
  cases value with
  | number n =>
    rw [nonFinite?, Item.nonFinite?, numbers, List.find?_singleton]
    cases n.isFinite <;> rfl
  | list items =>
    rw [nonFinite?, numbers]
    induction items with
    | nil => rfl
    | cons item rest ih =>
      rw [List.findSome?_cons, ih]
      cases item with
      | text s => rfl
      | number n =>
        change _ = (n :: rest.filterMap Item.number?).find? (!·.isFinite)
        rw [Item.nonFinite?, List.find?_cons]
        cases n.isFinite <;> rfl
  | _ => rfl

theorem nonFinite?_eq_none_iff {value : Value} :
    value.nonFinite? = none ↔ value.isFinite = true := by
  rw [nonFinite?_eq_find?, List.find?_eq_none, isFinite, List.all_eq_true]
  simp only [Bool.not_eq_true', Bool.not_eq_false]

theorem isFinite_eq_false_iff {value : Value} :
    value.isFinite = false ↔ ∃ n ∈ value.numbers, n.isFinite = false := by
  rw [isFinite, List.all_eq_false]
  simp only [Bool.not_eq_true]

theorem exists_nonFinite? {value : Value} (h : value.isFinite = false) :
    ∃ n, value.nonFinite? = some n := by
  refine Option.ne_none_iff_exists'.mp fun hnone => ?_
  rw [nonFinite?_eq_none_iff.mp hnone] at h
  exact absurd h (by simp)

theorem of_nonFinite?_eq_some {value : Value} {n : Number} (h : value.nonFinite? = some n) :
    n ∈ value.numbers ∧ n.isFinite = false := by
  rw [nonFinite?_eq_find?] at h
  exact ⟨List.mem_of_find?_eq_some h, by simpa using List.find?_some h⟩

end Value

/-- The values of leaves are finite, or there is a first one that is not. -/
theorem Leaf.finite_or_first (leaves : List Leaf) :
    (∀ leaf ∈ leaves, leaf.value.isFinite = true) ∨
      ∃ leaf n, leaves.find? (!·.value.isFinite) = some leaf ∧ leaf.value.nonFinite? = some n := by
  cases hfirst : leaves.find? (!·.value.isFinite) with
  | none =>
    exact Or.inl fun leaf hleaf => by simpa using List.find?_eq_none.mp hfirst leaf hleaf
  | some leaf =>
    obtain ⟨n, hn⟩ := Value.exists_nonFinite? (by simpa using List.find?_some hfirst)
    exact Or.inr ⟨leaf, n, rfl, hn⟩

/-- All numbers in the value of a leaf satisfy the condition. -/
def Node.numbersAll (p : Number → Bool) : Node → Bool
  | .leaf value => value.numbers.all p
  | .tree _ => true

theorem Node.isFinite_eq_numbersAll (node : Node) :
    node.isFinite = node.numbersAll Number.isFinite := by
  cases node with
  | leaf value =>
    rw [isFinite, Bool.eq_iff_iff, Option.isNone_iff_eq_none, Value.nonFinite?_eq_none_iff]
    rfl
  | tree entries => rfl

namespace StyleTree

mutual

/-- The numbers at or below a node. -/
def nodeNumbers : Node → List Number
  | .leaf value => value.numbers
  | .tree entries => numbers entries

/-- The numbers in a tree, in the order of the document. -/
def numbers : StyleTree → List Number
  | [] => []
  | (_, node) :: rest => nodeNumbers node ++ numbers rest

end

mutual

theorem nodeEvery_numbersAll {p : Number → Bool} : ∀ {node : Node},
    (node.numbersAll p = true ∧ nodeEvery (fun _ node => node.numbersAll p) node = true) ↔
      ∀ n ∈ nodeNumbers node, p n = true
  | .leaf value => by
    rw [nodeNumbers, Node.numbersAll, List.all_eq_true]
    exact and_iff_left rfl
  | .tree entries => by
    rw [nodeNumbers, ← every_numbersAll]
    exact and_iff_right rfl

/-- A condition holds of the numbers of all leaves exactly if it holds of all numbers. -/
theorem every_numbersAll {p : Number → Bool} : ∀ {entries : List (String × Node)},
    every (fun _ node => node.numbersAll p) entries = true ↔ ∀ n ∈ numbers entries, p n = true
  | [] => by simp [every, numbers]
  | (key, node) :: rest => by
    rw [every_cons, Bool.and_eq_true, Bool.and_eq_true, nodeEvery_numbersAll, every_numbersAll,
      numbers]
    simp only [List.mem_append, or_imp, forall_and]

end

/-- The numbers of a tree are finite exactly if those of all its leaves are. -/
theorem isFinite_iff {tree : StyleTree} :
    tree.isFinite = true ↔ ∀ n ∈ tree.numbers, n.isFinite = true := by
  rw [← every_numbersAll, isFinite, funext fun _ => funext Node.isFinite_eq_numbersAll]

/-! ## Numbers that are read -/

theorem nonFinite?_of_readItem {room : Nat} {value : Json} {item : Item}
    (h : readItem room value = .ok item) : item.nonFinite? = none := by
  unfold readItem at h
  split at h
  · rw [← Except.ok.inj h]
    rfl
  · rw [← Except.ok.inj h, Item.nonFinite?, Json.Numeric.isFinite_number, if_pos rfl]
  · obtain ⟨room, hroom⟩ := exists_of_enter h
    exact absurd hroom mismatch_ne_ok
  · obtain ⟨room, hroom⟩ := exists_of_enter h
    exact absurd hroom mismatch_ne_ok
  · exact absurd h mismatch_ne_ok

/-- A node that is read holds no number of its own that is not finite. -/
theorem isFinite_of_readNode {room : Nat} {value : Json} {node : Node}
    (h : readNode room value = .ok node) : node.isFinite = true := by
  cases value with
  | null =>
    rw [readNode] at h
    exact Except.ok.inj h ▸ rfl
  | bool b =>
    rw [readNode] at h
    exact Except.ok.inj h ▸ rfl
  | number n =>
    cases n with
    | some n =>
      rw [readNode] at h
      rw [← Except.ok.inj h, Node.isFinite_eq_numbersAll, Node.numbersAll, Value.numbers]
      simpa using n.isFinite_number
    | none =>
      rw [readNode] at h
      exact absurd h (by simp)
  | text s =>
    cases s with
    | some s =>
      rw [readNode] at h
      exact Except.ok.inj h ▸ rfl
    | none =>
      rw [readNode] at h
      exact absurd h (by simp)
  | list items =>
    rw [readNode] at h
    obtain ⟨room, hroom⟩ := exists_of_enter h
    obtain ⟨read, hread, rfl⟩ := Except.exists_of_map_ok hroom
    rw [Node.isFinite, Value.nonFinite?, Option.isNone_iff_eq_none, List.findSome?_eq_none_iff]
    intro item hitem
    obtain ⟨value, -, hvalue⟩ := exists_of_mem_mapM hread hitem
    exact nonFinite?_of_readItem hvalue
  | object members =>
    rw [readNode] at h
    obtain ⟨room, hroom⟩ := exists_of_enter h
    obtain ⟨tree, -, rfl⟩ := Except.exists_of_map_ok hroom
    cases hreference : reference? tree with
    | some value =>
      obtain ⟨css, name, rfl⟩ := eq_reference_of_reference? hreference
      rfl
    | none => rfl
  | broken =>
    rw [readNode] at h
    exact absurd h (by simp)

/-- The numbers of a tree that is read are finite. -/
theorem isFinite_ofText {text : String} {tree : StyleTree} (h : ofText text = .ok tree) :
    tree.isFinite = true :=
  every_ofText (fun _ _ _ => isFinite_of_readNode) h

end StyleTree

end NestedStyles
