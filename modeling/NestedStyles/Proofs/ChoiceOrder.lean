import Mathlib.Data.List.FinRange
import Mathlib.Data.List.Induction
import Mathlib.Data.List.OfFn
import Mathlib.Order.Fin.Tuple
import NestedStyles.Proofs.Choices

/-!
# Order of the choices

To choose from lists is to take one index into each of them (`Selector.Indices`). The product of
the lists has the elements at all such indices (`Selector.mem_allIndices`), in the lexicographic
order of the indices (`Selector.pairwise_allIndices`, `Selector.product_eq_map_chosen`), so that
each choice of indices stands in it once, however often a list repeats an element.

The product of lists in a row is that of the first ones with that of the others behind each choice
(`Selector.product_append_lists`). So it can be built from the left, one list after another
(`Selector.product_eq_foldl`).
-/

namespace NestedStyles.Selector

universe u

variable {α : Type u}

/-! ## Indices -/

/-- One index into each of the lists. -/
abbrev Indices (lists : List (List α)) : Type :=
  (k : Fin lists.length) → Fin (lists.get k).length

/-- The elements at the indices. -/
def chosen (lists : List (List α)) (indices : Indices lists) : List α :=
  List.ofFn fun k => (lists.get k).get (indices k)

/-- The indices with one into a further list before them. -/
def Indices.cons {list : List α} {rest : List (List α)} (i : Fin list.length)
    (indices : Indices rest) : Indices (list :: rest) :=
  Fin.cons i indices

theorem Indices.exists_cons {list : List α} {rest : List (List α)}
    (indices : Indices (list :: rest)) : ∃ i tail, Indices.cons i tail = indices :=
  ⟨indices 0, fun k => indices k.succ, Fin.cons_self_tail _⟩

/-- The first index decides, and with the same first index the others. -/
theorem Indices.lex_cons_cons {list : List α} {rest : List (List α)} {i j : Fin list.length}
    {front back : Indices rest} :
    Pi.Lex (· < ·) (· < ·) (Indices.cons i front) (Indices.cons j back) ↔
      i < j ∨ i = j ∧ Pi.Lex (· < ·) (· < ·) front back :=
  Fin.pi_lex_lt_cons_cons _

theorem chosen_cons {list : List α} {rest : List (List α)} (i : Fin list.length)
    (indices : Indices rest) :
    chosen (list :: rest) (indices.cons i) = list.get i :: chosen rest indices :=
  List.ofFn_succ

/-- All indices, those into the first list varying slowest. -/
def allIndices : (lists : List (List α)) → List (Indices lists)
  | [] => [fun k => k.elim0]
  | list :: rest =>
    (List.finRange list.length).flatMap fun i => (allIndices rest).map (Indices.cons i)

theorem mem_allIndices : ∀ {lists : List (List α)} (indices : Indices lists),
    indices ∈ allIndices lists
  | [], _ => List.mem_singleton.mpr (funext fun k => k.elim0)
  | list :: rest, indices => by
    obtain ⟨i, tail, rfl⟩ := indices.exists_cons
    rw [allIndices, List.mem_flatMap]
    exact ⟨i, List.mem_finRange i, List.mem_map_of_mem (mem_allIndices tail)⟩

/-- The indices are in lexicographic order. -/
theorem pairwise_allIndices : ∀ lists : List (List α),
    (allIndices lists).Pairwise (Pi.Lex (· < ·) (· < ·))
  | [] => List.pairwise_singleton _ _
  | list :: rest => by
    rw [allIndices, List.pairwise_flatMap]
    constructor
    · intro i _
      refine List.pairwise_map.mpr ((pairwise_allIndices rest).imp fun h => ?_)
      exact Indices.lex_cons_cons.mpr (Or.inr ⟨rfl, h⟩)
    · refine (List.pairwise_lt_finRange _).imp fun hlt x hx y hy => ?_
      obtain ⟨front, -, rfl⟩ := List.mem_map.mp hx
      obtain ⟨back, -, rfl⟩ := List.mem_map.mp hy
      exact Indices.lex_cons_cons.mpr (Or.inl hlt)

/-- The product has the elements at all indices, in the order of the indices. -/
theorem product_eq_map_chosen : ∀ lists : List (List α),
    product lists = (allIndices lists).map (chosen lists)
  | [] => rfl
  | list :: rest => by
    have hlist : list = (List.finRange list.length).map list.get :=
      (List.map_get_finRange list).symm
    calc product (list :: rest)
        = ((List.finRange list.length).map list.get).flatMap
            fun a => (product rest).map (a :: ·) := by rw [← hlist, product]
      _ = (List.finRange list.length).flatMap fun i => (product rest).map (list.get i :: ·) :=
          List.flatMap_map ..
      _ = (allIndices (list :: rest)).map (chosen (list :: rest)) := by
          rw [allIndices, List.map_flatMap, product_eq_map_chosen rest]
          simp only [List.map_map, Function.comp_def, chosen_cons]

/-! ## Lists in a row -/

/-- The choices from all lists are those from the first ones, each with all from the others behind
it. -/
theorem product_append_lists (front back : List (List α)) :
    product (front ++ back) =
      (product front).flatMap fun choice => (product back).map (choice ++ ·) := by
  induction front with
  | nil => simp [product]
  | cons list rest ih =>
    simp only [List.cons_append, product, ih, List.map_flatMap, List.flatMap_assoc,
      List.flatMap_map, List.map_map]
    rfl

/-- The choices from the lists before grow by each element of a list in turn. -/
theorem product_eq_foldl (lists : List (List α)) :
    product lists = lists.foldl
      (fun choices list => choices.flatMap fun choice => list.map fun a => choice ++ [a]) [[]] := by
  -- The fold takes the last list last, so the induction is from the end.
  induction lists using List.reverseRecOn with
  | nil => rfl
  | append_singleton lists list ih =>
    have hlist : product [list] = list.map ([·]) := List.map_eq_flatMap.symm
    rw [List.foldl_concat, ← ih, product_append_lists, hlist]
    simp only [List.map_map]
    rfl

/-- The product of lists has the elements at each choice of one index into each list, once and in
the lexicographic order of the indices. So there are as many choices as the lengths of the lists
multiply to, none exactly if a list is empty; they are the rows with one element of each list; and
the choices from lists in a row are those from the first ones, each with all from the others behind
it. -/
theorem product_enumerates (lists : List (List α)) :
    (∃ tuples : List (Indices lists), tuples.Pairwise (Pi.Lex (· < ·) (· < ·)) ∧
      (∀ indices, indices ∈ tuples) ∧ product lists = tuples.map (chosen lists)) ∧
    (product lists).length = (lists.map List.length).prod ∧
    (product lists = [] ↔ [] ∈ lists) ∧
    (∀ choice, choice ∈ product lists ↔ List.Forall₂ (· ∈ ·) choice lists) ∧
    ∀ others, product (lists ++ others) =
      (product lists).flatMap fun choice => (product others).map (choice ++ ·) :=
  ⟨⟨allIndices lists, pairwise_allIndices lists, mem_allIndices, product_eq_map_chosen lists⟩,
    length_product lists, product_eq_nil_iff, fun _ => mem_product, product_append_lists lists⟩

example : product [["div", "span"], ["p", "a"]] =
    [["div", "p"], ["div", "a"], ["span", "p"], ["span", "a"]] := rfl

end NestedStyles.Selector
