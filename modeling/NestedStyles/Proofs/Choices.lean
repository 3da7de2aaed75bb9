import Mathlib.Algebra.BigOperators.Group.List.Basic
import Mathlib.Data.List.Forall2
import NestedStyles.Selector.Alternatives

/-!
# Choices of one element from each list

The choices are the rows with one element of each list (`Selector.mem_product`), as many as the
lengths of the lists multiply to (`Selector.length_product`), and every element is taken by some
choice if no list is empty (`Selector.exists_mem_product`). The choices from a list that consists of
two parts are those from the one part and those from the other (`Selector.mem_product_append`), in
this order if no list before it has more than one element (`Selector.product_append`).
-/

namespace NestedStyles.Selector

section Members

universe u

variable {α : Type u}

/-- The choices are the rows with one element of each list. -/
theorem mem_product {lists : List (List α)} {choice : List α} :
    choice ∈ product lists ↔ List.Forall₂ (· ∈ ·) choice lists := by
  induction lists generalizing choice with
  | nil => rw [product, List.mem_singleton, List.forall₂_nil_right_iff]
  | cons first rest ih =>
    simp only [product, List.mem_flatMap, List.mem_map, ih, List.forall₂_cons_right_iff]
    constructor
    · rintro ⟨a, ha, back, hback, rfl⟩
      exact ⟨a, back, ha, hback, rfl⟩
    · rintro ⟨a, back, ha, hback, rfl⟩
      exact ⟨a, ha, back, hback, rfl⟩

theorem length_product (lists : List (List α)) :
    (product lists).length = (lists.map List.length).prod := by
  induction lists with
  | nil => rfl
  | cons list rest ih => simp [product, List.length_flatMap, ih]

/-- There is no choice exactly if a list is empty. -/
theorem product_eq_nil_iff {lists : List (List α)} : product lists = [] ↔ [] ∈ lists := by
  induction lists with
  | nil => simp [product]
  | cons first rest ih =>
    rw [product, List.flatMap_eq_nil_iff, List.mem_cons, ← ih]
    cases first with
    | nil => simp
    | cons a more => simpa using fun h _ _ => h

/-- A choice takes one element of each list. -/
theorem mem_of_mem_product {lists : List (List α)} {choice : List α}
    (h : choice ∈ product lists) : ∀ a ∈ choice, ∃ list ∈ lists, a ∈ list := by
  replace h := mem_product.mp h
  induction h with
  | nil => simp
  | cons hfirst _ ih =>
    intro a ha
    rcases List.mem_cons.mp ha with rfl | ha
    · exact ⟨_, List.mem_cons_self, hfirst⟩
    · obtain ⟨list, hlist, hmem⟩ := ih a ha
      exact ⟨list, List.mem_cons_of_mem _ hlist, hmem⟩

/-- Every element of one of the lists is part of a choice, if none of the lists is empty. -/
theorem exists_mem_product {lists : List (List α)} (hne : ∀ list ∈ lists, list ≠ [])
    {list : List α} (hlist : list ∈ lists) {a : α} (ha : a ∈ list) :
    ∃ choice ∈ product lists, a ∈ choice := by
  induction lists with
  | nil => simp at hlist
  | cons first rest ih =>
    have hrest : ∀ list ∈ rest, list ≠ [] := fun list h => hne list (List.mem_cons_of_mem _ h)
    rcases List.mem_cons.mp hlist with rfl | hlist
    · obtain ⟨back, hback⟩ := List.exists_mem_of_ne_nil (product rest) fun hnil =>
        hrest [] (product_eq_nil_iff.mp hnil) rfl
      exact ⟨a :: back, List.mem_flatMap.mpr ⟨a, ha, List.mem_map_of_mem hback⟩,
        List.mem_cons_self⟩
    · obtain ⟨b, hb⟩ := List.exists_mem_of_ne_nil first (hne first List.mem_cons_self)
      obtain ⟨back, hback, hmem⟩ := ih hrest hlist
      exact ⟨b :: back, List.mem_flatMap.mpr ⟨b, hb, List.mem_map_of_mem hback⟩,
        List.mem_cons_of_mem _ hmem⟩

end Members

section Append

variable {α : Type} {front : List (List α)} (back : List (List α)) (xs ys : List α)

/-- A choice with an element from one of two parts of a list. -/
theorem mem_product_append {choice : List α} : choice ∈ product (front ++ (xs ++ ys) :: back) ↔
    choice ∈ product (front ++ xs :: back) ∨ choice ∈ product (front ++ ys :: back) := by
  induction front generalizing choice with
  | nil => rw [List.nil_append, product, List.flatMap_append, List.mem_append]; rfl
  | cons first front ih =>
    simp only [List.cons_append, product, List.mem_flatMap, List.mem_map, ih]
    constructor
    · rintro ⟨a, ha, words, hwords | hwords, rfl⟩
      · exact Or.inl ⟨a, ha, words, hwords, rfl⟩
      · exact Or.inr ⟨a, ha, words, hwords, rfl⟩
    · rintro (⟨a, ha, words, hwords, rfl⟩ | ⟨a, ha, words, hwords, rfl⟩)
      · exact ⟨a, ha, words, Or.inl hwords, rfl⟩
      · exact ⟨a, ha, words, Or.inr hwords, rfl⟩

/-- Behind lists of one element the choices from the first part of a list stand before those from
the second. -/
theorem product_append (hfront : ∀ list ∈ front, list.length ≤ 1) :
    product (front ++ (xs ++ ys) :: back) =
      product (front ++ xs :: back) ++ product (front ++ ys :: back) := by
  induction front with
  | nil => exact List.flatMap_append
  | cons first front ih =>
    rw [List.cons_append, List.cons_append, List.cons_append, product, product, product,
      ih fun list hlist => hfront list (List.mem_cons_of_mem _ hlist)]
    match first, hfront first List.mem_cons_self with
    | [], _ => rfl
    | [a], _ => simp only [List.flatMap_cons, List.flatMap_nil, List.append_nil, List.map_append]

end Append

end NestedStyles.Selector
