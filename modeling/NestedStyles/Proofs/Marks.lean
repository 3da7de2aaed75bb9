import NestedStyles.Proofs.Behind
import NestedStyles.Proofs.Choices
import NestedStyles.Proofs.ModeLeaves

/-!
# Marked keys

Every time that a block is filed for a mode, the first key above it that is not blank is marked as a
descendant. Keys that have been marked stay different when they are marked again
(`Selector.apart_isMark`). A key selects if one of its alternatives stands for something
(`Selector.Selects`), and then every path with the key has a selector
(`Selector.Selects.ofPath_ne_nil`). `Selector.Matches` relates the key of an automatic mode to the
key of the mode: what makes a difference below the one makes the same below the other.
-/

namespace NestedStyles.Selector

open Text Joining

/-! ## Marks -/

/-- The key as it stands below another selector: marked as a descendant, unless it is blank. -/
def mark (key : String) : String := if isBlank key then key else asDescendant key

/-- The key marked `n` times. -/
def marks : (n : Nat) → String → String
  | 0, key => key
  | n + 1, key => mark (marks n key)

/-- A key that is blank or has been marked. -/
def IsMark (key : String) : Prop := isBlank key = true ∨ ∃ k, key = asDescendant k

/-- Keys that are no at-rules and that marking keeps apart. -/
structure Apart (c : String → Prop) : Prop where
  plain : ∀ key, c key → isAtKey key = false
  injective : ∀ key other, c key → c other → mark key = mark other → key = other

theorem mark_of_blank {key : String} (h : isBlank key = true) : mark key = key := if_pos h

theorem mark_of_visible {key : String} (h : isBlank key = false) : mark key = asDescendant key :=
  if_neg (by simp [h])

theorem isBlank_of_alternatives {key : String} (h : alternatives key ≠ []) :
    isBlank key = false :=
  Bool.eq_false_iff.mpr fun hblank => h (alternatives_of_isBlank hblank)

theorem alternatives_asDescendant_ne_nil {key : String} (h : alternatives key ≠ []) :
    alternatives (asDescendant key) ≠ [] := by
  rw [alternatives_asDescendant]
  simpa using h

/-- A marked key is blank exactly if there is nothing in the key to be marked. -/
theorem alternatives_ne_nil_of_asDescendant {key : String}
    (h : isBlank (asDescendant key) = false) : alternatives key ≠ [] := by
  intro hnil
  rw [asDescendant, hnil] at h
  exact absurd h (by decide)

/-- Marked keys have the same alternatives only if the keys do. -/
theorem alternatives_inj {key other : String}
    (h : alternatives (asDescendant key) = alternatives (asDescendant other)) :
    alternatives key = alternatives other := by
  rw [alternatives_asDescendant, alternatives_asDescendant] at h
  refine (List.map_inj_right fun a b hab => ?_).mp h
  have htext := congrArg String.toList hab
  rw [String.toList_append, String.toList_append] at htext
  exact String.toList_inj.mp (List.append_cancel_left htext)

/-- Keys with the same alternatives have the same mark, and the other way round. -/
theorem asDescendant_inj {key other : String} :
    asDescendant key = asDescendant other ↔ alternatives key = alternatives other :=
  ⟨fun h => alternatives_inj (congrArg alternatives h), fun h => by
    rw [asDescendant, asDescendant, h]⟩

/-- Keys that are marked alike have the same alternatives. -/
theorem alternatives_of_mark {key other : String} (h : mark key = mark other) :
    alternatives key = alternatives other := by
  have hnil {key other : String} (hkey : isBlank key = true) (h : key = asDescendant other) :
      alternatives key = alternatives other := by
    have hkey := alternatives_of_isBlank hkey
    have hother := alternatives_asDescendant other
    rw [← h, hkey] at hother
    rw [hkey, List.map_eq_nil_iff.mp hother.symm]
  cases hkey : isBlank key with
  | true =>
    rw [mark_of_blank hkey] at h
    cases hother : isBlank other with
    | true => rw [alternatives_of_isBlank hkey, alternatives_of_isBlank hother]
    | false => exact hnil hkey (h.trans (mark_of_visible hother))
  | false =>
    rw [mark_of_visible hkey] at h
    cases hother : isBlank other with
    | true => exact (hnil hother (h.trans (mark_of_blank hother)).symm).symm
    | false => exact asDescendant_inj.mp (h.trans (mark_of_visible hother))

/-- Marking keeps keys apart that have been marked before. -/
theorem apart_isMark : Apart IsMark where
  plain key h := by
    rcases h with hblank | ⟨k, rfl⟩
    · cases hat : isAtKey key with
      | false => rfl
      | true =>
        rw [isAtKey, beginsWith, List.isPrefixOf_iff_prefix] at hat
        have hmem : '@' ∈ key.toList := hat.subset (by decide)
        exact absurd (List.all_eq_true.mp hblank _ hmem) (by decide)
    · exact StyleTree.isAtKey_asDescendant k
  injective key other hkey hother h := by
    have hvisible {key : String} (hkey : IsMark key) (hblank : isBlank key = false) :
        alternatives key ≠ [] := by
      rcases hkey with hkey | ⟨k, rfl⟩
      · exact absurd (hkey.symm.trans hblank) (by simp)
      · exact alternatives_asDescendant_ne_nil (alternatives_ne_nil_of_asDescendant hblank)
    have hapart {key other : String} (hother : IsMark other) (hkey : isBlank key = true)
        (hblank : isBlank other = false) : mark key ≠ mark other := by
      intro h
      rw [mark_of_blank hkey, mark_of_visible hblank] at h
      have hne :=
        isBlank_of_alternatives (alternatives_asDescendant_ne_nil (hvisible hother hblank))
      rw [← h, hkey] at hne
      exact absurd hne (by simp)
    cases hk : isBlank key with
    | true =>
      cases ho : isBlank other with
      | true => rwa [mark_of_blank hk, mark_of_blank ho] at h
      | false => exact absurd h (hapart hother hk ho)
    | false =>
      cases ho : isBlank other with
      | true => exact absurd h.symm (hapart hkey ho hk)
      | false =>
        rw [mark_of_visible hk, mark_of_visible ho, asDescendant_inj] at h
        rcases hkey with hkey | ⟨k, rfl⟩
        · exact absurd (hkey.symm.trans hk) (by simp)
        rcases hother with hother | ⟨l, rfl⟩
        · exact absurd (hother.symm.trans ho) (by simp)
        exact asDescendant_inj.mpr (alternatives_inj h)

/-! ## The first key that is marked -/

theorem markFirst_cons (key : String) (keys : List String) :
    markFirst (key :: keys) =
      if isBlank key then key :: markFirst keys else asDescendant key :: keys := by
  cases hblank : isBlank key with
  | true =>
    rw [markFirst, markFirst, List.dropWhile_cons_of_pos hblank, List.takeWhile_cons_of_pos hblank]
    cases keys.dropWhile isBlank <;> rfl
  | false =>
    have hneg : ¬ isBlank key = true := by simp [hblank]
    rw [markFirst, List.dropWhile_cons_of_neg hneg, List.takeWhile_cons_of_neg hneg]
    rfl

/-! ## Keys that select -/

/-- An alternative of the key stands for a piece of a selector. -/
def Selects (key : String) : Prop := ∃ a ∈ alternatives key, piece? (wordOf a.toList) ≠ none

theorem Selects.alternatives_ne_nil {key : String} (h : Selects key) : alternatives key ≠ [] := by
  obtain ⟨a, ha, -⟩ := h
  exact List.ne_nil_of_mem ha

theorem piece?_of_mark (rest : List Char) : piece? ('&' :: rest) ≠ none := by
  by_cases htag : startsWithTag ('&' :: rest) = true
  · simp [piece?, htag]
  · simp [piece?, htag]

/-- A key that selects does so when it is marked. -/
theorem Selects.asDescendant {key : String} (h : Selects key) : Selects (asDescendant key) := by
  obtain ⟨a, ha, hpiece⟩ := h
  have hvisible := (isAlternative_of_mem ha).visible.starts
  refine ⟨"& " ++ a, by rw [alternatives_asDescendant]; exact List.mem_map_of_mem ha, ?_⟩
  have hword : wordOf ("& " ++ a).toList = a.toList := by
    rw [String.toList_append]
    exact (trimStart_of_startsVisibly hvisible)
  rw [hword]
  by_cases hmark : a.toList.head? = some '&'
  · obtain ⟨c, rest, hlist⟩ := List.exists_cons_of_ne_nil
      (isAlternative_of_mem ha).visible.toList_ne_nil
    rw [hlist, List.head?_cons, Option.some.injEq] at hmark
    rw [hlist, hmark]
    exact piece?_of_mark rest
  · rwa [wordOf, if_neg (by simpa using hmark)] at hpiece

/-- A key that stands for a selector selects. -/
theorem selects_of_ofPath {key : String} (h : ofPath [key] ≠ []) : Selects key := by
  refine Classical.byContradiction fun hnot => h ?_
  have hnone : ∀ a ∈ alternatives key, join [a] = "" := by
    intro a ha
    have hpiece : piece? (wordOf (trim a.toList)) = none := by
      rw [trim_of_visible (isAlternative_of_mem ha).visible.starts
        (isAlternative_of_mem ha).visible.ends]
      exact Classical.byContradiction fun hpiece => hnot ⟨a, ha, hpiece⟩
    rw [join_eq_empty_iff, List.forall_mem_singleton, isSkipped, ← piece?_eq_none_iff]
    exact hpiece
  rw [ofPath_eq_filter_joined, List.filter_eq_nil_iff]
  intro s hs
  rw [joined, List.mem_eraseDups, List.mem_map] at hs
  obtain ⟨words, hwords, rfl⟩ := hs
  by_cases halternatives : alternatives key = []
  · rw [choices, List.map_singleton, halternatives] at hwords
    obtain rfl : words = [] := by simpa [product] using hwords
    decide
  · rw [choices_cons halternatives] at hwords
    obtain ⟨a, ha, rfl⟩ : ∃ a ∈ alternatives key, words = [a] := by
      simpa [product, choices] using hwords
    rw [hnone a ha]
    simp

/-- A path with a key that selects has a selector. -/
theorem Selects.ofPath_ne_nil {key : String} (h : Selects key) {keys : List String}
    (hkey : key ∈ keys) : ofPath keys ≠ [] := by
  obtain ⟨a, ha, hpiece⟩ := h
  have hchoices : alternatives key ∈ choices keys :=
    List.mem_filter.mpr ⟨List.mem_map_of_mem hkey, by simpa using List.ne_nil_of_mem ha⟩
  obtain ⟨words, hwords, hmem⟩ := exists_mem_product
    (fun choice hchoice => by simpa using (List.mem_filter.mp hchoice).2) hchoices ha
  have hvisible := (isAlternative_of_mem ha).visible
  have hjoin : join words ≠ "" := fun hempty => hpiece <| by
    have hskipped := join_eq_empty_iff.mp hempty a hmem
    rwa [isSkipped, trim_of_visible hvisible.starts hvisible.ends, ← piece?_eq_none_iff] at hskipped
  rw [ofPath_eq_filter_joined]
  refine List.ne_nil_of_mem (List.mem_filter.mpr ⟨?_, by simpa using hjoin⟩)
  rw [joined, List.mem_eraseDups]
  exact List.mem_map_of_mem hwords

/-! ## Keys that stand for each other -/

/-- Both keys are blank, or the first one selects and the second one has an alternative. -/
def Matches (key other : String) : Prop :=
  isBlank key = true ∧ isBlank other = true ∨ Selects key ∧ alternatives other ≠ []

namespace Matches

variable {key other : String} (h : Matches key other)

include h

theorem isBlank_eq : isBlank key = isBlank other := by
  rcases h with ⟨hkey, hother⟩ | ⟨hkey, hother⟩
  · rw [hkey, hother]
  · rw [isBlank_of_alternatives hkey.alternatives_ne_nil, isBlank_of_alternatives hother]

theorem mark : Matches (mark key) (mark other) := by
  rcases h with ⟨hkey, hother⟩ | ⟨hkey, hother⟩
  · rw [mark_of_blank hkey, mark_of_blank hother]
    exact Or.inl ⟨hkey, hother⟩
  · rw [mark_of_visible (isBlank_of_alternatives hkey.alternatives_ne_nil),
      mark_of_visible (isBlank_of_alternatives hother)]
    exact Or.inr ⟨hkey.asDescendant, alternatives_asDescendant_ne_nil hother⟩

theorem marks (n : Nat) : Matches (marks n key) (marks n other) := by
  induction n with
  | zero => exact h
  | succ n ih => exact ih.mark

/-- A path has no selector with the second key if it has none with the first. -/
theorem ofPath_eq_nil {before after : List String} (hnone : ofPath (before ++ key :: after) = []) :
    ofPath (before ++ other :: after) = [] := by
  rcases h with ⟨hkey, hother⟩ | ⟨hkey, -⟩
  · have hchoices {k : String} (hk : isBlank k = true) :
        choices (before ++ k :: after) = choices before ++ choices after := by
      rw [choices_append, ← List.singleton_append, choices_append,
        @choices_of_blank [k] (by simpa using hk), List.nil_append]
    rw [ofPath_eq_filter_joined, joined, hchoices hkey] at hnone
    rwa [ofPath_eq_filter_joined, joined, hchoices hother]
  · exact absurd hnone (hkey.ofPath_ne_nil (by simp))

end Matches

end NestedStyles.Selector
