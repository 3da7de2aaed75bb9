import NestedStyles.Proofs.Trimmed
import NestedStyles.Selector.Alternatives

/-!
# Alternatives of a key

The alternatives of a key are trimmed, not empty and without commas
(`Selector.isAlternative_of_mem`), so that the alternatives of a marked key are the marked
alternatives of the key (`Selector.alternatives_asDescendant`).
-/

namespace NestedStyles.Selector

open Text

/-- The form of an alternative. -/
structure IsAlternative (a : String) : Prop where
  visible : IsVisible a
  no_comma : ',' ∉ a.toList

theorem not_mem_of_mem_splitOn {sep : Char} {piece : List Char} :
    ∀ {text : List Char}, piece ∈ text.splitOn sep → sep ∉ piece
  | [], h => by
    rw [List.splitOn_nil, List.mem_singleton] at h
    simp [h]
  | c :: text, h => by
    rw [List.splitOn_cons_eq_if_modifyHead] at h
    split at h
    · rcases List.mem_cons.mp h with rfl | h
      · simp
      · exact not_mem_of_mem_splitOn h
    · next hc =>
      have hne : sep ≠ c := fun heq => hc (by simp [heq])
      obtain ⟨first, rest, hsplit⟩ := List.exists_cons_of_ne_nil (List.splitOn_ne_nil sep text)
      rw [hsplit, List.modifyHead_cons] at h
      rcases List.mem_cons.mp h with rfl | h
      · have hfirst : sep ∉ first := @not_mem_of_mem_splitOn sep first text (by simp [hsplit])
        simp [hne, hfirst]
      · exact @not_mem_of_mem_splitOn sep piece text (by simp [hsplit, h])

/-- The pieces of a text have no other characters. -/
theorem mem_of_mem_splitOn {sep c : Char} {piece : List Char} :
    ∀ {text : List Char}, piece ∈ text.splitOn sep → c ∈ piece → c ∈ text
  | [], h, hc => by
    rw [List.splitOn_nil, List.mem_singleton] at h
    exact h ▸ hc
  | d :: text, h, hc => by
    rw [List.splitOn_cons_eq_if_modifyHead] at h
    split at h
    · rcases List.mem_cons.mp h with rfl | h
      · exact absurd hc (by simp)
      · exact List.mem_cons_of_mem _ (mem_of_mem_splitOn h hc)
    · obtain ⟨first, rest, hsplit⟩ := List.exists_cons_of_ne_nil (List.splitOn_ne_nil sep text)
      rw [hsplit, List.modifyHead_cons] at h
      rcases List.mem_cons.mp h with rfl | h
      · rcases List.mem_cons.mp hc with rfl | hc
        · exact List.mem_cons_self
        · exact List.mem_cons_of_mem _ (mem_of_mem_splitOn (hsplit ▸ List.mem_cons_self) hc)
      · exact List.mem_cons_of_mem _
          (mem_of_mem_splitOn (hsplit ▸ List.mem_cons_of_mem _ h) hc)

/-- A character that does not separate stands in one of the pieces. -/
theorem exists_mem_splitOn {sep c : Char} (hc : c ≠ sep) :
    ∀ {text : List Char}, c ∈ text → ∃ piece ∈ text.splitOn sep, c ∈ piece
  | d :: text, h => by
    rw [List.splitOn_cons_eq_if_modifyHead]
    obtain ⟨first, rest, hsplit⟩ := List.exists_cons_of_ne_nil (List.splitOn_ne_nil sep text)
    split
    · next hd =>
      have hne : c ≠ d := fun heq => hc (by simpa [heq] using hd)
      obtain ⟨piece, hpiece, hmem⟩ := exists_mem_splitOn hc ((List.mem_cons.mp h).resolve_left hne)
      exact ⟨piece, List.mem_cons_of_mem _ hpiece, hmem⟩
    · rw [hsplit, List.modifyHead_cons]
      rcases List.mem_cons.mp h with rfl | h
      · exact ⟨_, List.mem_cons_self, List.mem_cons_self⟩
      · obtain ⟨piece, hpiece, hmem⟩ := exists_mem_splitOn hc h
        rw [hsplit] at hpiece
        rcases List.mem_cons.mp hpiece with rfl | hpiece
        · exact ⟨_, List.mem_cons_self, List.mem_cons_of_mem _ hmem⟩
        · exact ⟨piece, List.mem_cons_of_mem _ hpiece, hmem⟩

/-- An alternative is trimmed, not empty and without commas. -/
theorem isAlternative_of_mem {key a : String} (h : a ∈ alternatives key) : IsAlternative a := by
  obtain ⟨piece, hpiece, ha⟩ := List.mem_filterMap.mp h
  obtain ⟨raw, hraw, rfl⟩ := List.mem_map.mp hpiece
  split at ha
  · simp at ha
  · next hne =>
    obtain rfl := Option.some.inj ha
    have htext : (String.ofList (trim raw)).toList = trim raw := String.toList_ofList
    refine ⟨⟨fun hempty => hne ?_, ?_, ?_⟩, ?_⟩
    · rw [hempty] at htext
      rw [← htext]
      rfl
    · rw [htext]
      exact startsVisibly_trim raw
    · rw [htext]
      exact endsVisibly_trim raw
    · rw [htext]
      exact fun hcomma => not_mem_of_mem_splitOn hraw ((trim_sublist raw).mem hcomma)

/-- Some character of the key is neither white space nor a comma. -/
def isSpelled (key : String) : Bool := key.toList.any fun c => !isSpace c && c != ','

/-- A key of more than white space and commas has an alternative. -/
theorem alternatives_ne_nil {key : String} (h : isSpelled key = true) : alternatives key ≠ [] := by
  obtain ⟨c, hmem, hc⟩ := List.any_eq_true.mp h
  rw [Bool.and_eq_true, Bool.not_eq_true', bne_iff_ne] at hc
  obtain ⟨piece, hpiece, hcpiece⟩ := exists_mem_splitOn hc.2 hmem
  have hne : trim piece ≠ [] := fun hnil =>
    absurd (trim_eq_nil hnil c hcpiece) (Bool.eq_false_iff.mp hc.1)
  have halternative : String.ofList (trim piece) ∈ alternatives key := by
    refine List.mem_filterMap.mpr ⟨_, List.mem_map.mpr ⟨_, hpiece, rfl⟩, ?_⟩
    rw [if_neg (by simpa using hne)]
  exact List.ne_nil_of_mem halternative

theorem isBlank_of_isSpelled {key : String} (h : isSpelled key = true) : isBlank key = false := by
  obtain ⟨c, hmem, hc⟩ := List.any_eq_true.mp h
  rw [Bool.and_eq_true, Bool.not_eq_true'] at hc
  exact Bool.eq_false_iff.mpr fun hblank =>
    absurd (List.all_eq_true.mp hblank c hmem) (Bool.eq_false_iff.mp hc.1)

/-- The alternatives that the pieces between commas leave. -/
theorem alternatives_of_splitOn {key : String} {pieces : List (List Char)}
    (h : key.toList.splitOn ',' = pieces) : alternatives key =
      (pieces.map trim).filterMap fun a => if a.isEmpty then none else some (String.ofList a) := by
  rw [alternatives, h]

/-- A text without commas is its own alternative, if it is not blank. -/
theorem alternatives_of_no_comma {key : String} (hcomma : ',' ∉ key.toList) :
    alternatives key = if trim key.toList = [] then [] else [trimmed key] := by
  rw [alternatives_of_splitOn (List.splitOn_eq_singleton hcomma)]
  by_cases h : trim key.toList = []
  · simp [h]
  · simp [h, trimmed]

theorem alternatives_of_isBlank {key : String} (h : isBlank key = true) :
    alternatives key = [] := by
  have hspace : ∀ c ∈ key.toList, isSpace c = true := List.all_eq_true.mp h
  have hcomma : ',' ∉ key.toList := fun hc => absurd (hspace _ hc) (by decide)
  rw [alternatives_of_no_comma hcomma]
  cases htrim : trim key.toList with
  | nil => rfl
  | cons c rest =>
    have hc : c ∈ key.toList := (trim_sublist _).mem (htrim ▸ List.mem_cons_self)
    have hvisible := startsVisibly_trim key.toList
    rw [htrim, startsVisibly_cons, hspace c hc] at hvisible
    exact absurd hvisible (by simp)

/-- White space at the start does not change the alternatives. -/
theorem map_trim_splitOn_space (text : List Char) :
    ((' ' :: text).splitOn ',').map trim = (text.splitOn ',').map trim := by
  obtain ⟨first, rest, hsplit⟩ := List.exists_cons_of_ne_nil (List.splitOn_ne_nil ',' text)
  have htrim : trim (' ' :: first) = trim first := trim_cons_space (by decide) first
  rw [List.splitOn_cons_eq_if_modifyHead, if_neg (by decide), hsplit, List.modifyHead_cons,
    List.map_cons, List.map_cons, htrim]

/-- Alternatives with a comma and a space between them are those of the text. -/
theorem alternatives_intercalate : ∀ {list : List String}, (∀ a ∈ list, IsAlternative a) →
    alternatives (", ".intercalate list) = list
  | [], _ => by decide
  | [a], h => by
    obtain ⟨hvisible, hcomma⟩ := h a (by simp)
    have htrim : trim a.toList ≠ [] := by
      rw [trim_of_visible hvisible.starts hvisible.ends]
      exact hvisible.toList_ne_nil
    rw [String.intercalate_singleton, alternatives_of_no_comma hcomma, if_neg htrim,
      hvisible.trimmed]
  | a :: b :: rest, h => by
    obtain ⟨hvisible, hcomma⟩ := h a (by simp)
    have ih := @alternatives_intercalate (b :: rest) fun x hx => h x (by simp [hx])
    have htext : (", ".intercalate (a :: b :: rest)).toList =
        a.toList ++ ',' :: ' ' :: (", ".intercalate (b :: rest)).toList := by
      rw [String.intercalate_cons_cons, String.toList_append, String.toList_append,
        List.append_assoc]
      rfl
    have ha : trim a.toList = a.toList := trim_of_visible hvisible.starts hvisible.ends
    rw [alternatives, htext, List.splitOn_append_cons_self_of_not_mem hcomma, List.map_cons,
      map_trim_splitOn_space, List.filterMap_cons, ha]
    have hne : a.toList.isEmpty = false := by
      simpa using hvisible.toList_ne_nil
    rw [hne, if_neg (by simp), String.ofList_toList]
    exact congrArg (a :: ·) ih

/-- An alternative marked as a descendant is an alternative. -/
theorem IsAlternative.marked {a : String} (h : IsAlternative a) : IsAlternative ("& " ++ a) := by
  have htext : ("& " ++ a).toList = '&' :: ' ' :: a.toList := String.toList_append
  refine ⟨⟨fun hempty => ?_, ?_, ?_⟩, ?_⟩
  · rw [hempty] at htext
    exact absurd htext (by simp)
  · rw [htext]
    exact startsVisibly_cons.mpr (by decide)
  · rw [htext]
    exact h.visible.ends.append h.visible.toList_ne_nil ['&', ' ']
  · rw [htext]
    simpa using h.no_comma

/-- The alternatives of a marked key are the marked alternatives of the key. -/
theorem alternatives_asDescendant (key : String) :
    alternatives (asDescendant key) = (alternatives key).map ("& " ++ ·) := by
  refine alternatives_intercalate fun a ha => ?_
  obtain ⟨b, hb, rfl⟩ := List.mem_map.mp ha
  exact (isAlternative_of_mem hb).marked

/-- A marked key begins with its mark, if it has any alternative. -/
theorem asDescendant_eq (key : String) :
    asDescendant key = "" ∨ ∃ rest, asDescendant key = "& " ++ rest := by
  unfold asDescendant
  cases alternatives key with
  | nil => exact Or.inl rfl
  | cons a rest =>
    cases rest with
    | nil => exact Or.inr ⟨a, String.intercalate_singleton⟩
    | cons b rest =>
      refine Or.inr ⟨a ++ (", " ++ ", ".intercalate ((b :: rest).map ("& " ++ ·))), ?_⟩
      rw [List.map_cons, List.map_cons, String.intercalate_cons_cons, String.append_assoc,
        String.append_assoc]

end NestedStyles.Selector
