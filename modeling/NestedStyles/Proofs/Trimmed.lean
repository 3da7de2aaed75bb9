import NestedStyles.Layout

/-!
# Trimmed text

A text that has been trimmed begins and ends with a visible character, if it is not empty, and a
text that does stays as it is (`Text.trim_of_visible`). A section that is trimmed already stands as
it is (`Layout.sections_singleton`).
-/

namespace NestedStyles

namespace Text

/-- The text does not begin with white space. -/
def StartsVisibly (text : List Char) : Prop := ∀ c, text.head? = some c → isSpace c = false

theorem startsVisibly_nil : StartsVisibly [] := by simp [StartsVisibly]

theorem startsVisibly_cons {c : Char} {rest : List Char} :
    StartsVisibly (c :: rest) ↔ isSpace c = false := by
  simp [StartsVisibly]

/-- What stands behind a visible beginning does not matter. -/
theorem StartsVisibly.append {front : List Char} (h : StartsVisibly front) (hne : front ≠ [])
    (rest : List Char) : StartsVisibly (front ++ rest) := by
  cases front with
  | nil => exact absurd rfl hne
  | cons c front => exact startsVisibly_cons.mpr (startsVisibly_cons.mp h)

theorem StartsVisibly.of_front {front text : List Char} (h : StartsVisibly text)
    (hfront : front <+: text) : StartsVisibly front := by
  cases front with
  | nil => exact startsVisibly_nil
  | cons c front =>
    obtain ⟨rest, rfl⟩ := hfront
    exact startsVisibly_cons.mpr (startsVisibly_cons.mp h)

theorem startsVisibly_trimStart (text : List Char) : StartsVisibly (trimStart text) := by
  intro c h
  have := List.head?_dropWhile_not isSpace text
  rw [trimStart] at h
  rw [h] at this
  exact this

theorem trimStart_of_startsVisibly {text : List Char} (h : StartsVisibly text) :
    trimStart text = text := by
  cases text with
  | nil => rfl
  | cons c rest =>
    rw [trimStart, List.dropWhile_cons_of_neg]
    simp [startsVisibly_cons.mp h]

theorem trimEnd_front (text : List Char) : trimEnd text <+: text := by
  rw [trimEnd, ← List.reverse_suffix, List.reverse_reverse]
  exact List.dropWhile_suffix _

/-- A trimmed text begins visibly. -/
theorem startsVisibly_trim (text : List Char) : StartsVisibly (trim text) :=
  (startsVisibly_trimStart text).of_front (trimEnd_front _)

/-- The text does not end with white space. -/
def EndsVisibly (text : List Char) : Prop := StartsVisibly text.reverse

theorem endsVisibly_nil : EndsVisibly [] := startsVisibly_nil

theorem endsVisibly_singleton {c : Char} : EndsVisibly [c] ↔ isSpace c = false :=
  startsVisibly_cons

/-- What stands before a visible end does not matter. -/
theorem EndsVisibly.append {back : List Char} (h : EndsVisibly back) (hne : back ≠ [])
    (front : List Char) : EndsVisibly (front ++ back) := by
  unfold EndsVisibly at *
  rw [List.reverse_append]
  exact h.append (by simpa using hne) _

theorem EndsVisibly.cons {text : List Char} (h : EndsVisibly text) {c : Char}
    (hc : isSpace c = false) : EndsVisibly (c :: text) := by
  by_cases hnil : text = []
  · subst hnil
    exact endsVisibly_singleton.mpr hc
  · exact h.append hnil [c]

theorem EndsVisibly.of_back {back text : List Char} (h : EndsVisibly text)
    (hback : back <:+ text) : EndsVisibly back :=
  StartsVisibly.of_front h (List.reverse_prefix.mpr hback)

theorem trimEnd_of_endsVisibly {text : List Char} (h : EndsVisibly text) : trimEnd text = text := by
  have := trimStart_of_startsVisibly h
  rw [trimStart] at this
  rw [trimEnd, this, List.reverse_reverse]

/-- A text with a visible character at either end is trimmed. -/
theorem trim_of_visible {text : List Char} (hstart : StartsVisibly text)
    (hend : EndsVisibly text) : trim text = text := by
  rw [trim, trimStart_of_startsVisibly hstart, trimEnd_of_endsVisibly hend]

theorem endsVisibly_trimEnd (text : List Char) : EndsVisibly (trimEnd text) := by
  rw [EndsVisibly, trimEnd, List.reverse_reverse]
  exact startsVisibly_trimStart _

/-- A trimmed text ends visibly. -/
theorem endsVisibly_trim (text : List Char) : EndsVisibly (trim text) := endsVisibly_trimEnd _

theorem trimEnd_eq_nil {text : List Char} (h : trimEnd text = []) :
    ∀ c ∈ text, isSpace c = true := by
  rw [trimEnd, List.reverse_eq_nil_iff] at h
  intro c hc
  have hdrop := @List.takeWhile_append_dropWhile _ isSpace text.reverse
  rw [h, List.append_nil] at hdrop
  exact List.all_eq_true.mp List.all_takeWhile c (hdrop.symm ▸ List.mem_reverse.mpr hc)

/-- Nothing is left of white space only. -/
theorem trim_eq_nil {text : List Char} (h : trim text = []) : ∀ c ∈ text, isSpace c = true := by
  intro c hc
  rw [← @List.takeWhile_append_dropWhile _ isSpace text] at hc
  rcases List.mem_append.mp hc with hc | hc
  · exact List.all_eq_true.mp List.all_takeWhile c hc
  · exact trimEnd_eq_nil h c hc

/-- A character is trimmed off the end if it and all that stands behind it is white space. -/
theorem trimEnd_cons (c : Char) (rest : List Char) :
    trimEnd (c :: rest) =
      if isSpace c = true ∧ trimEnd rest = [] then [] else c :: trimEnd rest := by
  simp only [trimEnd, List.reverse_cons, List.dropWhile_append, List.isEmpty_iff,
    List.reverse_eq_nil_iff]
  by_cases hrest : rest.reverse.dropWhile isSpace = []
  · cases hc : isSpace c with
    | true => simp [hrest, hc]
    | false => simp [hrest, hc]
  · simp [hrest]

/-- Either end may be trimmed first. -/
theorem trimStart_trimEnd (text : List Char) : trimStart (trimEnd text) = trim text := by
  induction text with
  | nil => rfl
  | cons c rest ih =>
    rw [trim, trimEnd_cons]
    cases hc : isSpace c with
    | false =>
      have hstart {text : List Char} : StartsVisibly (c :: text) := startsVisibly_cons.mpr hc
      rw [if_neg (by simp), trimStart_of_startsVisibly hstart, trimStart_of_startsVisibly hstart,
        trimEnd_cons, if_neg (by simp [hc])]
    | true =>
      have hdrop (text : List Char) : trimStart (c :: text) = trimStart text :=
        List.dropWhile_cons_of_pos hc
      rw [hdrop, ← trim, ← ih]
      split
      · next h => rw [h.2]
      · exact hdrop _

/-- White space at the start is trimmed off. -/
theorem trim_cons_space {c : Char} (hc : isSpace c = true) (text : List Char) :
    trim (c :: text) = trim text := by
  rw [trim, trim, trimStart, List.dropWhile_cons_of_pos hc]
  rfl

/-- White space at the end is trimmed off. -/
theorem trim_append_space {c : Char} (hc : isSpace c = true) (text : List Char) :
    trim (text ++ [c]) = trim text := by
  rw [← trimStart_trimEnd, ← trimStart_trimEnd, trimEnd, List.reverse_append,
    List.reverse_singleton, List.singleton_append, List.dropWhile_cons_of_pos hc, trimEnd]

theorem trim_sublist (text : List Char) : (trim text).Sublist text :=
  (trimEnd_front _).sublist.trans (List.dropWhile_suffix _).sublist

/-- What joining two texts keeps holds of a row of texts that are joined. -/
theorem intercalate_of {p : String → Prop} {sep : String}
    (hjoin : ∀ {front back}, p front → p back → p (front ++ sep ++ back)) :
    ∀ {texts : List String}, texts ≠ [] → (∀ text ∈ texts, p text) → p (sep.intercalate texts)
  | [], hne, _ => absurd rfl hne
  | [text], _, h => by simpa using h text (by simp)
  | text :: next :: rest, _, h => by
    rw [String.intercalate_cons_cons]
    exact hjoin (h text (by simp)) (intercalate_of hjoin (List.cons_ne_nil next rest)
      fun other hother => h other (by simp [hother]))

end Text

open Text

/-- A text that begins and ends with a visible character. -/
structure IsVisible (s : String) : Prop where
  ne_empty : s ≠ ""
  starts : StartsVisibly s.toList
  ends : EndsVisibly s.toList

theorem IsVisible.trimmed {s : String} (h : IsVisible s) : trimmed s = s := by
  rw [Text.trimmed, trim_of_visible h.starts h.ends, String.ofList_toList]

theorem IsVisible.toList_ne_nil {s : String} (h : IsVisible s) : s.toList ≠ [] :=
  mt String.toList_eq_nil_iff.mp h.ne_empty

/-- Visible texts stay visible when they are joined, whatever stands between them. -/
theorem IsVisible.append {front back : String} (hfront : IsVisible front) (hback : IsVisible back)
    (sep : String) : IsVisible (front ++ sep ++ back) := by
  refine ⟨fun hempty => ?_, ?_, ?_⟩
  · have hnil := congrArg String.toList hempty
    rw [String.toList_append, String.toList_append, List.append_assoc] at hnil
    exact hfront.toList_ne_nil (List.append_eq_nil_iff.mp hnil).1
  · rw [String.toList_append, String.toList_append, List.append_assoc]
    exact hfront.starts.append hfront.toList_ne_nil _
  · rw [String.toList_append]
    exact hback.ends.append hback.toList_ne_nil _

namespace Layout

/-- An empty section leaves no trace. -/
theorem sections_cons_empty (texts : List String) : sections ("" :: texts) = sections texts := by
  have hempty : Text.trimmed "" = "" := by decide
  simp [sections, hempty]

/-- Sections without text leave no trace. -/
theorem sections_filter (texts : List String) :
    sections (texts.filter (· != "")) = sections texts := by
  have hempty : Text.trimmed "" = "" := by decide
  refine congrArg ("\n\n".intercalate ·) ?_
  induction texts with
  | nil => rfl
  | cons text rest ih =>
    by_cases htext : text = ""
    · simpa [htext, hempty] using ih
    · rw [List.filter_cons_of_pos (by simpa using htext), List.map_cons, List.map_cons,
        List.filter_cons, List.filter_cons, ih]

/-- Sections that are trimmed stand as they are. -/
theorem sections_of_trimmed {texts : List String} (h : ∀ text ∈ texts, Text.trimmed text = text) :
    sections texts = "\n\n".intercalate (texts.filter (· != "")) := by
  rw [sections, List.map_congr_left h, List.map_id']

/-- A single section that is trimmed stands as it is. -/
theorem sections_singleton {text : String} (h : Text.trimmed text = text) :
    sections [text] = text := by
  rw [sections_of_trimmed (by simpa using h)]
  by_cases hempty : text = "" <;> simp [hempty]

end Layout

end NestedStyles
