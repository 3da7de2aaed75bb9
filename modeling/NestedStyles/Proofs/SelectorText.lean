import NestedStyles.Proofs.Trimmed
import NestedStyles.Selector.Joined

/-!
# The text of a selector

Words are joined from left to right. Every piece begins with a visible character
(`Selector.startsVisibly_piece`), and so does the selector that the words are joined to
(`Selector.startsVisibly_join`).
-/

namespace NestedStyles.Selector

open Text

theorem startsVisibly_className (word : List Char) : StartsVisibly (className word) :=
  startsVisibly_cons.mpr (by decide)

/-- A piece is not empty and begins with a visible character if its word does. -/
theorem startsVisibly_piece {word text : List Char} {joint : Joint} {kind : Piece}
    (hword : StartsVisibly word) (h : piece? word = some (joint, text, kind)) :
    text ≠ [] ∧ StartsVisibly text := by
  unfold piece? at h
  split at h
  · simp at h
  · obtain ⟨-, rfl, -⟩ := by simpa using h
    exact ⟨by simp, hword⟩
  · split at h
    · simp at h
    · obtain ⟨-, rfl, -⟩ := by simpa using h
      exact ⟨by simp [className], startsVisibly_className _⟩
  · split at h
    · simp at h
    · obtain ⟨-, rfl, -⟩ := by simpa using h
      exact ⟨by simp [className], startsVisibly_className _⟩
  · split at h
    · obtain ⟨-, rfl, -⟩ := by simpa using h
      exact ⟨by simp, startsVisibly_cons.mpr (startsVisibly_cons.mp hword)⟩
    · split at h
      · obtain ⟨-, rfl, -⟩ := by simpa using h
        exact ⟨by simp, hword⟩
      · split at h
        · obtain ⟨-, rfl, -⟩ := by simpa using h
          exact ⟨by simp, hword⟩
        · obtain ⟨-, rfl, -⟩ := by simpa using h
          exact ⟨by simp [className], startsVisibly_className _⟩

namespace Joining

/-- The word that a token stands for. -/
def wordOf (token : List Char) : List Char :=
  if token.head? == some '&' then trimStart token.tail else token

theorem startsVisibly_wordOf {token : List Char} (h : StartsVisibly token) :
    StartsVisibly (wordOf token) := by
  unfold wordOf
  split
  · exact startsVisibly_trimStart _
  · exact h

theorem endsVisibly_wordOf {token : List Char} (h : EndsVisibly token) :
    EndsVisibly (wordOf token) := by
  unfold wordOf
  split
  · exact h.of_back ((List.dropWhile_suffix _).trans (List.tail_suffix _))
  · exact h

/-- A piece stands behind a space, given whether it is marked and what it follows. -/
def apart (joint : Joint) (marked : Bool) (last : Option Piece) : Bool :=
  match joint with
  | .descendant => true
  | .element => marked || last == some .root || last == some .combinator
  | .attached => marked

/-- A word that stands for nothing leaves only its mark. -/
theorem word_of_none {joining : Joining} {token : List Char} (h : piece? (wordOf token) = none) :
    joining.word token = { joining with marked := joining.marked || token.head? == some '&' } := by
  unfold wordOf at h
  unfold word
  simp only [h]

/-- A word that stands for a piece adds it and takes up the mark. -/
theorem word_of_some {joining : Joining} {token piece : List Char} {joint : Joint} {kind : Piece}
    (h : piece? (wordOf token) = some (joint, piece, kind)) :
    joining.word token =
      { text := if apart joint (joining.marked || token.head? == some '&') joining.last then
          descend joining.text piece else joining.text ++ piece
        last := some kind
        marked := false } := by
  unfold wordOf at h
  unfold word
  simp only [h]
  cases joint <;> rfl

theorem startsVisibly_descend {text piece : List Char} (htext : StartsVisibly text)
    (hpiece : StartsVisibly piece) : StartsVisibly (descend text piece) := by
  unfold descend
  cases text with
  | nil => simpa using hpiece
  | cons c rest => split <;> exact htext.append (by simp) _

theorem startsVisibly_append {text piece : List Char} (htext : StartsVisibly text)
    (hpiece : StartsVisibly piece) : StartsVisibly (text ++ piece) := by
  cases text with
  | nil => exact hpiece
  | cons c rest => exact htext.append (by simp) _

/-- Joining a word keeps the beginning of the selector visible. -/
theorem startsVisibly_word {joining : Joining} {token : List Char}
    (hjoining : StartsVisibly joining.text) (htoken : StartsVisibly token) :
    StartsVisibly (joining.word token).text := by
  cases hword : piece? (wordOf token) with
  | none =>
    rw [word_of_none hword]
    exact hjoining
  | some found =>
    obtain ⟨joint, piece, kind⟩ := found
    obtain ⟨-, hvisible⟩ := startsVisibly_piece (startsVisibly_wordOf htoken) hword
    rw [word_of_some hword]
    dsimp only
    split
    · exact startsVisibly_descend hjoining hvisible
    · exact startsVisibly_append hjoining hvisible

end Joining

theorem startsVisibly_words (words : List String) {joining : Joining}
    (h : StartsVisibly joining.text) :
    StartsVisibly (words.foldl (fun j w => j.word (trim w.toList)) joining).text := by
  induction words generalizing joining with
  | nil => exact h
  | cons word rest ih => exact ih (Joining.startsVisibly_word h (startsVisibly_trim _))

/-- A selector begins with a visible character. -/
theorem startsVisibly_join (words : List String) : StartsVisibly (join words).toList := by
  have h := @startsVisibly_words words Joining.start startsVisibly_nil
  rw [join, String.toList_ofList]
  exact h.of_front (trimEnd_front _)

/-- The selectors of a path are not empty and begin with a visible character. -/
theorem startsVisibly_of_mem_ofPath {keys : List String} {s : String} (h : s ∈ ofPath keys) :
    s ≠ "" ∧ StartsVisibly s.toList := by
  simp only [ofPath, List.mem_eraseDups, List.mem_filter, List.mem_map] at h
  obtain ⟨⟨words, -, rfl⟩, hne⟩ := h
  exact ⟨by simpa using hne, startsVisibly_join words⟩

end NestedStyles.Selector
