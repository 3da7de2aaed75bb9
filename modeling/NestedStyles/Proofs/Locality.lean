import NestedStyles.Proofs.VisibleEnd

/-!
# What later words add

A word that is not skipped has a kind: how it is joined to what stands before it, and what it is to
the word behind it. What stands between two such words is read off a table of their kinds
(`Selector.gap`), and a selector is what its words read alone, with these gaps between them
(`Selector.join_eq_added`). So what words add behind a word that is not skipped does not depend on
the words before it (`Selector.join_local`).
-/

namespace NestedStyles.Selector

open Text

/-! ## Words one after another -/

namespace Joining

/-- Joins words one after another. -/
def run (joining : Joining) (words : List String) : Joining :=
  words.foldl (fun joining word => joining.word (trim word.toList)) joining

theorem run_cons (joining : Joining) (word : String) (words : List String) :
    joining.run (word :: words) = (joining.word (trim word.toList)).run words := rfl

/-- The text with the space that a descendant stands behind. -/
def lead (text : List Char) : List Char :=
  if text.isEmpty || text.getLast? == some ' ' then text else text ++ [' ']

theorem descend_eq (text piece : List Char) : descend text piece = lead text ++ piece := by
  unfold descend lead
  split
  · rfl
  · rw [List.append_assoc]
    rfl

end Joining

open Joining

/-! ## How a selector ends -/

/-- Joining a word ends the selector in its piece. -/
theorem EndsAs.word {joining : Joining} {token : List Char}
    (h : EndsAs joining.last joining.text) (hend : EndsVisibly token) :
    EndsAs (joining.word token).last (joining.word token).text := by
  cases hpiece : piece? (wordOf token) with
  | none =>
    rw [word_of_none hpiece]
    exact h
  | some found =>
    obtain ⟨joint, piece, kind⟩ := found
    have hpieceEnd := ends_piece (endsVisibly_wordOf hend) hpiece
    rw [word_of_some hpiece]
    dsimp only
    split
    · rw [descend_eq]
      exact hpieceEnd.append _
    · exact hpieceEnd.append _

/-- A selector that is being joined ends in its last piece. -/
theorem endsAs_run (words : List String) :
    EndsAs (start.run words).last (start.run words).text := by
  unfold run
  refine List.foldlRecOn words _
    (motive := fun joining : Joining => EndsAs joining.last joining.text)
    EndsAs.nothing fun joining h word _ => ?_
  exact h.word (endsVisibly_trim _)

theorem lead_of_visible {text : List Char} (h : EndsVisibly text) (hne : text ≠ []) :
    lead text = text ++ [' '] := by
  have hlast : text.getLast? ≠ some ' ' := by
    intro hlast
    rw [← List.head?_reverse] at hlast
    exact absurd (h ' ' hlast) (by decide)
  simp [lead, hne, hlast]

theorem trimEnd_combinator (front : List Char) {c : Char} (hc : isSpace c = false) :
    trimEnd (front ++ [c, ' ']) = front ++ [c] := by
  have hspace : isSpace ' ' = true := by decide
  simp [trimEnd, hc, hspace]

theorem trimEnd_append {piece : List Char} (hne : piece ≠ []) (hvisible : StartsVisibly piece)
    (front : List Char) :
    trimEnd (front ++ piece) = front ++ trimEnd piece ∧ trimEnd piece ≠ [] := by
  obtain ⟨c, rest, rfl⟩ := List.exists_cons_of_ne_nil hne
  have hc : isSpace c = false := startsVisibly_cons.mp hvisible
  have hpiece : trimEnd (c :: rest) ≠ [] := by simp [trimEnd_cons, hc]
  refine ⟨?_, hpiece⟩
  induction front with
  | nil => rfl
  | cons d front ih =>
    rw [List.cons_append, trimEnd_cons, ih, if_neg (by simp [hpiece]), List.cons_append]

theorem join_eq_run (words : List String) :
    join words = String.ofList (trimEnd (start.run words).text) := rfl

/-! ## Kinds of words -/

/-- The word is left out: without white space around it and without its mark it is empty, `_` or
`__`. -/
def isSkipped (word : String) : Bool :=
  [[], ['_'], ['_', '_']].contains (wordOf (trim word.toList))

/-- The word marks the next piece as a descendant. -/
def isMarking (word : String) : Bool := (trim word.toList).head? == some '&'

/-- How a word is joined to what stands before it, and what it is to the word behind it. -/
def kind? (word : String) : Option (Joint × Piece) :=
  (piece? (wordOf (trim word.toList))).map fun piece => (piece.1, piece.2.2)

theorem piece?_eq_none_iff {word : List Char} :
    piece? word = none ↔ [[], ['_'], ['_', '_']].contains word = true := by
  unfold piece?
  split
  · simp
  · simp
  · next name =>
    cases name with
    | nil => simp
    | cons c rest => simp
  · next name hname =>
    cases name with
    | nil => simp
    | cons c rest => simpa using fun hc _ => hname _ (by rw [hc])
  · next c rest hstar hname hscore =>
    have hc : c ≠ '_' := fun hc => hscore hc
    split
    · simp [hc]
    · split
      · simp [hc]
      · split
        · simp [hc]
        · simp [hc]

/-- Words that are skipped have no kind. -/
theorem isSkipped_iff {word : String} : isSkipped word = true ↔ kind? word = none := by
  rw [kind?, Option.map_eq_none_iff, piece?_eq_none_iff, isSkipped]

/-! ## The table of gaps -/

/-- What stands between a piece, if there is one, and a word behind it. -/
def gap : Option Piece → Joint → Bool → String
  | none, _, _ => ""
  | some .combinator, _, _ => " "
  | some _, .descendant, _ => " "
  | some .root, .element, _ => " "
  | some .compound, .element, marked => if marked then " " else ""
  | some _, .attached, marked => if marked then " " else ""

/-- What words add to a selector that ends in the given piece, if it has one, and in a mark or not:
each word that is not skipped adds what it reads alone, behind the gap of the table. -/
def added (last : Option Piece) (marked : Bool) : List String → String
  | [] => ""
  | word :: words =>
    match kind? word with
    | none => added last (marked || isMarking word) words
    | some (joint, piece) =>
      gap last joint (marked || isMarking word) ++ join [word] ++ added (some piece) false words

/-- Behind a piece that ends visibly there is a gap where the next one stands apart. -/
theorem gap_of_visible {kind : Piece} (h : kind ≠ .combinator) (joint : Joint) (marked : Bool) :
    gap (some kind) joint marked = if apart joint marked (some kind) then " " else "" := by
  cases kind with
  | combinator => exact absurd rfl h
  | root => cases joint <;> cases marked <;> rfl
  | compound => cases joint <;> cases marked <;> rfl

/-- Behind a piece that is marked every word stands apart. -/
theorem gap_marked (kind : Piece) (joint : Joint) : gap (some kind) joint true = " " := by
  cases kind <;> cases joint <;> rfl

/-- A word adds the gap of the table and its piece to the selector so far. -/
theorem trimEnd_word {joining : Joining} (h : EndsAs joining.last joining.text)
    {token piece : List Char} {joint : Joint} {kind : Piece} (hvisible : StartsVisibly token)
    (hpiece : piece? (wordOf token) = some (joint, piece, kind)) :
    trimEnd (joining.word token).text = trimEnd joining.text ++
      (gap joining.last joint (joining.marked || token.head? == some '&')).toList ++
        trimEnd piece := by
  obtain ⟨hne, hstart⟩ := startsVisibly_piece (startsVisibly_wordOf hvisible) hpiece
  have htrim (front : List Char) := (trimEnd_append hne hstart front).1
  obtain ⟨text, last, marked⟩ := joining
  rw [word_of_some hpiece]
  dsimp only at h ⊢
  cases h with
  | nothing => split <;> rfl
  | @combinator front c hc =>
    have hlead : lead (front ++ [c, ' ']) = front ++ [c, ' '] := by simp [lead]
    rw [descend_eq, hlead, ite_self, htrim, trimEnd_combinator front hc]
    simp [gap]
  | @visible last hkind text htext hend =>
    rw [gap_of_visible hkind, trimEnd_of_endsVisibly hend]
    split
    · rw [descend_eq, lead_of_visible hend htext, htrim]
      rfl
    · rw [htrim]
      simp

/-- What a word that is not skipped reads alone is its piece. -/
theorem join_singleton {word : String} {piece : List Char} {joint : Joint} {kind : Piece}
    (hpiece : piece? (wordOf (trim word.toList)) = some (joint, piece, kind)) :
    join [word] = String.ofList (trimEnd piece) := by
  have htext := @trimEnd_word start EndsAs.nothing _ _ _ _ (startsVisibly_trim _) hpiece
  rw [join_eq_run, run_cons]
  exact congrArg String.ofList htext

theorem join_singleton_ne {word : String} (h : kind? word ≠ none) : join [word] ≠ "" := by
  have hpiece : piece? (wordOf (trim word.toList)) ≠ none := mt Option.map_eq_none_iff.mpr h
  obtain ⟨⟨joint, piece, kind⟩, hpiece⟩ := Option.ne_none_iff_exists'.mp hpiece
  obtain ⟨hne, hstart⟩ := startsVisibly_piece (startsVisibly_wordOf (startsVisibly_trim _)) hpiece
  rw [join_singleton hpiece]
  exact mt String.ofList_eq_empty_iff.mp (trimEnd_append hne hstart []).2

/-- Words that are joined behind a selector add to it what the table says. -/
theorem selector_run {joining : Joining} (h : EndsAs joining.last joining.text)
    (words : List String) : String.ofList (trimEnd (joining.run words).text) =
      String.ofList (trimEnd joining.text) ++ added joining.last joining.marked words := by
  induction words generalizing joining with
  | nil => exact String.append_empty.symm
  | cons word words ih =>
    rw [run_cons, ih (h.word (endsVisibly_trim _))]
    cases hpiece : piece? (wordOf (trim word.toList)) with
    | none =>
      have hkind : kind? word = none := by rw [kind?, hpiece, Option.map_none]
      rw [word_of_none hpiece, added, hkind]
      rfl
    | some found =>
      obtain ⟨joint, piece, kind⟩ := found
      have hkind : kind? word = some (joint, kind) := by rw [kind?, hpiece, Option.map_some]
      rw [trimEnd_word h (startsVisibly_trim _) hpiece, word_of_some hpiece, added, hkind,
        join_singleton hpiece, isMarking, String.ofList_append, String.ofList_append,
        String.ofList_toList]
      simp only [String.append_assoc]

/-- A selector is read off the table. -/
theorem join_eq_added (words : List String) : join words = added none false words := by
  rw [join_eq_run, selector_run EndsAs.nothing]
  exact String.empty_append

/-! ## Words behind one that is not skipped -/

theorem added_append {word : String} {joint : Joint} {kind : Piece}
    (hkind : kind? word = some (joint, kind)) (front words : List String) (last : Option Piece)
    (marked : Bool) : added last marked (front ++ word :: words) =
      added last marked (front ++ [word]) ++ added (some kind) false words := by
  induction front generalizing last marked with
  | nil =>
    rw [List.nil_append, List.nil_append, added, added, hkind]
    simp [added]
  | cons first front ih =>
    rw [List.cons_append, List.cons_append, added, added]
    split
    · exact ih _ _
    · rw [ih, ← String.append_assoc]

/-- Words add nothing exactly if all of them are skipped. -/
theorem added_eq_empty_iff {last : Option Piece} {marked : Bool} {words : List String} :
    added last marked words = "" ↔ ∀ word ∈ words, isSkipped word = true := by
  induction words generalizing last marked with
  | nil => simp [added]
  | cons word words ih =>
    rw [added, List.forall_mem_cons, isSkipped_iff]
    cases hkind : kind? word with
    | none => simpa using ih
    | some found =>
      have hword : join [word] ≠ "" := join_singleton_ne (by simp [hkind])
      simp [hword]

/-- Words join to nothing exactly if all of them are skipped. -/
theorem join_eq_empty_iff {words : List String} :
    join words = "" ↔ ∀ word ∈ words, isSkipped word = true := by
  rw [join_eq_added, added_eq_empty_iff]

/-- A selector ends with a visible character. -/
theorem endsVisibly_join (words : List String) : EndsVisibly (join words).toList := by
  rw [join_eq_run, String.toList_ofList]
  exact endsVisibly_trimEnd _

/-- A selector is read off the table of gaps, whatever its words are. What words add behind a word
that is not skipped is the same for all words before it; words join to nothing exactly if all are
skipped; and there is no white space at either end. -/
theorem join_local :
    (∀ words, join words = added none false words) ∧
    (∀ word words, isSkipped word = false →
      ∃ rest, ∀ front, join (front ++ [word] ++ words) = join (front ++ [word]) ++ rest) ∧
    (∀ words, join words = "" ↔ ∀ word ∈ words, isSkipped word = true) ∧
    ∀ words, StartsVisibly (join words).toList ∧ EndsVisibly (join words).toList := by
  refine ⟨join_eq_added, fun word words hword => ?_, fun _ => join_eq_empty_iff,
    fun words => ⟨startsVisibly_join words, endsVisibly_join words⟩⟩
  have hsome : kind? word ≠ none := fun hnone =>
    absurd (isSkipped_iff.mpr hnone) (Bool.eq_false_iff.mp hword)
  obtain ⟨⟨joint, kind⟩, hkind⟩ := Option.ne_none_iff_exists'.mp hsome
  refine ⟨added (some kind) false words, fun front => ?_⟩
  rw [join_eq_added, join_eq_added, List.append_assoc, List.singleton_append]
  exact added_append hkind front words none false

/-- Behind a combinator a mark adds nothing more, and what is behind it is the same in both
selectors. -/
theorem join_local_combinator :
    isSkipped ">" = false ∧
      ∃ rest, join (["ul"] ++ [">"] ++ ["&", "_", "card"]) = join (["ul"] ++ [">"]) ++ rest ∧
        join ([":root", "_"] ++ [">"] ++ ["&", "_", "card"]) =
          join ([":root", "_"] ++ [">"]) ++ rest := by
  obtain ⟨rest, hrest⟩ := join_local.2.1 ">" ["&", "_", "card"] (by decide)
  exact ⟨by decide, rest, hrest ["ul"], hrest [":root", "_"]⟩

end NestedStyles.Selector
