import NestedStyles.Proofs.Indented
import NestedStyles.RuleSet

/-!
# Lines that are shown

The lines of a text without the white space around them, blank ones left out, do not depend on the
layout: they are the same when the text is trimmed (`Text.shown_trim`) or indented
(`Layout.shown_indent`). So the lines of a block are those of its header and its body
(`Layout.shown_block`), and those of a stylesheet are the lines of its sections
(`Layout.shown_sections`). All of it follows from one equation, for a text that is parted at a line
feed (`Text.shown_append_cons`).
-/

namespace NestedStyles

namespace Text

/-- The lines of a text that are not blank, without white space around them. -/
def shown (text : List Char) : List (List Char) :=
  ((text.splitOn '\n').map trim).filter (· ≠ [])

/-- The last line of a text, which is empty behind a line feed. -/
def lastLine (text : List Char) : List Char := (text.splitOn '\n').getLast (List.splitOn_ne_nil _ _)

/-- The lines of a text stand on either side of a line feed. -/
theorem shown_append_cons (front back : List Char) :
    shown (front ++ '\n' :: back) = shown front ++ shown back := by
  rw [shown, List.splitOn_append_cons_self, List.map_append, List.filter_append, shown, shown]

@[simp] theorem shown_nil : shown [] = [] := by decide

theorem shown_of_line {line : List Char} (h : '\n' ∉ line) :
    shown line = [trim line].filter (· ≠ []) := by
  rw [shown, List.splitOn_eq_singleton h, List.map_singleton]

theorem dropLast_append_lastLine (text : List Char) :
    (text.splitOn '\n').dropLast ++ [lastLine text] = text.splitOn '\n' :=
  List.dropLast_concat_getLast _

theorem not_mem_lastLine (text : List Char) : '\n' ∉ lastLine text :=
  Selector.not_mem_of_mem_splitOn (List.getLast_mem _)

/-- Lines in a row are shown one after another. -/
theorem shown_intercalate (lines : List (List Char)) :
    shown (['\n'].intercalate lines) = lines.flatMap shown := by
  induction lines with
  | nil => rfl
  | cons line rest ih =>
    by_cases hrest : rest = []
    · simp [hrest]
    · rw [List.intercalate_cons_of_ne_nil hrest, List.append_assoc, List.singleton_append,
        shown_append_cons, ih, List.flatMap_cons]

/-- What stands behind a text belongs to its last line. -/
theorem shown_append (text more : List Char) :
    shown (text ++ more) =
      (text.splitOn '\n').dropLast.flatMap shown ++ shown (lastLine text ++ more) := by
  have hrun (front : List (List Char)) (last : List Char) :
      shown (['\n'].intercalate (front ++ [last]) ++ more) =
        front.flatMap shown ++ shown (last ++ more) := by
    induction front with
    | nil => simp
    | cons line rest ih =>
      rw [List.cons_append, List.intercalate_cons_of_ne_nil (by simp), List.append_assoc,
        List.append_assoc, List.singleton_append, shown_append_cons, ih, List.flatMap_cons,
        List.append_assoc]
  rw [← hrun, dropLast_append_lastLine, List.intercalate_splitOn]

/-! ## White space -/

/-- White space before a text is not shown. -/
theorem shown_cons_space {c : Char} (hc : isSpace c = true) (text : List Char) :
    shown (c :: text) = shown text := by
  by_cases hfeed : c = '\n'
  · subst hfeed
    exact shown_append_cons [] text
  · obtain ⟨line, rest, hsplit⟩ := List.exists_cons_of_ne_nil (List.splitOn_ne_nil '\n' text)
    rw [shown, shown, List.splitOn_cons_eq_if_modifyHead, if_neg (by simpa using hfeed), hsplit,
      List.modifyHead_cons, List.map_cons, List.map_cons, trim_cons_space hc]

/-- White space behind a text is not shown. -/
theorem shown_append_space {c : Char} (hc : isSpace c = true) (text : List Char) :
    shown (text ++ [c]) = shown text := by
  by_cases hfeed : c = '\n'
  · subst hfeed
    rw [shown_append_cons, shown_nil, List.append_nil]
  · have hline := not_mem_lastLine text
    have hspaced : '\n' ∉ lastLine text ++ [c] := by simp [hline, Ne.symm hfeed]
    have htext := shown_append text []
    rw [List.append_nil, List.append_nil] at htext
    rw [shown_append, htext, shown_of_line hspaced, shown_of_line hline, trim_append_space hc]

theorem shown_trimStart (text : List Char) : shown (trimStart text) = shown text := by
  induction text with
  | nil => rfl
  | cons c rest ih =>
    rw [trimStart, List.dropWhile_cons]
    split
    · next hc => rw [shown_cons_space hc, ← trimStart, ih]
    · rfl

theorem shown_trimEnd (text : List Char) : shown (trimEnd text) = shown text := by
  induction h : text.reverse generalizing text with
  | nil =>
    obtain rfl := List.reverse_eq_nil_iff.mp h
    rfl
  | cons c rest ih =>
    obtain rfl : text = rest.reverse ++ [c] := by simpa using congrArg List.reverse h
    rw [trimEnd, List.reverse_append, List.reverse_singleton, List.singleton_append,
      List.dropWhile_cons]
    split
    · next hc => rw [shown_append_space hc, ← trimEnd, ih _ (List.reverse_reverse rest)]
    · rw [List.reverse_cons, List.reverse_reverse]

/-- Trimming a text changes no line that is shown. -/
theorem shown_trim (text : List Char) : shown (trim text) = shown text := by
  rw [trim, shown_trimEnd, shown_trimStart]

theorem shown_trimmed (s : String) : shown (trimmed s).toList = shown s.toList := by
  rw [trimmed, String.toList_ofList, shown_trim]

theorem shown_withoutReturn (line : List Char) : shown (withoutReturn line) = shown line := by
  rw [withoutReturn]
  split
  · next h =>
    obtain ⟨front, rfl⟩ := List.getLast?_eq_some_iff.mp h
    rw [List.dropLast_concat, shown_append_space (by decide)]
  · rfl

/-- The lines of a text are shown as the text is. -/
theorem flatMap_shown_lines (text : List Char) : (lines text).flatMap shown = shown text := by
  have hlast : ((some (lastLine text)).toList.filter fun last => !last.isEmpty).flatMap shown =
      [lastLine text].flatMap shown := by
    cases lastLine text <;> simp
  have htext := shown_intercalate (text.splitOn '\n')
  rw [List.intercalate_splitOn, ← dropLast_append_lastLine, List.flatMap_append] at htext
  rw [htext, lines, List.getLast?_eq_some_getLast (List.splitOn_ne_nil _ _), List.flatMap_append,
    List.flatMap_map]
  simp only [shown_withoutReturn]
  exact congrArg _ hlast

end Text

open Text

namespace Layout

/-! ## Layout -/

/-- Indenting a text changes no line that is shown. -/
theorem shown_indent (spaces : Nat) (text : String) :
    shown (indent spaces text).toList = shown text.toList := by
  have hspaces (n : Nat) (line : List Char) :
      shown (List.replicate n ' ' ++ line) = shown line := by
    induction n with
    | zero => rfl
    | succ n ih => exact (shown_cons_space (by decide) _).trans ih
  have hindent (line : List Char) : shown (indentLine spaces line) = shown line := by
    cases line with
    | nil => rfl
    | cons c rest => exact hspaces spaces (c :: rest)
  rw [toList_indent, Layout.text, shown_intercalate, List.flatMap_map]
  simp only [hindent, flatMap_shown_lines]

/-- A block shows its header and its body. -/
theorem shown_block (header body : String) : shown (block header body).toList =
    shown (header ++ " \x7b").toList ++ shown body.toList ++ [['\x7d']] := by
  have hblock : (block header body).toList =
      (header ++ " \x7b").toList ++ '\n' :: ((indent 2 body).toList ++ '\n' :: ['\x7d']) := by
    simp [block]
  have hclose : shown ['\x7d'] = [['\x7d']] := by decide
  rw [hblock, shown_append_cons, shown_append_cons, shown_indent, hclose, List.append_assoc]

/-- Texts with a blank line between them are shown one after another. -/
theorem shown_gaps (texts : List String) :
    shown ("\n\n".intercalate texts).toList = texts.flatMap fun text => shown text.toList := by
  induction texts with
  | nil => rfl
  | cons text rest ih =>
    cases rest with
    | nil => simp
    | cons next rest =>
      have hgap (back : String) : (text ++ "\n\n" ++ back).toList =
          text.toList ++ '\n' :: ([] ++ '\n' :: back.toList) := by simp
      rw [String.intercalate_cons_cons, hgap, shown_append_cons, shown_append_cons, ih, shown_nil]
      rfl

/-- A stylesheet shows the lines of its sections. -/
theorem shown_sections (texts : List String) :
    shown (sections texts).toList = texts.flatMap fun text => shown text.toList := by
  rw [sections, shown_gaps]
  induction texts with
  | nil => rfl
  | cons text rest ih =>
    rw [List.map_cons, List.filter_cons, List.flatMap_cons, ← ih, ← shown_trimmed text]
    split
    · rfl
    · next h =>
      have hempty : trimmed text = "" := by simpa using h
      simp [hempty]

/-- Texts in a row are shown one after another. -/
theorem shown_rows (texts : List String) :
    shown ("\n".intercalate texts).toList = texts.flatMap fun text => shown text.toList := by
  rw [String.toList_intercalate, ← List.flatMap_map]
  exact shown_intercalate _

/-! ## Parts of a text -/

/-- The lines of the part are shown in the text, one after another. -/
def Shows (text part : String) : Prop := shown part.toList <:+: shown text.toList

theorem Shows.trans {text part inner : String} (h : Shows text part) (hinner : Shows part inner) :
    Shows text inner :=
  List.IsInfix.trans hinner h

theorem shows_row {texts : List String} {text : String} (h : text ∈ texts) :
    Shows ("\n".intercalate texts) text := by
  rw [Shows, shown_rows]
  exact List.infix_of_mem_flatten (List.mem_map_of_mem h)

theorem shows_gap {texts : List String} {text : String} (h : text ∈ texts) :
    Shows ("\n\n".intercalate texts) text := by
  rw [Shows, shown_gaps]
  exact List.infix_of_mem_flatten (List.mem_map_of_mem h)

theorem shows_section {texts : List String} {text : String} (h : text ∈ texts) :
    Shows (sections texts) text := by
  rw [Shows, shown_sections]
  exact List.infix_of_mem_flatten (List.mem_map_of_mem h)

theorem shows_block (header body : String) : Shows (block header body) body := by
  rw [Shows, shown_block]
  exact ⟨_, _, rfl⟩

/-- A line of the text gives a property the value. If the name of the property has line feeds, the
line begins with the last line of the name. -/
def Gives (text property value : String) : Prop :=
  trim (lastLine property.toList ++ (": " ++ value ++ ";").toList) ∈ shown text.toList

instance (text property value : String) : Decidable (Gives text property value) :=
  inferInstanceAs (Decidable (_ ∈ shown text.toList))

/-- A declaration whose value has no line feed has the value on one line. -/
theorem Shows.gives {text property value : String}
    (h : Shows text (property ++ ": " ++ value ++ ";")) (hvalue : '\n' ∉ value.toList) :
    Gives text property value := by
  have hparts : (property ++ ": " ++ value ++ ";").toList =
      property.toList ++ (": " ++ value ++ ";").toList := by simp
  have hline : '\n' ∉ lastLine property.toList ++ (": " ++ value ++ ";").toList := by
    simp [not_mem_lastLine, hvalue]
  -- The `;` is left by trimming.
  have hne : trim (lastLine property.toList ++ (": " ++ value ++ ";").toList) ≠ [] := fun hnil =>
    absurd (trim_eq_nil hnil ';' (by simp)) (by decide)
  refine h.mem ?_
  rw [hparts, shown_append, shown_of_line hline]
  exact List.mem_append_right _ (List.mem_filter.mpr ⟨by simp, by simpa using hne⟩)

end Layout

end NestedStyles
