import Mathlib.Data.List.Basic
import Mathlib.Data.List.Induction
import NestedStyles.Proofs.Alternatives
import NestedStyles.Proofs.Laid

/-!
# Indented text

Lines can be read back from their text if none has a line feed or a carriage return at its end and
the last is not empty (`Text.AreLines.lines_text`). A text without carriage returns that does not
end in a line feed is the text of such lines (`Text.exists_areLines`), and they stay such lines when
they are indented (`Text.AreLines.indented`). So the lines of an indented text are the indented
lines of the text (`Layout.HasLines.indented`), and all else about indentation is about single
lines: it adds up, keeps the lines and can be taken back (`Layout.indent_adds`).

A block is its header, the indented lines of its body and a brace (`Layout.toList_block`). So in
blocks that stand in each other each line of the innermost body is two spaces deeper for every block
(`Layout.HasLines.blocks`).
-/

namespace NestedStyles

open Text

namespace Layout

/-! ## One line -/

/-- A line behind spaces, if it is not empty. -/
def indentLine (spaces : Nat) (line : List Char) : List Char :=
  if line.isEmpty then [] else List.replicate spaces ' ' ++ line

/-- The line without the spaces, if it is empty or begins with them. -/
def outdentLine? (spaces : Nat) (line : List Char) : Option (List Char) :=
  if line.isEmpty then some [] else line.dropPrefix? (List.replicate spaces ' ')

section Line

variable (spaces : Nat) {line : List Char}

@[simp] theorem indentLine_nil : indentLine spaces [] = [] := rfl

theorem indentLine_of_ne_nil (h : line ≠ []) :
    indentLine spaces line = List.replicate spaces ' ' ++ line :=
  if_neg (by simpa using h)

@[simp] theorem indentLine_zero : indentLine 0 = id := by
  funext line
  cases line <;> rfl

@[simp] theorem indentLine_eq_nil_iff : indentLine spaces line = [] ↔ line = [] := by
  by_cases h : line = []
  · simp [h]
  · simp [indentLine_of_ne_nil spaces h, h]

@[simp] theorem getLast?_indentLine : (indentLine spaces line).getLast? = line.getLast? := by
  by_cases h : line = []
  · simp [h]
  · rw [indentLine_of_ne_nil spaces h, List.getLast?_append_of_ne_nil _ h]

theorem mem_of_mem_indentLine {c : Char} (hc : c ≠ ' ') (h : c ∈ indentLine spaces line) :
    c ∈ line := by
  by_cases hline : line = []
  · simp [hline] at h
  · rw [indentLine_of_ne_nil spaces hline, List.mem_append] at h
    exact h.resolve_left fun hspace => hc (List.eq_of_mem_replicate hspace)

theorem indentLine_indentLine (m n : Nat) (line : List Char) :
    indentLine n (indentLine m line) = indentLine (m + n) line := by
  by_cases h : line = []
  · simp [h]
  · rw [indentLine_of_ne_nil n (mt (indentLine_eq_nil_iff m).mp h), indentLine_of_ne_nil m h,
      indentLine_of_ne_nil (m + n) h, ← List.append_assoc, List.replicate_append_replicate,
      Nat.add_comm]

theorem outdentLine?_indentLine (line : List Char) :
    outdentLine? spaces (indentLine spaces line) = some line := by
  by_cases h : line = []
  · simp [h, outdentLine?]
  · rw [outdentLine?, if_neg (by simpa using h), indentLine_of_ne_nil spaces h,
      List.dropPrefix?_append_of_beq _ (beq_self_eq_true _)]

end Line

/-! ## Texts -/

theorem toList_indent (spaces : Nat) (s : String) :
    (indent spaces s).toList = text ((lines s.toList).map (indentLine spaces)) :=
  String.toList_ofList

/-- The text without the spaces, if every line is empty or begins with them. -/
def outdent? (spaces : Nat) (s : String) : Option String :=
  ((lines s.toList).mapM (outdentLine? spaces)).map fun rows => String.ofList (text rows)

end Layout

open Layout

namespace Text

/-- Lines that can be read back from their text. -/
structure AreLines (rows : List (List Char)) : Prop where
  noFeed : ∀ line ∈ rows, '\n' ∉ line
  noReturn : ∀ line ∈ rows, line.getLast? ≠ some '\r'
  last_ne_nil : rows.getLast? ≠ some []

theorem AreLines.lines_text {rows : List (List Char)} (h : AreLines rows) :
    lines (text rows) = rows := by
  induction rows using List.reverseRecOn with
  | nil => rfl
  | append_singleton front last _ =>
    have hreturn : ∀ line ∈ front, withoutReturn line = line := fun line hline =>
      if_neg (h.noReturn line (List.mem_append_left _ hline))
    have hlast : last ≠ [] := fun hnil => h.last_ne_nil (by rw [List.getLast?_concat, hnil])
    rw [lines, text, List.splitOn_intercalate '\n' h.noFeed (by simp)]
    simp [List.map_congr_left hreturn, hlast]

/-- Lines that can be read back stay so when they are indented. -/
theorem AreLines.indented {rows : List (List Char)} (h : AreLines rows) (spaces : Nat) :
    AreLines (rows.map (indentLine spaces)) where
  noFeed := List.forall_mem_map.mpr fun line hline hfeed =>
    h.noFeed line hline (mem_of_mem_indentLine spaces (by decide) hfeed)
  noReturn := List.forall_mem_map.mpr fun line hline => by
    rw [getLast?_indentLine]
    exact h.noReturn line hline
  last_ne_nil := by
    rw [List.getLast?_map, Ne, Option.map_eq_some_iff]
    rintro ⟨last, hlast, hnil⟩
    exact h.last_ne_nil ((indentLine_eq_nil_iff spaces).mp hnil ▸ hlast)

/-- A text without carriage returns that does not end in a line feed is the text of its lines. -/
theorem exists_areLines {s : List Char} (hreturn : '\r' ∉ s) (hfeed : s.getLast? ≠ some '\n') :
    ∃ rows, AreLines rows ∧ text rows = s := by
  by_cases hnil : s = []
  · exact ⟨[], ⟨by simp, by simp, by simp⟩, hnil.symm⟩
  have hs : text (s.splitOn '\n') = s := List.intercalate_splitOn '\n'
  refine ⟨s.splitOn '\n', ⟨fun line => Selector.not_mem_of_mem_splitOn, ?_, ?_⟩, hs⟩
  · intro line hline hlast
    exact hreturn (Selector.mem_of_mem_splitOn hline (List.mem_of_getLast? hlast))
  · -- The line feed before an empty last line would end the text.
    intro hlast
    obtain ⟨front, hfront⟩ := List.getLast?_eq_some_iff.mp hlast
    rw [hfront] at hs
    by_cases hempty : front = []
    · exact hnil (by simpa [hempty, text_singleton] using hs.symm)
    · rw [text_append hempty (by simp), text_singleton] at hs
      exact hfeed (by rw [← hs, List.getLast?_append]; rfl)

end Text

namespace Layout

/-- The string is the text of the lines, which can be read back. -/
structure HasLines (s : String) (rows : List (List Char)) : Prop where
  areLines : AreLines rows
  toList_eq : s.toList = text rows

namespace HasLines

variable {s : String} {rows : List (List Char)}

theorem lines_eq (h : HasLines s rows) : lines s.toList = rows := by
  rw [h.toList_eq, h.areLines.lines_text]

/-- The lines of an indented text are the indented lines of the text. -/
theorem indented (h : HasLines s rows) (spaces : Nat) :
    HasLines (indent spaces s) (rows.map (indentLine spaces)) :=
  ⟨h.areLines.indented spaces, by rw [toList_indent, h.lines_eq]⟩

theorem indent_indent (h : HasLines s rows) (m n : Nat) :
    indent n (indent m s) = indent (m + n) s := by
  rw [← String.toList_inj, ((h.indented m).indented n).toList_eq, (h.indented (m + n)).toList_eq,
    List.map_map]
  simp only [Function.comp_def, indentLine_indentLine]

theorem outdent?_indent (h : HasLines s rows) (spaces : Nat) :
    outdent? spaces (indent spaces s) = some s := by
  have hrows : (rows.map (indentLine spaces)).mapM (outdentLine? spaces) = some rows := by
    rw [List.mapM_map]
    simp only [Function.comp_def, outdentLine?_indentLine]
    exact List.mapM_pure.trans (congrArg some (List.map_id rows))
  rw [outdent?, (h.indented spaces).lines_eq, hrows, Option.map_some, ← h.toList_eq,
    String.ofList_toList]

end HasLines

section Indent

variable {s : String} (hreturn : '\r' ∉ s.toList) (hfeed : s.toList.getLast? ≠ some '\n')

include hreturn hfeed

theorem hasLines_lines : HasLines s (lines s.toList) := by
  obtain ⟨rows, hrows, hs⟩ := exists_areLines hreturn hfeed
  have h : HasLines s rows := ⟨hrows, hs.symm⟩
  exact h.lines_eq.symm ▸ h

/-- In a text without carriage returns that does not end in a line feed, indentation adds up. It
leaves the number of lines and the empty ones, and without the spaces the text is as before. -/
theorem indent_adds (m n : Nat) :
    indent n (indent m s) = indent (m + n) s ∧
    (lines (indent n s).toList).length = (lines s.toList).length ∧
    (∀ i : Nat, (lines (indent n s).toList)[i]? = some [] ↔ (lines s.toList)[i]? = some []) ∧
    outdent? n (indent n s) = some s := by
  have h := hasLines_lines hreturn hfeed
  have hlines := (h.indented n).lines_eq
  refine ⟨h.indent_indent m n, by rw [hlines, List.length_map], fun i => ?_,
    h.outdent?_indent n⟩
  rw [hlines, List.getElem?_map]
  simp

end Indent

/-- A line of white space only is indented, an empty one is not. -/
theorem indent_adds_blank :
    '\r' ∉ "a \x7b\n\n \n\x7d".toList ∧ "a \x7b\n\n \n\x7d".toList.getLast? ≠ some '\n' ∧
      indent 2 (indent 1 "a \x7b\n\n \n\x7d") = "   a \x7b\n\n    \n   \x7d" ∧
      outdent? 2 (indent 2 "a \x7b\n\n \n\x7d") = some "a \x7b\n\n \n\x7d" := by
  have hreturn : '\r' ∉ "a \x7b\n\n \n\x7d".toList := by decide
  have hfeed : "a \x7b\n\n \n\x7d".toList.getLast? ≠ some '\n' := by decide
  obtain ⟨hsum, -, -, hback⟩ := indent_adds hreturn hfeed 1 2
  exact ⟨hreturn, hfeed, hsum.trans (by decide), hback⟩

/-! ## Blocks -/

/-- A block is its header, the indented lines of its body and a brace. -/
theorem toList_block (header : String) {body : String} (hbody : lines body.toList ≠ []) :
    (block header body).toList = text ((header.toList ++ [' ', '\x7b']) ::
      (lines body.toList).map (indentLine 2) ++ [['\x7d']]) := by
  rw [text_block (by simpa using hbody), ← toList_indent, block]
  simp

namespace HasLines

variable {body : String} {rows : List (List Char)}

theorem block {header : String} (hheader : '\n' ∉ header.toList) (h : HasLines body rows)
    (hne : rows ≠ []) : HasLines (block header body)
      ((header.toList ++ [' ', '\x7b']) :: rows.map (indentLine 2) ++ [['\x7d']]) := by
  have hrows := h.areLines.indented 2
  refine ⟨⟨fun line hline => ?_, fun line hline => ?_, ?_⟩, ?_⟩
  · rw [List.mem_append, List.mem_cons, List.mem_singleton] at hline
    rcases hline with (rfl | hline) | rfl
    · simp [hheader]
    · exact hrows.noFeed line hline
    · decide
  · rw [List.mem_append, List.mem_cons, List.mem_singleton] at hline
    rcases hline with (rfl | hline) | rfl
    · simp
    · exact hrows.noReturn line hline
    · decide
  · rw [List.getLast?_concat]
    decide
  · rw [toList_block header (h.lines_eq ▸ hne), h.lines_eq]

/-- In blocks that stand in each other every line of the body is deeper by two spaces for each
block, with a line before the body and a line behind it for each block. -/
theorem blocks (h : HasLines body rows) (hne : rows ≠ []) : ∀ {headers : List String},
    (∀ header ∈ headers, '\n' ∉ header.toList) → ∃ front back : List (List Char),
      front.length = headers.length ∧ back.length = headers.length ∧
      HasLines (headers.foldr Layout.block body)
        (front ++ rows.map (indentLine (2 * headers.length)) ++ back)
  | [], _ => ⟨[], [], rfl, rfl, by simpa using h⟩
  | header :: headers, hheaders => by
    obtain ⟨front, back, hfront, hback, hinner⟩ :=
      h.blocks hne fun other hother => hheaders other (List.mem_cons_of_mem _ hother)
    have hblock := hinner.block (hheaders header List.mem_cons_self) (by simp [hne])
    -- The outermost block indents all lines in it, those of the body among them.
    have hshape : (header.toList ++ [' ', '\x7b']) ::
        (front ++ rows.map (indentLine (2 * headers.length)) ++ back).map (indentLine 2) ++
          [['\x7d']] =
        ((header.toList ++ [' ', '\x7b']) :: front.map (indentLine 2)) ++
          rows.map (indentLine (2 * (headers.length + 1))) ++
          (back.map (indentLine 2) ++ [['\x7d']]) := by
      simp [Function.comp_def, indentLine_indentLine, Nat.mul_succ]
    exact ⟨_, _, by simp [hfront], by simp [hback], hshape ▸ hblock⟩

end HasLines

end Layout

end NestedStyles
