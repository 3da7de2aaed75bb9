import NestedStyles.Proofs.CleanText
import NestedStyles.Proofs.Declared
import NestedStyles.Proofs.Indented

/-!
# Texts that are laid out

A rule is laid out if its selector, properties and values are clean (`RuleSet.isLaid_rule`). Texts
that are laid out stay so in a block (`Layout.IsLaid.block`) and as sections of a stylesheet
(`Layout.isLaid_sections`), where they may also be empty.
-/

namespace NestedStyles

open Layout Text

namespace Layout

/-- The text of lines that are laid out. -/
def IsLaid (css : String) : Prop := ∃ lines, Laid 0 lines ∧ css.toList = text lines

/-- A text that may stand before a block. -/
structure IsHeader (header : String) : Prop where
  clean : Clean header.toList
  ne_empty : header ≠ ""
  starts : StartsVisibly header.toList

theorem IsHeader.toList_ne_nil {header : String} (h : IsHeader header) : header.toList ≠ [] :=
  mt String.toList_eq_nil_iff.mp h.ne_empty

namespace IsLaid

variable {css : String}

theorem wellNested (h : IsLaid css) : WellNested css := by
  obtain ⟨lines, hlines, hcss⟩ := h
  exact hlines.wellNested hcss

theorem isVisible (h : IsLaid css) : IsVisible css := by
  refine ⟨?_, h.wellNested.starts, h.wellNested.ends⟩
  rintro rfl
  obtain ⟨lines, hlines, hcss⟩ := h
  exact absurd (hcss ▸ hlines.mem_text) (by decide)

end IsLaid

theorem wellNested_empty : WellNested "" :=
  ⟨rfl, filled_of_not_mem (by decide), by decide, by decide, startsVisibly_nil, endsVisibly_nil⟩

/-- Texts with a blank line between them are laid out. -/
theorem IsLaid.gap {front back : String} (hfront : IsLaid front) (hback : IsLaid back) :
    IsLaid (front ++ "\n\n" ++ back) := by
  obtain ⟨first, hfirst, hfront⟩ := hfront
  obtain ⟨second, hsecond, hback⟩ := hback
  refine ⟨_, hfirst.gap hsecond, ?_⟩
  rw [text_gap hfirst.ne_nil hsecond.ne_nil, String.toList_append, String.toList_append, hfront,
    hback, List.append_assoc]
  rfl

/-- Texts in a row are laid out. -/
theorem IsLaid.next {front back : String} (hfront : IsLaid front) (hback : IsLaid back) :
    IsLaid (front ++ "\n" ++ back) := by
  obtain ⟨first, hfirst, hfront⟩ := hfront
  obtain ⟨second, hsecond, hback⟩ := hback
  refine ⟨_, hfirst.next hsecond, ?_⟩
  rw [text_append hfirst.ne_nil hsecond.ne_nil, String.toList_append, String.toList_append, hfront,
    hback, List.append_assoc]
  rfl

/-- Sections are laid out if they are, or empty. -/
theorem isLaid_sections {texts : List String} (h : ∀ css ∈ texts, css = "" ∨ IsLaid css) :
    sections texts = "" ∨ IsLaid (sections texts) := by
  have htrimmed : ∀ css ∈ texts, Text.trimmed css = css := by
    intro css hcss
    rcases h css hcss with rfl | hlaid
    · decide
    · exact hlaid.isVisible.trimmed
  rw [sections_of_trimmed htrimmed]
  by_cases hnil : texts.filter (· != "") = []
  · rw [hnil]
    exact Or.inl rfl
  · refine Or.inr (intercalate_of IsLaid.gap hnil fun css hcss => ?_)
    obtain ⟨hmem, hne⟩ := List.mem_filter.mp hcss
    exact (h css hmem).resolve_left (by simpa using hne)

/-! ## Blocks -/

/-- A line two spaces deeper, if it is not empty. -/
def deeper (line : List Char) : List Char :=
  if line.isEmpty then [] else List.replicate 2 ' ' ++ line

theorem deeper_padded {text : List Char} (hne : text ≠ []) (depth : Nat) :
    deeper (padded depth text) = padded (depth + 1) text := by
  have hnot : (padded depth text).isEmpty = false := by simp [padded, hne]
  have hspaces : 2 * (depth + 1) = 2 + 2 * depth := by omega
  rw [deeper, hnot, if_neg (by simp), padded, padded, hspaces, ← List.replicate_append_replicate,
    List.append_assoc]

/-- Lines that are laid out stay so one level deeper. -/
theorem Laid.deeper {depth : Nat} {lines : List (List Char)} (h : Laid depth lines) :
    Laid (depth + 1) (lines.map Layout.deeper) := by
  induction h with
  | @line depth text clean starts ends =>
    rw [List.map_singleton, deeper_padded (ne_nil_of_getLast? ends)]
    exact Laid.line clean starts ends
  | @block depth header body clean ne_nil starts inner ih =>
    rw [List.map_append, List.map_cons, List.map_singleton, deeper_padded (by simp),
      deeper_padded (by simp)]
    exact Laid.block clean ne_nil starts ih
  | next first second ih ih' =>
    rw [List.map_append]
    exact ih.next ih'
  | gap first second ih ih' =>
    rw [List.map_append, List.map_cons]
    exact ih.gap ih'

/-- Lines that are laid out can be read back from their text. -/
theorem Laid.areLines {depth : Nat} {lines : List (List Char)} (h : Laid depth lines) :
    AreLines lines where
  noFeed line hline := (h.of_mem line hline).1
  noReturn line hline hcr := by
    have hends := (h.of_mem line hline).2 '\r' (by rw [List.head?_reverse, hcr])
    exact absurd hends (by decide)
  last_ne_nil := by
    obtain ⟨front, last, rfl, hne, -⟩ := h.last
    rw [List.getLast?_concat]
    simpa using hne

/-- A text that is laid out stays so in a block. -/
theorem IsLaid.block {body : String} (h : IsLaid body) {header : String}
    (hheader : IsHeader header) : IsLaid (block header body) := by
  obtain ⟨lines, hlines, hbody⟩ := h
  have hread : Text.lines body.toList = lines := HasLines.lines_eq ⟨hlines.areLines, hbody⟩
  refine ⟨_, Laid.block hheader.clean hheader.toList_ne_nil hheader.starts hlines.deeper, ?_⟩
  rw [toList_block header (hread ▸ hlines.ne_nil), hread]
  rfl

end Layout

/-! ## Rules -/

theorem Property.startsVisibly_name {key : String} (h : StartsVisibly key.toList) :
    StartsVisibly (name key).toList := by
  rw [name, String.toList_ofList, kebab]
  cases hkey : key.toList with
  | nil => exact startsVisibly_nil
  | cons c rest =>
    rw [hkey, startsVisibly_cons] at h
    by_cases hhyphen : (c == '-') = true
    · rw [@List.takeWhile_cons_of_pos _ (· == '-') _ _ hhyphen]
      exact startsVisibly_cons.mpr h
    · rw [@List.takeWhile_cons_of_neg _ (· == '-') _ _ hhyphen,
        @List.dropWhile_cons_of_neg _ (· == '-') _ _ hhyphen, List.nil_append, hyphenate]
      split
      · obtain ⟨d, more, hlower⟩ := List.exists_cons_of_ne_nil (lowercase_ne_nil c)
        have hd : isSpace d = false :=
          isSpace_of_mem_lowercase h (hlower ▸ List.mem_cons_self)
        rw [hlower]
        exact startsVisibly_cons.mpr hd
      · exact startsVisibly_cons.mpr h

/-- A declaration of clean texts with a property that begins visibly. -/
structure Declared.IsClean (d : Declared) : Prop where
  selector : IsHeader d.selector
  property : Clean d.property.toList
  visible : StartsVisibly d.property.toList
  value : Clean d.value.toList

namespace Layout

/-- Lines at one depth are laid out. -/
theorem laid_lines {depth : Nat} : ∀ {texts : List (List Char)}, texts ≠ [] →
    (∀ text ∈ texts, Clean text ∧ StartsVisibly text ∧ text.getLast? = some ';') →
    Laid depth (texts.map (padded depth))
  | [], hne, _ => absurd rfl hne
  | [text], _, h => by
    obtain ⟨hclean, hstarts, hends⟩ := h text (by simp)
    exact Laid.line hclean hstarts hends
  | text :: next :: rest, _, h => by
    obtain ⟨hclean, hstarts, hends⟩ := h text (by simp)
    exact (Laid.line hclean hstarts hends).next
      (laid_lines (List.cons_ne_nil next rest) fun other hother => h other (by simp [hother]))

end Layout

namespace RuleSet

/-- The text of a declaration behind its indentation. -/
def lineText (declaration : String × String) : List Char :=
  declaration.1.toList ++ ([':', ' '] ++ (Url.requote declaration.2).toList) ++ [';']

theorem toList_line (declaration : String × String) :
    (Declarations.line declaration).toList = padded 1 (lineText declaration) := by
  simp [Declarations.line, lineText, padded, String.toList_append]

theorem clean_lineText {declaration : String × String} (hproperty : Clean declaration.1.toList)
    (hvalue : Clean declaration.2.toList) : Clean (lineText declaration) := by
  have hback := @Clean.append [':', ' '] _ (by decide) (Url.clean_requote hvalue)
  exact (hproperty.append hback).append (by decide)

/-- The text of a rule is that of its lines in braces. -/
theorem toList_rule {rule : String × Declarations} (hnil : rule.2 ≠ []) :
    (RuleSet.rule rule).toList = rule.1.toList ++ [' ', '\x7b'] ++
      '\n' :: text ((rule.2.map lineText).map (padded 1)) ++ '\n' :: ['\x7d'] := by
  have hlines : (rule.2.map lineText).map (padded 1) =
      rule.2.map fun declaration => (Declarations.line declaration).toList := by
    rw [List.map_map]
    exact List.map_congr_left fun declaration _ => (toList_line declaration).symm
  rw [← text_block (by simpa using hnil), RuleSet.rule, String.toList_intercalate, text, hlines]
  simp [Function.comp_def]

/-- A rule of clean texts is laid out. -/
theorem isLaid_rule {rule : String × Declarations} (hselector : IsHeader rule.1)
    (hnil : rule.2 ≠ [])
    (h : ∀ declaration ∈ rule.2, Clean declaration.1.toList ∧
      StartsVisibly declaration.1.toList ∧ Clean declaration.2.toList) :
    IsLaid (RuleSet.rule rule) := by
  have hbody : Laid 1 ((rule.2.map lineText).map (padded 1)) := by
    refine laid_lines (by simpa using hnil) fun text htext => ?_
    obtain ⟨declaration, hdeclaration, rfl⟩ := List.mem_map.mp htext
    obtain ⟨hproperty, hvisible, hvalue⟩ := h declaration hdeclaration
    refine ⟨clean_lineText hproperty hvalue, ?_, ?_⟩
    · unfold lineText
      cases hname : declaration.1.toList with
      | nil => exact startsVisibly_cons.mpr (by decide)
      | cons c rest =>
        rw [hname] at hvisible
        exact startsVisibly_cons.mpr (startsVisibly_cons.mp hvisible)
    · exact List.getLast?_concat
  refine ⟨_, Laid.block hselector.clean hselector.toList_ne_nil hselector.starts hbody, ?_⟩
  rw [toList_rule hnil, ← text_block (by simpa using hnil)]
  rfl

/-- The block of a selector is the text of a rule with the declarations of the selector. -/
theorem exists_rule {list : List Declared} {s : String} (hs : s ∈ Declared.selectors list) :
    ∃ rule : String × Declarations, RuleSet.rule rule = Declared.block list s ∧ rule.2 ≠ [] ∧
      (∃ d ∈ list, d.selector = rule.1) ∧
      ∀ declaration ∈ rule.2, ∃ d ∈ list, (d.property, d.value) = declaration := by
  have hrule : (s, Declared.declarations (Declared.under s list)) ∈ ofDeclared list := by
    rw [ofDeclared_eq]
    exact List.mem_map_of_mem hs
  refine ⟨_, rule_declarations .., ne_nil_of_mem_ofDeclared list hrule,
    (Declared.mem_selectors list).mp hs, fun declaration hdeclaration => ?_⟩
  obtain ⟨d, hd, hsame⟩ := Declared.exists_of_mem_declarations _ hdeclaration
  exact ⟨d, (List.mem_filter.mp hd).1, hsame⟩

/-- The rules of clean declarations are laid out, if there are any. -/
theorem isLaid_css {list : List Declared} (h : ∀ d ∈ list, d.IsClean) :
    (ofDeclared list).css = "" ∨ IsLaid (ofDeclared list).css := by
  by_cases hnil : list = []
  · exact Or.inl (hnil ▸ rfl)
  obtain ⟨d, hd⟩ := List.exists_mem_of_ne_nil list hnil
  have hselectors : Declared.selectors list ≠ [] :=
    List.ne_nil_of_mem ((Declared.mem_selectors list).mpr ⟨d, hd, rfl⟩)
  rw [css_ofDeclared]
  refine Or.inr (intercalate_of IsLaid.gap (by simpa using hselectors) fun text htext => ?_)
  obtain ⟨s, hs, rfl⟩ := List.mem_map.mp htext
  obtain ⟨rule, hrule, hne, ⟨d, hd, hselector⟩, hdeclarations⟩ := exists_rule hs
  rw [← hrule]
  refine isLaid_rule (hselector ▸ (h d hd).selector) hne fun declaration hdeclaration => ?_
  obtain ⟨other, hother, rfl⟩ := hdeclarations declaration hdeclaration
  exact ⟨(h other hother).property, (h other hother).visible, (h other hother).value⟩

end RuleSet

end NestedStyles
