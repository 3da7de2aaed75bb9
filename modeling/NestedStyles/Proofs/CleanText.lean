import NestedStyles.Collected
import NestedStyles.Proofs.Alternatives
import NestedStyles.Proofs.Choices
import NestedStyles.Proofs.Nesting
import NestedStyles.Proofs.VisibleEnd

/-!
# Text without layout characters

Selectors, property names and values are made of the characters of the tree and of a few that are
neither braces nor line feeds. So the selectors of clean keys are clean, and so are the names of
clean keys (`Property.free_name`) and the CSS of clean values (`Value.clean_written?`). For keys the
same is true of other characters that are neither signs of a selector nor lowercase forms
(`Text.Spared`, `Selector.free_of_mem_ofPath`).
-/

namespace NestedStyles

open Layout

namespace Text

namespace Free

variable {bad : Char → Bool} {text : List Char}

theorem trim (h : Free bad text) : Free bad (trim text) :=
  h.of_mem fun _ hc => (trim_sublist text).mem hc

theorem trimmed {s : String} (h : Free bad s.toList) : Free bad (trimmed s).toList := by
  rw [Text.trimmed, String.toList_ofList]
  exact h.trim

/-- Free texts are free when they are joined. -/
theorem intercalate {sep : String} (hsep : Free bad sep.toList) {texts : List String}
    (h : ∀ text ∈ texts, Free bad text.toList) : Free bad (sep.intercalate texts).toList := by
  by_cases hnil : texts = []
  · rw [hnil]
    exact nil
  · refine @Text.intercalate_of (fun text => Free bad text.toList) sep (fun hfront hback => ?_)
      texts hnil h
    rw [String.toList_append, String.toList_append]
    exact (hfront.append hsep).append hback

end Free

/-- No character is a sign of a selector, nor the lowercase form of another one. -/
structure Spared (bad : Char → Bool) : Prop where
  signs : Free bad [' ', '-', '.', '&', ':', ',']
  lowercase : ∀ {c : Char}, bad c = false → Free bad (lowercase c)

/-- The code points of braces, line feeds and semicolons. -/
def markCodes : List Nat := [0xA, 0x3B, 0x7B, 0x7D]

/-- No run of uppercase characters is lowered to braces, line feeds or semicolons. -/
theorem loweringRuns_clean : ∀ run ∈ loweringRuns, ∀ code ∈ markCodes,
    (code : Int) < run.1 + run.2.2.2 ∨ run.2.1 + run.2.2.2 < code := by
  decide +kernel

theorem toNat_mem_markCodes {c : Char} (h : isMark c = true) : c.toNat ∈ markCodes := by
  simp only [isMark, Bool.or_eq_true, beq_iff_eq] at h
  rcases h with (rfl | rfl) | rfl <;> decide

theorem isMark_toLower : ∀ n < 0x80, isMark (Char.ofNat n) = false →
    isMark (Char.ofNat n).toLower = false := by
  decide +kernel

theorem spared_isMark : Spared isMark where
  signs := by decide
  lowercase hc _ h := of_mem_lowercase toNat_mem_markCodes (by decide) isMark_toLower (by decide)
    loweringRuns_clean hc h

end Text

open Text

/-! ## Property and class names -/

section Spared

variable {bad : Char → Bool} (hbad : Spared bad)

include hbad

namespace Property

theorem free_hyphenate {word : List Char} (h : Free bad word) (before : Option Char) :
    Free bad (hyphenate before word) := by
  induction word generalizing before with
  | nil => exact Free.nil
  | cons c rest ih =>
    have hc : bad c = false := h c List.mem_cons_self
    have hrest := ih (h.of_mem fun d hd => List.mem_cons_of_mem _ hd) (some c)
    rw [hyphenate]
    split
    · refine Free.append (Free.append ?_ (hbad.lowercase hc)) hrest
      split
      · exact Free.nil.cons (hbad.signs '-' (by simp))
      · exact Free.nil
    · exact hrest.cons hc

theorem free_kebab {word : List Char} (h : Free bad word) : Free bad (kebab word) :=
  (h.of_mem fun _ hc => (List.takeWhile_prefix _).mem hc).append
    (free_hyphenate hbad (h.of_mem fun _ hc => (List.dropWhile_suffix _).mem hc) none)

/-- The name of a free key is free. -/
theorem free_name {key : String} (h : Free bad key.toList) : Free bad (name key).toList := by
  rw [name, String.toList_ofList]
  exact free_kebab hbad h

end Property

/-! ## Selectors -/

namespace Selector

theorem free_className {word : List Char} (h : Free bad word) : Free bad (className word) :=
  (Property.free_kebab hbad h).cons (hbad.signs '.' (by simp))

theorem free_piece {word text : List Char} {joint : Joint} {kind : Piece} (hword : Free bad word)
    (h : piece? word = some (joint, text, kind)) : Free bad text := by
  unfold piece? at h
  split at h
  · simp at h
  · obtain ⟨-, rfl, -⟩ := by simpa using h
    exact hword
  · split at h
    · simp at h
    · obtain ⟨-, rfl, -⟩ := by simpa using h
      exact free_className hbad (hword.of_mem fun c hc => by simp [hc])
  · split at h
    · simp at h
    · obtain ⟨-, rfl, -⟩ := by simpa using h
      exact free_className hbad (hword.of_mem fun c hc => by simp [hc])
  · next c rest _ _ _ =>
    have hc : bad c = false := hword c List.mem_cons_self
    split at h
    · obtain ⟨-, rfl, -⟩ := by simpa using h
      exact ((Free.trim (hword.of_mem fun d hd => List.mem_cons_of_mem _ hd)).cons
        (hbad.signs ' ' (by simp))).cons hc
    · split at h
      · obtain ⟨-, rfl, -⟩ := by simpa using h
        exact hword
      · split at h
        · obtain ⟨-, rfl, -⟩ := by simpa using h
          exact hword
        · obtain ⟨-, rfl, -⟩ := by simpa using h
          exact free_className hbad hword

theorem Joining.free_word {joining : Joining} {token : List Char} (hjoining : Free bad joining.text)
    (htoken : Free bad token) : Free bad (joining.word token).text := by
  cases hpiece : piece? (wordOf token) with
  | none =>
    rw [word_of_none hpiece]
    exact hjoining
  | some found =>
    obtain ⟨joint, piece, kind⟩ := found
    have hword : Free bad (wordOf token) := by
      unfold wordOf
      split
      · exact htoken.of_mem fun c hc => List.mem_of_mem_tail ((List.dropWhile_suffix _).mem hc)
      · exact htoken
    have hclean := free_piece hbad hword hpiece
    rw [word_of_some hpiece]
    dsimp only
    split
    · unfold descend
      split
      · exact hjoining.append hclean
      · exact hjoining.append (hclean.cons (hbad.signs ' ' (by simp)))
    · exact hjoining.append hclean

theorem free_join {words : List String} (h : ∀ word ∈ words, Free bad word.toList) :
    Free bad (join words).toList := by
  have hfold : ∀ (words : List String) (joining : Joining), Free bad joining.text →
      (∀ word ∈ words, Free bad word.toList) →
      Free bad (words.foldl (fun j w => j.word (Text.trim w.toList)) joining).text := by
    intro words
    induction words with
    | nil => exact fun joining hjoining _ => hjoining
    | cons word rest ih =>
      intro joining hjoining hwords
      exact ih _ (Joining.free_word hbad hjoining (Free.trim (hwords word (by simp))))
        fun other hother => hwords other (by simp [hother])
  have hall := hfold words Joining.start Free.nil h
  rw [join, String.toList_ofList]
  exact hall.of_mem fun c hc => (Text.trimEnd_front _).mem hc

omit hbad in
theorem free_of_mem_alternatives {key a : String} (hkey : Free bad key.toList)
    (h : a ∈ alternatives key) : Free bad a.toList := by
  obtain ⟨piece, hpiece, ha⟩ := List.mem_filterMap.mp h
  obtain ⟨raw, hraw, rfl⟩ := List.mem_map.mp hpiece
  split at ha
  · simp at ha
  · obtain rfl := Option.some.inj ha
    rw [String.toList_ofList]
    exact Free.trim (hkey.of_mem fun c hc => mem_of_mem_splitOn hraw hc)

/-- A key that is marked is free if the key is. -/
theorem free_asDescendant {key : String} (h : Free bad key.toList) :
    Free bad (asDescendant key).toList := by
  have hspace : Free bad [' '] := hbad.signs.of_mem (by simp)
  have hcomma : Free bad ", ".toList := hspace.cons (hbad.signs ',' (by simp))
  have hmark : Free bad "& ".toList := hspace.cons (hbad.signs '&' (by simp))
  refine hcomma.intercalate fun text htext => ?_
  obtain ⟨a, ha, rfl⟩ := List.mem_map.mp htext
  rw [String.toList_append]
  exact hmark.append (free_of_mem_alternatives h ha)

/-- The selectors of free keys are free. -/
theorem free_of_mem_ofPath {keys : List String} (hkeys : ∀ key ∈ keys, Free bad key.toList)
    {s : String} (h : s ∈ ofPath keys) : Free bad s.toList := by
  simp only [ofPath, List.mem_eraseDups, List.mem_filter, List.mem_map] at h
  obtain ⟨⟨words, hwords, rfl⟩, -⟩ := h
  refine free_join hbad fun word hword => ?_
  obtain ⟨list, hlist, hmem⟩ := mem_of_mem_product hwords word hword
  obtain ⟨key, hkey, rfl⟩ := List.mem_map.mp (List.mem_filter.mp hlist).1
  exact free_of_mem_alternatives (hkeys key hkey) hmem

end Selector

end Spared

/-! ## Values -/

section Numbers

theorem clean_toDigits (n : Nat) : Clean (Nat.toDigits 10 n) := by
  intro c hc
  have hdigit := Nat.isDigit_of_mem_toDigits (by decide) (by decide) hc
  refine Bool.eq_false_iff.mpr fun hmark => ?_
  simp only [isMark, Bool.or_eq_true, beq_iff_eq] at hmark
  rcases hmark with (rfl | rfl) | rfl
  · exact absurd hdigit (by decide)
  · exact absurd hdigit (by decide)
  · exact absurd hdigit (by decide)

theorem clean_zeros (n : Int) : Clean (zeros n) := by
  intro c hc
  rw [List.eq_of_mem_replicate hc]
  decide

theorem clean_minusSign (negative : Bool) : Clean (minusSign negative) := by
  cases negative <;> decide

theorem clean_pointed {digits : List Char} (h : Clean digits) (whole : Int) :
    Clean (pointed digits whole) := by
  unfold pointed
  split
  · exact (Clean.append (by decide) (clean_zeros _)).append h
  · split
    · exact h.append (clean_zeros _)
    · exact (h.of_mem fun _ hc => List.mem_of_mem_take hc).append
        ((h.of_mem fun _ hc => List.mem_of_mem_drop hc).cons (by decide))

theorem Decimal.clean_positional (d : Decimal) : Clean d.positional :=
  (clean_minusSign _).append (clean_pointed (clean_toDigits _) _)

theorem Number.clean_text (n : Number) : Clean n.text.toList := by
  cases n with
  | nan => decide
  | infinite negative => cases negative <;> decide
  | finite negative significand exponent =>
    rw [Number.text, String.toList_ofList]
    split
    · exact (clean_minusSign _).append (by decide)
    · exact Decimal.clean_positional _

theorem Number.clean_css (n : Number) : Clean n.css.toList := by
  unfold Number.css
  split
  · decide
  · exact n.clean_text

end Numbers

namespace Content

theorem clean_byUnits (c : Char) : Clean (byUnits c) := by
  have hdigit : ∀ n < 16, isMark (Nat.digitChar n) = false := by decide
  have hhex (u : Nat) : Clean (Text.fourHex u) := by
    intro d hd
    obtain ⟨n, hn, rfl⟩ := List.mem_map.mp hd
    refine hdigit n ?_
    simp only [List.mem_cons, List.not_mem_nil, or_false] at hn
    omega
  intro d hd
  obtain ⟨u, -, hu⟩ := List.mem_flatMap.mp hd
  exact Clean.append (by decide) (hhex u) d hu

theorem clean_quote {text : List Char} (h : Clean text) : Clean (quote text) := by
  refine Clean.append (Clean.cons (by decide) fun c hc => ?_) (by decide)
  obtain ⟨d, hd, hc⟩ := List.mem_flatMap.mp hc
  split at hc
  · unfold escaped at hc
    split at hc
    · exact Clean.cons (by decide) (Clean.nil.cons (h d hd)) c hc
    · exact Clean.nil.cons (h d hd) c hc
  · exact clean_byUnits d c hc

theorem clean_format {s : String} (h : Clean s.toList) : Clean (format s).toList := by
  rw [format, String.toList_ofList, formatChars]
  split
  · exact Free.trim h
  · split
    · exact h
    · exact clean_quote h

end Content

namespace Url

theorem clean_requoteFrom {text : List Char} (h : Clean text) (place : Place) :
    Clean (requoteFrom place text) := by
  induction text generalizing place with
  | nil => cases place <;> exact Clean.nil
  | cons c rest ih =>
    have hc : isMark c = false := h c List.mem_cons_self
    have hrest (place : Place) := ih (h.of_mem fun d hd => List.mem_cons_of_mem _ hd) place
    rcases place with - | (- | n) | -
    · exact (hrest _).cons hc
    · exact (hrest _).cons (by decide)
    · exact (hrest _).cons hc
    · rw [requoteFrom]
      split
      · exact (hrest _).cons (by decide)
      · exact (hrest _).cons hc

theorem clean_requote {value : String} (h : Clean value.toList) : Clean (requote value).toList := by
  rw [requote, String.toList_ofList]
  exact clean_requoteFrom h _

end Url

/-- The text of an item is clean. -/
def Item.isClean : Item → Bool
  | .text s => decide (Clean s.toList)
  | .number _ => true

/-- The texts of a value are clean. -/
def Value.isClean : Value → Bool
  | .text s => decide (Clean s.toList)
  | .list items => items.all Item.isClean
  | .reference css _ => decide (Clean css.toList)
  | _ => true

namespace Value

theorem clean_css? {value : Value} (h : value.isClean = true) {css : String}
    (hcss : value.css? = some css) : Clean css.toList := by
  cases value with
  | text s => exact Option.some.inj hcss ▸ of_decide_eq_true h
  | number n => exact Option.some.inj hcss ▸ n.clean_css
  | bool b =>
    obtain rfl := Option.some.inj hcss
    cases b <;> decide
  | null => exact absurd hcss (by simp [css?])
  | list items =>
    obtain rfl := Option.some.inj hcss
    refine Free.intercalate (by decide) fun text htext => ?_
    obtain ⟨item, hitem, rfl⟩ := List.mem_map.mp htext
    have hclean := List.all_eq_true.mp h item hitem
    cases item with
    | text s => exact of_decide_eq_true hclean
    | number n => exact n.clean_css
  | reference text name => exact Option.some.inj hcss ▸ of_decide_eq_true h

/-- What is written of a clean value is clean. -/
theorem clean_written? {value : Value} (h : value.isClean = true) {property css : String}
    (hcss : value.written? property = some css) : Clean css.toList := by
  unfold written? at hcss
  split at hcss
  · obtain rfl := Option.some.inj hcss
    unfold content
    split
    · decide
    · exact of_decide_eq_true h
    · refine Content.clean_format ?_
      cases hvalue : value.css? with
      | none => decide
      | some text => exact clean_css? h hvalue
  · exact clean_css? h hcss

end Value

end NestedStyles
