import NestedStyles.Json.Token
import NestedStyles.Proofs.Trimmed
import NestedStyles.Value.Content

/-!
# Quoted text

The value of a `content` property is a keyword or CSS as it is given, or it is a string that stands
for the given text. The two patterns of CSS are said in terms of the parts of a text
(`Content.holdsQuoted_iff`, `Content.isCall_iff`). Either way of escaping gives each character a row
that no quote ends and that is read as the character (`Content.StandsFor`), so a string ends at its
last quote and is read as the text (`Content.exists_quote`), and different texts are written
differently (`Content.format_readBack`). A string is CSS, so it is not quoted again
(`Content.format_format`).
-/

namespace NestedStyles.Content

open Text
open Json.Token (Element decode? hexDigit?)

/-! ## The patterns of CSS -/

/-- A quoted string stands at the start of the text, behind white space or behind `)`. -/
def HoldsQuoted (text : List Char) : Prop :=
  ∃ front mark inside back, text = front ++ mark :: (inside ++ mark :: back) ∧
    (mark = '\x27' ∨ mark = '\x22') ∧ mark ∉ inside ∧
    ∀ c ∈ front.getLast?, isSpace c = true ∨ c = ')'

/-- The text is a name with arguments in parentheses, on one line. -/
def IsCall (text : List Char) : Prop :=
  ∃ name arguments, text = name ++ '(' :: (arguments ++ [')']) ∧ name ≠ [] ∧
    (∀ c ∈ name, isNameChar c = true) ∧ '\n' ∉ arguments

theorem holdsQuoted_iff_of_opens {opens : Bool} {text : List Char} :
    holdsQuoted opens text = true ↔
      ∃ front mark inside back, text = front ++ mark :: (inside ++ mark :: back) ∧
        (mark = '\x27' ∨ mark = '\x22') ∧ mark ∉ inside ∧ (front = [] → opens = true) ∧
        ∀ c ∈ front.getLast?, isSpace c = true ∨ c = ')' := by
  induction text generalizing opens with
  | nil => simp [holdsQuoted]
  | cons c rest ih =>
    rw [holdsQuoted, Bool.or_eq_true, ih]
    simp only [Bool.and_eq_true, Bool.or_eq_true, beq_iff_eq, List.contains_iff_mem]
    constructor
    · rintro (⟨⟨hopens, hmark⟩, hmem⟩ |
        ⟨front, mark, inside, back, rfl, hmark, hinside, hfront, hlast⟩)
      · obtain ⟨inside, back, rfl, hinside⟩ := List.eq_append_cons_of_mem hmem
        exact ⟨[], c, inside, back, rfl, hmark, hinside, fun _ => hopens, by simp⟩
      · refine ⟨c :: front, mark, inside, back, rfl, hmark, hinside, by simp, ?_⟩
        rcases List.eq_nil_or_concat front with rfl | ⟨init, d, rfl⟩
        · simpa using hfront rfl
        · simpa [List.getLast?_cons] using hlast
    · rintro ⟨_ | ⟨d, front⟩, mark, inside, back, htext, hmark, hinside, hfront, hlast⟩
      · obtain ⟨rfl, rfl⟩ := List.cons.inj htext
        exact Or.inl ⟨⟨hfront rfl, hmark⟩, by simp⟩
      · obtain ⟨rfl, rfl⟩ := List.cons.inj htext
        refine Or.inr ⟨front, mark, inside, back, rfl, hmark, hinside, ?_, ?_⟩
        · rintro rfl
          simpa [or_comm] using hlast
        · intro e he
          refine hlast e ?_
          simp [List.getLast?_cons, Option.mem_def.mp he]

/-- A text holds a quoted string exactly if the pattern says so. -/
theorem holdsQuoted_iff {text : List Char} : holdsQuoted true text = true ↔ HoldsQuoted text := by
  simp [holdsQuoted_iff_of_opens, HoldsQuoted]

/-- A text is a call exactly if the pattern says so. -/
theorem isCall_iff {text : List Char} : isCall text = true ↔ IsCall text := by
  have hparen : isNameChar '(' = false := by decide
  rw [isCall, Bool.and_eq_true, Bool.not_eq_true', List.isEmpty_eq_false_iff]
  constructor
  · rintro ⟨hname, hmatch⟩
    split at hmatch
    · next rest hrest =>
      simp only [Bool.and_eq_true, beq_iff_eq, Bool.not_eq_true', Bool.eq_false_iff, Ne,
        List.contains_iff_mem] at hmatch
      obtain ⟨hlast, hline⟩ := hmatch
      obtain ⟨arguments, rfl⟩ := List.getLast?_eq_some_iff.mp hlast
      refine ⟨text.takeWhile isNameChar, arguments, ?_, hname,
        List.all_eq_true.mp List.all_takeWhile, fun hmem => hline (by simp [hmem])⟩
      rw [← hrest, List.takeWhile_append_dropWhile]
    · exact absurd hmatch (by simp)
  · rintro ⟨name, arguments, rfl, hne, hname, hline⟩
    rw [List.takeWhile_append_of_pos hname, List.dropWhile_append_of_pos hname,
      List.takeWhile_cons_of_neg (by simp [hparen]), List.dropWhile_cons_of_neg (by simp [hparen])]
    simp [hne, hline]

/-! ## Reading a string -/

/-- The inside of a string up to the first quote that no backslash escapes, and the text behind that
quote. -/
def untilQuote : List Char → Option (List Char × List Char)
  | [] => none
  | '\x27' :: rest => some ([], rest)
  | '\\' :: c :: rest =>
    (untilQuote rest).map fun (inside, behind) => ('\\' :: c :: inside, behind)
  | c :: rest => (untilQuote rest).map fun (inside, behind) => (c :: inside, behind)

/-- The value of hexadecimal digits. -/
def hexValue? (digits : List Char) : Option Nat :=
  digits.foldlM (fun n c => (hexDigit? c).map (16 * n + ·)) 0

/-- What the inside of a string stands for. A backslash with a quote or a backslash behind it stands
for that character, one with six hexadecimal digits for a UTF-16 unit, and any other character for
itself. -/
def elements : List Char → List Element
  | [] => []
  | '\\' :: '\x27' :: rest => .char '\x27' :: elements rest
  | '\\' :: '\\' :: rest => .char '\\' :: elements rest
  | '\\' :: a :: b :: c :: d :: e :: f :: rest =>
    match hexValue? [a, b, c, d, e, f] with
    | some u => .unit u :: elements rest
    | none => .char '\\' :: elements (a :: b :: c :: d :: e :: f :: rest)
  | c :: rest => .char c :: elements rest

theorem hexDigit?_digitChar : ∀ n < 16, hexDigit? (Nat.digitChar n) = some n := by decide

/-- The four digits of a unit behind two zeros have the value of the unit. -/
theorem hexValue?_fourHex {u : Nat} (h : u < 0x10000) :
    hexValue? ('0' :: '0' :: fourHex u) = some u := by
  have hdigit (n : Nat) : hexDigit? (Nat.digitChar (n % 16)) = some (n % 16) :=
    hexDigit?_digitChar _ (Nat.mod_lt _ (by decide))
  have hzero : hexDigit? '0' = some 0 := by decide
  simp only [hexValue?, fourHex, List.map_cons, List.map_nil, List.foldlM_cons, List.foldlM_nil,
    hzero, hdigit, Option.map_some, Option.bind_eq_bind, Option.bind_some, Option.pure_def]
  congr 1
  omega

/-- A unit that is no half of a pair is decoded to the character of its code. -/
theorem decode?_unit {u : Nat} (h : u < 0xD800 ∨ 0xE000 ≤ u) (rest : List Element) :
    decode? (.unit u :: rest) = (decode? rest).map (Char.ofNat u :: ·) := by
  have hhigh : ¬ (0xD800 ≤ u ∧ u < 0xDC00) := by omega
  have hlow : ¬ (0xDC00 ≤ u ∧ u < 0xE000) := by omega
  have hhalf : ¬ (0xD800 ≤ u ∧ u < 0xE000) := by omega
  rcases rest with _ | ⟨c | low, rest⟩
  · simp [decode?, hhalf]
  · rw [decode?.eq_def]
    simp [hhalf]
  · rw [decode?, if_neg hhigh, if_neg hlow]

/-- The units of a character are decoded to it. -/
theorem decode?_units (c : Char) (rest : List Element) :
    decode? ((units c).map .unit ++ rest) = (decode? rest).map (c :: ·) := by
  have hvalid : c.toNat < 0xD800 ∨ 0xDFFF < c.toNat ∧ c.toNat < 0x110000 := c.valid
  unfold units
  split
  · rw [List.map_singleton, List.singleton_append, decode?_unit (by omega), Char.ofNat_toNat]
  · next hlarge =>
    have hcode : 0x10000 + (0xD800 + (c.toNat - 0x10000) / 0x400 - 0xD800) * 0x400 +
        (0xDC00 + (c.toNat - 0x10000) % 0x400 - 0xDC00) = c.toNat := by omega
    simp only [List.map_cons, List.map_nil, List.cons_append, List.nil_append]
    rw [decode?, if_pos (by omega), if_pos (by omega), hcode, Char.ofNat_toNat]

/-! ## What stands for a character -/

/-- No quote in the row ends a string. -/
def Sealed (row : List Char) : Prop :=
  ∀ rest, untilQuote (row ++ rest) =
    (untilQuote rest).map fun (inside, behind) => (row ++ inside, behind)

namespace Sealed

theorem nil : Sealed [] := fun _ => by simp

theorem append {front back : List Char} (hfront : Sealed front) (hback : Sealed back) :
    Sealed (front ++ back) := by
  intro rest
  rw [List.append_assoc, hfront, hback, Option.map_map]
  exact congrArg (Option.map · _) (funext fun _ => by simp)

theorem flatMap {α : Type} {list : List α} {f : α → List Char} (h : ∀ a ∈ list, Sealed (f a)) :
    Sealed (list.flatMap f) := by
  induction list with
  | nil => exact nil
  | cons a list ih =>
    rw [List.flatMap_cons]
    exact (h a (by simp)).append (ih fun b hb => h b (by simp [hb]))

/-- A backslash and what it escapes. -/
theorem escape (c : Char) : Sealed ['\\', c] := fun _ => rfl

theorem singleton {c : Char} (hquote : c ≠ '\x27') (hslash : c ≠ '\\') : Sealed [c] := by
  intro rest
  rw [List.singleton_append, untilQuote]
  · rfl
  · exact hquote
  · exact fun _ _ hc => absurd hc hslash

/-- What is sealed is the inside of a string up to a quote behind it. -/
theorem untilQuote_append {row : List Char} (h : Sealed row) (behind : List Char) :
    untilQuote (row ++ '\x27' :: behind) = some (row, behind) := by
  rw [h, untilQuote]
  simp

end Sealed

/-- The row is read as the elements, whatever follows it. -/
def Reads (row : List Char) (read : List Element) : Prop :=
  ∀ rest, elements (row ++ rest) = read ++ elements rest

theorem Reads.flatMap {α : Type} {list : List α} {f : α → List Char} {g : α → List Element}
    (h : ∀ a ∈ list, Reads (f a) (g a)) : Reads (list.flatMap f) (list.flatMap g) := by
  induction list with
  | nil => exact fun _ => rfl
  | cons a list ih =>
    intro rest
    rw [List.flatMap_cons, List.flatMap_cons, List.append_assoc, h a (by simp),
      ih (fun b hb => h b (by simp [hb])), List.append_assoc]

/-- The row stands for the character inside a string: no quote in it ends the string, and it is read
as elements that are decoded to the character. -/
structure StandsFor (row : List Char) (c : Char) : Prop where
  sealed : Sealed row
  reads : ∃ read, Reads row read ∧ ∀ more, decode? (read ++ more) = (decode? more).map (c :: ·)

/-- A printable character stands for itself, with a backslash before a quote and a backslash. -/
theorem standsFor_escaped (c : Char) : StandsFor (escaped c) c := by
  unfold escaped
  split
  · next hescape =>
    simp only [Bool.or_eq_true, beq_iff_eq] at hescape
    refine ⟨.escape c, [.char c], fun rest => ?_, fun more => rfl⟩
    rcases hescape with rfl | rfl <;> simp [elements]
  · next hplain =>
    simp only [Bool.or_eq_true, beq_iff_eq, not_or] at hplain
    obtain ⟨hquote, hslash⟩ := hplain
    refine ⟨.singleton hquote hslash, [.char c], fun rest => ?_, fun more => rfl⟩
    rw [List.singleton_append, elements]
    · rfl
    all_goals simp [hslash]

/-- An escaped unit is sealed and is read as the unit. -/
theorem reads_unit {u : Nat} (h : u < 0x10000) :
    Sealed (['\\', '0', '0'] ++ fourHex u) ∧ Reads (['\\', '0', '0'] ++ fourHex u) [.unit u] := by
  constructor
  · have hdigit : ∀ n < 16, Nat.digitChar n ≠ '\x27' ∧ Nat.digitChar n ≠ '\\' := by decide
    have hhex : Sealed (fourHex u) := by
      rw [fourHex, List.map_eq_flatMap]
      refine .flatMap fun n hn => ?_
      have hlt : n < 16 := by
        simp only [List.mem_cons, List.not_mem_nil, or_false] at hn
        omega
      exact .singleton (hdigit n hlt).1 (hdigit n hlt).2
    exact ((Sealed.escape '0').append (.singleton (by decide) (by decide))).append hhex
  · intro rest
    have hvalue := hexValue?_fourHex h
    simp only [fourHex, List.map_cons, List.map_nil] at hvalue
    simp [elements, fourHex, hvalue]

/-- A row of escaped units stands for the character that the units are those of. -/
theorem standsFor_byUnits (c : Char) : StandsFor (byUnits c) c where
  sealed := .flatMap fun _ hu => (reads_unit (lt_of_mem_units hu)).1
  reads := by
    refine ⟨(units c).flatMap fun u => [.unit u],
      .flatMap fun _ hu => (reads_unit (lt_of_mem_units hu)).2, fun more => ?_⟩
    rw [← List.map_eq_flatMap]
    exact decode?_units c more

/-! ## Strings -/

/-- Reading what stands for the characters of a text gives the text back. -/
theorem decode?_elements {f : Char → List Char} (hf : ∀ c, StandsFor (f c) c) (text : List Char) :
    decode? (elements (text.flatMap f)) = some text := by
  induction text with
  | nil => rfl
  | cons c text ih =>
    obtain ⟨read, hread, hdecode⟩ := (hf c).reads
    rw [List.flatMap_cons, hread, hdecode, ih, Option.map_some]

/-- A quoted text is one string from end to end, and stands for the text. -/
theorem exists_quote (text : List Char) :
    ∃ inside, quote text = '\x27' :: (inside ++ ['\x27']) ∧
      untilQuote (inside ++ ['\x27']) = some (inside, []) ∧
      decode? (elements inside) = some text := by
  have hf : ∀ c, StandsFor ((if text.all isPrintable then escaped else byUnits) c) c := by
    intro c
    split
    · exact standsFor_escaped c
    · exact standsFor_byUnits c
  have hsealed : Sealed (text.flatMap (if text.all isPrintable then escaped else byUnits)) :=
    .flatMap fun c _ => (hf c).sealed
  exact ⟨_, rfl, hsealed.untilQuote_append [], decode?_elements hf text⟩

/-! ## The value of a content property -/

/-- No keyword begins with a quote. -/
theorem isKeyword_quoted (rest : List Char) : isKeyword ('\x27' :: rest) = false := by
  have hkeywords : ∀ keyword ∈ keywords, keyword.toList.head? ≠ some '\x27' := by decide
  refine Bool.eq_false_iff.mpr fun h => hkeywords _ (List.contains_iff_mem.mp h) ?_
  rw [String.toList_ofList]
  rfl

/-- A string is no keyword, and CSS as it is. -/
theorem formatChars_string (inside : List Char) :
    formatChars ('\x27' :: (inside ++ ['\x27'])) = '\x27' :: (inside ++ ['\x27']) := by
  have hstart : StartsVisibly ('\x27' :: (inside ++ ['\x27'])) :=
    startsVisibly_cons.mpr (by decide)
  have hend : EndsVisibly ('\x27' :: (inside ++ ['\x27'])) :=
    (endsVisibly_singleton.mpr (by decide)).append (by simp) ('\x27' :: inside)
  have hcss : isCss ('\x27' :: (inside ++ ['\x27'])) = true := by simp [isCss, holdsQuoted]
  rw [formatChars, trim_of_visible hstart hend, isKeyword_quoted, if_neg (by simp), if_pos hcss]

/-- Formatting a value again changes nothing. -/
theorem format_format (text : String) : format (format text) = format text := by
  have hchars : formatChars (formatChars text.toList) = formatChars text.toList := by
    by_cases hkeyword : isKeyword (trim text.toList) = true
    · have htrim : trim (trim text.toList) = trim text.toList :=
        trim_of_visible (startsVisibly_trim _) (endsVisibly_trim _)
      have hformat : formatChars text.toList = trim text.toList := if_pos hkeyword
      rw [hformat, formatChars, htrim, if_pos hkeyword]
    · by_cases hcss : isCss text.toList = true
      · have hformat : formatChars text.toList = text.toList := by
          rw [formatChars, if_neg hkeyword, if_pos hcss]
        rw [hformat, hformat]
      · obtain ⟨inside, hquote, -⟩ := exists_quote text.toList
        have hformat : formatChars text.toList = '\x27' :: (inside ++ ['\x27']) := by
          rw [formatChars, if_neg hkeyword, if_neg hcss, hquote]
        rw [hformat, formatChars_string]
  rw [format, format, String.toList_ofList, hchars]

/-- The text is no keyword and, by the two patterns, no CSS. -/
structure IsPlain (text : String) : Prop where
  keyword : isKeyword (trim text.toList) = false
  quoted : ¬ HoldsQuoted text.toList
  call : ¬ IsCall (trim text.toList)

theorem isCss_iff {text : List Char} :
    isCss text = true ↔ HoldsQuoted text ∨ IsCall (trim text) := by
  rw [isCss, Bool.or_eq_true, holdsQuoted_iff, isCall_iff]

theorem isPlain_iff {text : String} :
    IsPlain text ↔ isKeyword (trim text.toList) = false ∧ isCss text.toList = false := by
  rw [Bool.eq_false_iff (b := isCss _), Ne, isCss_iff, not_or]
  exact ⟨fun h => ⟨h.keyword, h.quoted, h.call⟩, fun h => ⟨h.1, h.2.1, h.2.2⟩⟩

/-- Plain text is quoted. -/
theorem toList_format_of_isPlain {text : String} (h : IsPlain text) :
    (format text).toList = quote text.toList := by
  obtain ⟨hkeyword, hcss⟩ := isPlain_iff.mp h
  rw [format, String.toList_ofList, formatChars, hkeyword, hcss]
  rfl

/-- Text that is not plain stays as it is, a keyword without the white space around it. -/
theorem format_of_not_isPlain {text : String} (h : ¬ IsPlain text) :
    format text = if isKeyword (trim text.toList) then trimmed text else text := by
  rw [isPlain_iff, not_and, Bool.not_eq_false] at h
  rw [format, formatChars]
  cases hkeyword : isKeyword (trim text.toList) with
  | true => rfl
  | false =>
    rw [h hkeyword]
    exact String.ofList_toList

/-- Plain text becomes a string in single quotes with no other quote that ends it, which is read as
the text, so that different plain texts become different strings. Other text stays as it is, a
keyword without the white space around it. -/
theorem format_readBack :
    (∀ text, IsPlain text → ∃ inside, (format text).toList = '\x27' :: (inside ++ ['\x27']) ∧
      untilQuote (inside ++ ['\x27']) = some (inside, []) ∧
      decode? (elements inside) = some text.toList) ∧
    (∀ text other, IsPlain text → IsPlain other → format text = format other → text = other) ∧
    ∀ text, ¬ IsPlain text →
      format text = if isKeyword (trim text.toList) then trimmed text else text := by
  have hread (text : String) (h : IsPlain text) :
      ∃ inside, (format text).toList = '\x27' :: (inside ++ ['\x27']) ∧
        untilQuote (inside ++ ['\x27']) = some (inside, []) ∧
        decode? (elements inside) = some text.toList := by
    rw [toList_format_of_isPlain h]
    exact exists_quote text.toList
  refine ⟨hread, fun text other htext hother heq => ?_, fun _ => format_of_not_isPlain⟩
  obtain ⟨inside, hinside, -, hdecode⟩ := hread text htext
  obtain ⟨inside', hinside', -, hdecode'⟩ := hread other hother
  rw [heq, hinside'] at hinside
  have hsame : inside' = inside := by simpa using hinside
  rw [hsame, hdecode] at hdecode'
  exact String.toList_inj.mp (Option.some.inj hdecode')

/-- An emoji is read back from its two units, and a keyword is not quoted. -/
theorem format_readBack_emoji :
    IsPlain "don't 😀" ∧
      (∃ inside, (format "don't 😀").toList = '\x27' :: (inside ++ ['\x27']) ∧
        untilQuote (inside ++ ['\x27']) = some (inside, []) ∧
        decode? (elements inside) = some "don't 😀".toList) ∧
      IsPlain "don't :)" ∧
      (format "don't 😀" = format "don't :)" → "don't 😀" = "don't :)") ∧
      ¬ IsPlain " None " ∧ format " None " =
        if isKeyword (trim " None ".toList) then trimmed " None " else " None " := by
  have hemoji : IsPlain "don't 😀" := isPlain_iff.mpr (by decide +kernel)
  have hsmile : IsPlain "don't :)" := isPlain_iff.mpr (by decide +kernel)
  have hkeyword : ¬ IsPlain " None " := fun h => absurd h.keyword (by decide +kernel)
  exact ⟨hemoji, format_readBack.1 _ hemoji, hsmile, format_readBack.2.1 _ _ hemoji hsmile,
    hkeyword, format_readBack.2.2 _ hkeyword⟩

end NestedStyles.Content
