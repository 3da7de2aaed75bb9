import Mathlib.Data.List.Infix
import NestedStyles.Value.Url

/-!
# Quotes of URLs

A URL in single quotes reaches to the first single quote before a `)`, and it counts as one only if
no double quote stands in it. `Url.Doubled` says what doubling the quotes does to a text, read from
the left: a URL that begins here is taken over with its quotes doubled, and else a character as it
is. The text that a value is written as is the only one that this admits (`Url.doubled_iff`).

Such a text differs from the value in pairs of quotes only, and no URL in single quotes is left in
it, so doubling the quotes again changes nothing (`Url.requote_stable`). No URL in single quotes
reaches over a double quote. So a string in double quotes is written apart from the text around it,
and it stands as it is exactly if it holds no URL in single quotes (`Url.requote_string`); a string
that holds one is changed (`Url.requote_changes_string`).
-/

namespace NestedStyles.Url

/-! ## URLs in a text -/

/-- A URL between two quotes. -/
def written (mark : Char) (inside : List Char) : List Char :=
  'u' :: 'r' :: 'l' :: '(' :: mark :: (inside ++ [mark, ')'])

theorem length_written (mark : Char) (inside : List Char) :
    (written mark inside).length = inside.length + 7 := by
  simp [written]

theorem written_append (mark : Char) (inside text : List Char) : written mark inside ++ text =
    ['u', 'r', 'l', '('] ++ mark :: (inside ++ mark :: ')' :: text) := by
  simp [written]

/-- A URL in single quotes begins the text. -/
def Begins (text : List Char) : Prop :=
  ∃ inside, '\x22' ∉ inside ∧ written '\x27' inside <+: text

/-- A URL in single quotes stands somewhere in the text. -/
def Holds (text : List Char) : Prop :=
  ∃ inside, '\x22' ∉ inside ∧ written '\x27' inside <:+: text

/-- What stands between single quotes that are doubled: no double quote, and no single quote before
a `)`. -/
structure IsInside (inside : List Char) : Prop where
  undoubled : '\x22' ∉ inside
  shortest : ¬ ['\x27', ')'] <:+: inside

/-- The result is the text with the quotes of its URLs in single quotes doubled, from the left. -/
inductive Doubled : List Char → List Char → Prop
  | nil : Doubled [] []
  | keep {c : Char} {text result : List Char} (hbegins : ¬ Begins (c :: text))
      (h : Doubled text result) : Doubled (c :: text) (c :: result)
  | url {inside text result : List Char} (hinside : IsInside inside) (h : Doubled text result) :
      Doubled (written '\x27' inside ++ text) (written '\x22' inside ++ result)

theorem Begins.holds {text : List Char} : Begins text → Holds text
  | ⟨inside, hinside, h⟩ => ⟨inside, hinside, h.isInfix⟩

/-- A URL in a text begins there or stands behind its first character. -/
theorem holds_cons {c : Char} {text : List Char} :
    Holds (c :: text) ↔ Begins (c :: text) ∨ Holds text := by
  simp only [Holds, Begins, List.infix_cons_iff, and_or_left, exists_or]

theorem not_holds_nil : ¬ Holds [] := by
  rintro ⟨inside, -, h⟩
  exact absurd (List.eq_nil_of_infix_nil h) (by simp [written])

/-- No double quote stands in a URL in single quotes that holds none inside. -/
theorem not_mem_written {inside : List Char} (h : '\x22' ∉ inside) :
    '\x22' ∉ written '\x27' inside := by
  simp [written, h]

/-! ## Rows without a character -/

section Row

variable {α : Type} {row front back : List α} {a : α}

/-- A row without a character ends before it. -/
theorem prefix_of_not_mem (hrow : a ∉ row) (h : row <+: front ++ a :: back) : row <+: front := by
  obtain ⟨rest, h⟩ := h
  obtain ⟨more, rfl, -⟩ | ⟨more, rfl, hback⟩ := List.append_eq_append_iff.mp h
  · exact List.prefix_append row more
  · cases more with
    | nil => simp
    | cons b more =>
      obtain ⟨rfl, -⟩ := List.cons.inj hback
      exact absurd (by simp) hrow

/-- A row without a character stands before it or behind it. -/
theorem infix_of_not_mem (hrow : a ∉ row) (h : row <:+: front ++ a :: back) :
    row <:+: front ∨ row <:+: back := by
  induction front with
  | nil =>
    obtain h | h := List.infix_cons_iff.mp h
    · have h : row <+: [] ++ a :: back := h
      exact Or.inl (prefix_of_not_mem hrow h).isInfix
    · exact Or.inr h
  | cons b front ih =>
    obtain h | h := List.infix_cons_iff.mp h
    · have h : row <+: (b :: front) ++ a :: back := h
      exact Or.inl (prefix_of_not_mem hrow h).isInfix
    · exact (ih h).imp_left fun h => h.trans (List.suffix_cons b front).isInfix

end Row

/-! ## The text that is written -/

theorem isInside_nil : IsInside [] := ⟨by simp, by simp⟩

theorem isInside_cons {c : Char} {inside : List Char} : IsInside (c :: inside) ↔
    c ≠ '\x22' ∧ (c = '\x27' → inside.head? ≠ some ')') ∧ IsInside inside := by
  have hend : ['\x27', ')'] <+: c :: inside ↔ c = '\x27' ∧ inside.head? = some ')' := by
    cases inside <;> simp [List.cons_prefix_cons, eq_comm]
  constructor
  · rintro ⟨hundoubled, hshortest⟩
    rw [List.infix_cons_iff, hend, not_or, not_and] at hshortest
    rw [List.mem_cons, not_or] at hundoubled
    exact ⟨Ne.symm hundoubled.1, hshortest.1, hundoubled.2, hshortest.2⟩
  · rintro ⟨hc, hfirst, hundoubled, hshortest⟩
    refine ⟨by simp [hundoubled, Ne.symm hc], ?_⟩
    rw [List.infix_cons_iff, hend, not_or, not_and]
    exact ⟨hfirst, hshortest⟩

/-- A URL ends where its closing quote stands before any double quote. -/
theorem closes_append {inside : List Char} (h : '\x22' ∉ inside) (back : List Char) :
    closes (inside ++ '\x27' :: ')' :: back) = true := by
  induction inside with
  | nil => rfl
  | cons c inside ih =>
    rw [List.mem_cons, not_or] at h
    rw [List.cons_append, closes.eq_def]
    split
    · rfl
    · next hc => exact absurd (List.cons.inj hc).1.symm h.1
    · next hrest => exact (List.cons.inj hrest).2 ▸ ih h.2
    · next hnil => exact absurd hnil (by simp)

/-- The end that is found is the first one. -/
theorem exists_of_closes {text : List Char} (h : closes text = true) :
    ∃ inside back, IsInside inside ∧ text = inside ++ '\x27' :: ')' :: back := by
  fun_induction closes text with
  | case1 back => exact ⟨[], back, isInside_nil, rfl⟩
  | case2 => exact absurd h (by simp)
  | case3 c rest hend hdouble ih =>
    obtain ⟨inside, back, hinside, rfl⟩ := ih h
    refine ⟨c :: inside, back, isInside_cons.mpr ⟨hdouble, ?_, hinside⟩, rfl⟩
    rintro rfl hfirst
    cases inside with
    | nil => simp at hfirst
    | cons d inside =>
      obtain rfl := Option.some.inj hfirst
      exact hend _ rfl rfl
  | case4 => exact absurd h (by simp)

/-- A URL in single quotes begins a text exactly if one with the first possible end does. -/
theorem begins_iff {text : List Char} : Begins text ↔
    ∃ inside back, IsInside inside ∧ text = written '\x27' inside ++ back := by
  constructor
  · rintro ⟨inside, hinside, back, rfl⟩
    obtain ⟨first, rest, hfirst, hrest⟩ := exists_of_closes (closes_append hinside back)
    refine ⟨first, rest, hfirst, ?_⟩
    simp [written, hrest]
  · rintro ⟨inside, back, hinside, rfl⟩
    exact ⟨inside, hinside.undoubled, List.prefix_append _ _⟩

theorem opens_iff {text : List Char} : opens text = true ↔ Begins text := by
  rw [begins_iff]
  constructor
  · intro h
    unfold opens at h
    split at h
    · obtain ⟨inside, back, hinside, rfl⟩ := exists_of_closes h
      exact ⟨inside, back, hinside, by simp [written]⟩
    · exact absurd h (by simp)
  · rintro ⟨inside, back, hinside, rfl⟩
    have hcloses := closes_append hinside.undoubled back
    simpa [written, opens] using hcloses

theorem requoteFrom_keep {c : Char} {text : List Char} (h : ¬ Begins (c :: text)) :
    requoteFrom .outside (c :: text) = c :: requoteFrom .outside text := by
  rw [requoteFrom, if_neg (mt opens_iff.mp h)]

/-- Behind the opening quote, everything up to the closing quote stays. -/
theorem requoteFrom_inside {inside : List Char} (h : IsInside inside) (text : List Char) :
    requoteFrom .inside (inside ++ '\x27' :: ')' :: text) =
      inside ++ '\x22' :: ')' :: requoteFrom .outside text := by
  induction inside with
  | nil => rfl
  | cons c inside ih =>
    obtain ⟨-, hend, hinside⟩ := isInside_cons.mp h
    have hopen : ¬ ((c == '\x27' &&
        (inside ++ '\x27' :: ')' :: text).head? == some ')') = true) := by
      rw [Bool.and_eq_true, beq_iff_eq, beq_iff_eq]
      rintro ⟨hc, hfirst⟩
      cases inside with
      | nil => simp at hfirst
      | cons d inside => exact hend hc hfirst
    rw [List.cons_append, requoteFrom, if_neg hopen, ih hinside, List.cons_append]

/-- A URL in single quotes is written in double quotes. -/
theorem requoteFrom_url {inside : List Char} (h : IsInside inside) (text : List Char) :
    requoteFrom .outside (written '\x27' inside ++ text) =
      written '\x22' inside ++ requoteFrom .outside text := by
  have hopens : opens (written '\x27' inside ++ text) = true :=
    opens_iff.mpr ⟨inside, h.undoubled, List.prefix_append _ _⟩
  have hinside := requoteFrom_inside h text
  simp only [written, List.cons_append, List.append_assoc, List.nil_append] at hopens ⊢
  simp only [requoteFrom, hopens, if_true, hinside]

/-- A text is written as the one text with doubled quotes. -/
theorem doubled_iff {text result : List Char} :
    Doubled text result ↔ requoteFrom .outside text = result := by
  constructor
  · intro h
    induction h with
    | nil => rfl
    | keep hbegins _ ih => rw [requoteFrom_keep hbegins, ih]
    | url hinside _ ih => rw [requoteFrom_url hinside, ih]
  · rintro rfl
    -- A URL is taken over as a whole, so the text behind it has no fixed length.
    induction hlength : text.length using Nat.strong_induction_on generalizing text with
    | _ n ih =>
    subst hlength
    by_cases hbegins : Begins text
    · obtain ⟨inside, back, hinside, rfl⟩ := begins_iff.mp hbegins
      rw [requoteFrom_url hinside]
      exact .url hinside (ih back.length (by simp [written]; omega) rfl)
    · cases text with
      | nil => exact .nil
      | cons c text =>
        rw [requoteFrom_keep hbegins]
        exact .keep hbegins (ih text.length (by simp) rfl)

/-! ## What is left of the text -/

/-- The two positions are those of the quotes of a URL, in single quotes in the text and in double
quotes in the result, with the same characters between them and no double quote. -/
def IsPair (text result : List Char) (i j : Nat) : Prop :=
  ∃ front inside back front' back', '\x22' ∉ inside ∧
    text = front ++ written '\x27' inside ++ back ∧
    result = front' ++ written '\x22' inside ++ back' ∧ front'.length = front.length ∧
    i = front.length + 4 ∧ j = front.length + 5 + inside.length

/-- Positions in a text and in its result move alike behind texts of one length. -/
theorem IsPair.append {text result : List Char} {i j : Nat} (h : IsPair text result i j)
    (more more' : List Char) (hlength : more'.length = more.length) :
    IsPair (more ++ text) (more' ++ result) (more.length + i) (more.length + j) := by
  obtain ⟨front, inside, back, front', back', hinside, rfl, rfl, hfront, rfl, rfl⟩ := h
  refine ⟨more ++ front, inside, back, more' ++ front', back', hinside, by simp, by simp, ?_, ?_,
    ?_⟩
  · simp [hlength, hfront]
  · simp only [List.length_append]
    omega
  · simp only [List.length_append]
    omega

/-- Two URLs between different quotes differ at the quotes only. -/
theorem getElem?_written {inside : List Char} {k : Nat}
    (h : (written '\x22' inside)[k]? ≠ (written '\x27' inside)[k]?) :
    k = 4 ∨ k = 5 + inside.length := by
  rcases k with _ | _ | _ | _ | _ | k
  iterate 4 exact absurd rfl h
  · exact Or.inl rfl
  · right
    simp only [written, List.getElem?_cons_succ, List.getElem?_append] at h
    split at h
    · exact absurd rfl h
    · next hlength =>
      have hend : k - inside.length = 0 := by
        cases hk : k - inside.length with
        | zero => rfl
        | succ n => exact absurd rfl (hk ▸ h)
      omega

namespace Doubled

variable {text result : List Char} (h : Doubled text result)

include h

/-- A character stays a character of the same size. -/
theorem utf8ByteSize : (String.ofList result).utf8ByteSize = (String.ofList text).utf8ByteSize := by
  have hcons (c : Char) (text : List Char) :
      (String.ofList (c :: text)).utf8ByteSize =
        c.utf8Size + (String.ofList text).utf8ByteSize := by
    rw [← List.singleton_append, String.ofList_append, String.utf8ByteSize_append]
    simp
  induction h with
  | nil => rfl
  | keep _ _ ih => rw [hcons, hcons, ih]
  | @url inside text result _ _ ih =>
    have hquote : ('\x22').utf8Size = ('\x27').utf8Size := rfl
    simp only [written, List.cons_append, List.append_assoc, List.nil_append, hcons,
      String.ofList_append, String.utf8ByteSize_append, hquote, ih]

/-- The result has no other new character than a double quote. -/
theorem not_mem {c : Char} (hc : c ≠ '\x22') (hmem : c ∉ text) : c ∉ result := by
  induction h with
  | nil => exact hmem
  | keep _ _ ih =>
    rw [List.mem_cons, not_or] at hmem ⊢
    exact ⟨hmem.1, ih hmem.2⟩
  | @url inside _ _ _ _ ih =>
    simp only [written, List.mem_append, List.mem_cons, not_or] at hmem ⊢
    grind

/-- Where the result differs from the text, it has one quote of a pair. -/
theorem exists_pair {k : Nat} (hk : result[k]? ≠ text[k]?) :
    ∃ i j, IsPair text result i j ∧ (k = i ∨ k = j) := by
  induction h generalizing k with
  | nil => exact absurd rfl hk
  | @keep c text result hbegins h ih =>
    cases k with
    | zero => exact absurd rfl hk
    | succ k =>
      rw [List.getElem?_cons_succ, List.getElem?_cons_succ] at hk
      obtain ⟨i, j, hpair, hij⟩ := ih hk
      exact ⟨1 + i, 1 + j, hpair.append [c] [c] rfl, by omega⟩
  | @url inside text result hinside h ih =>
    have hlength : (written '\x22' inside).length = (written '\x27' inside).length := by
      rw [length_written, length_written]
    by_cases hfront : k < (written '\x27' inside).length
    · rw [List.getElem?_append_left (by omega), List.getElem?_append_left hfront] at hk
      refine ⟨4, 5 + inside.length, ?_, getElem?_written hk⟩
      exact ⟨[], inside, text, [], result, hinside.undoubled, rfl, rfl, rfl, rfl, by simp⟩
    · rw [List.getElem?_append_right (by omega), List.getElem?_append_right (by omega),
        hlength] at hk
      obtain ⟨i, j, hpair, hij⟩ := ih hk
      exact ⟨_, _, hpair.append _ _ hlength, by omega⟩

/-- A beginning of the result without a double quote is one of the text. -/
theorem prefix_text {row : List Char} (hrow : '\x22' ∉ row) (hresult : row <+: result) :
    row <+: text := by
  induction h generalizing row with
  | nil => exact hresult
  | @keep c text result hbegins h ih =>
    cases row with
    | nil => exact List.nil_prefix
    | cons d row =>
      rw [List.mem_cons, not_or] at hrow
      rw [List.cons_prefix_cons] at hresult ⊢
      exact ⟨hresult.1, ih hrow.2 hresult.2⟩
  | @url inside text result hinside h ih =>
    rw [written_append] at hresult ⊢
    exact (prefix_of_not_mem hrow hresult).trans (List.prefix_append _ _)

/-- No URL in single quotes is left. -/
theorem not_holds : ¬ Holds result := by
  induction h with
  | nil => exact not_holds_nil
  | @keep c text result hbegins h ih =>
    rw [holds_cons, not_or]
    refine ⟨?_, ih⟩
    rintro ⟨inside, hinside, hresult⟩
    exact hbegins ⟨inside, hinside,
      (keep hbegins h).prefix_text (not_mem_written hinside) hresult⟩
  | @url inside text result hinside h ih =>
    rintro ⟨other, hother, hinfix⟩
    -- The new double quotes part the result, and no URL in single quotes reaches over one.
    rw [written_append] at hinfix
    obtain hname | hinfix := infix_of_not_mem (not_mem_written hother) hinfix
    · have hlength := hname.length_le
      rw [length_written, List.length_cons] at hlength
      simp at hlength
    obtain hwithin | hinfix := infix_of_not_mem (not_mem_written hother) hinfix
    · have hend : ['\x27', ')'] <:+: written '\x27' other :=
        (List.suffix_append ('u' :: 'r' :: 'l' :: '(' :: '\x27' :: other) ['\x27', ')']).isInfix
      exact hinside.shortest (hend.trans hwithin)
    · obtain hbegins | hbehind := List.infix_cons_iff.mp hinfix
      · exact absurd (List.cons_prefix_cons.mp hbegins).1 (by decide)
      · exact ih ⟨other, hother, hbehind⟩

end Doubled

theorem doubled_requote (value : String) : Doubled value.toList (requote value).toList :=
  doubled_iff.mpr (by rw [requote, String.toList_ofList])

/-- A text stays as it is exactly if it holds no URL in single quotes. -/
theorem requoteFrom_eq_self {text : List Char} :
    requoteFrom .outside text = text ↔ ¬ Holds text := by
  constructor
  · exact fun h => (doubled_iff.mpr h).not_holds
  · intro h
    induction text with
    | nil => rfl
    | cons c text ih =>
      rw [holds_cons, not_or] at h
      rw [requoteFrom_keep h.1, ih h.2]

/-- Doubling the quotes of the URLs in a value keeps its length, in characters and in bytes, and
changes it in quotes of URLs only, both quotes of each. No URL in single quotes is left, so doing it
again changes nothing. -/
theorem requote_stable (value : String) :
    (requote value).length = value.length ∧ (requote value).utf8ByteSize = value.utf8ByteSize ∧
      Doubled value.toList (requote value).toList ∧
      (∀ k : Nat, (requote value).toList[k]? ≠ value.toList[k]? →
        ∃ i j, IsPair value.toList (requote value).toList i j ∧ (k = i ∨ k = j)) ∧
      requote (requote value) = requote value ∧ ¬ Holds (requote value).toList := by
  have hdoubled := doubled_requote value
  have hbytes := hdoubled.utf8ByteSize
  rw [String.ofList_toList, String.ofList_toList] at hbytes
  refine ⟨?_, hbytes, hdoubled, fun k => hdoubled.exists_pair, ?_, hdoubled.not_holds⟩
  · rw [← String.length_toList, ← String.length_toList, requote, String.toList_ofList,
      length_requoteFrom]
  · rw [requote, requoteFrom_eq_self.mpr hdoubled.not_holds, String.ofList_toList]

/-- A URL that another one stands in, and one that a double quote parts. -/
example : requote "url('a url('b') url('c\x22d')" = "url(\x22a url('b\x22) url('c\x22d')" := by
  decide

/-! ## Strings in a value -/

/-- A URL in single quotes does not reach over a double quote. -/
theorem begins_append_cons {front back : List Char} :
    Begins (front ++ '\x22' :: back) ↔ Begins front := by
  constructor
  · rintro ⟨inside, hinside, h⟩
    exact ⟨inside, hinside, prefix_of_not_mem (not_mem_written hinside) h⟩
  · rintro ⟨inside, hinside, h⟩
    exact ⟨inside, hinside, h.trans (List.prefix_append _ _)⟩

theorem Doubled.append_cons {front front' back back' : List Char} (hfront : Doubled front front')
    (hback : Doubled back back') :
    Doubled (front ++ '\x22' :: back) (front' ++ '\x22' :: back') := by
  induction hfront with
  | nil =>
    refine .keep ?_ hback
    rw [← List.nil_append ('\x22' :: back), begins_append_cons]
    exact fun h => not_holds_nil h.holds
  | @keep c text result hbegins _ ih =>
    refine .keep ?_ ih
    have hparts : Begins (c :: text ++ '\x22' :: back) ↔ Begins (c :: text) := begins_append_cons
    rwa [← hparts] at hbegins
  | url hinside _ ih =>
    rw [List.append_assoc, List.append_assoc]
    exact .url hinside ih

/-- A double quote parts a text into two that are written apart from each other. -/
theorem requoteFrom_append_cons (front back : List Char) :
    requoteFrom .outside (front ++ '\x22' :: back) =
      requoteFrom .outside front ++ '\x22' :: requoteFrom .outside back :=
  doubled_iff.mp ((doubled_iff.mpr rfl).append_cons (doubled_iff.mpr rfl))

/-- Text without a double quote. -/
structure Plain where
  chars : List Char
  undoubled : '\x22' ∉ chars

/-- A string in double quotes, without an escape. -/
structure DoubleString where
  inside : List Char
  undoubled : '\x22' ∉ inside
  unescaped : '\\' ∉ inside

/-- A string with its quotes. -/
def DoubleString.chars (string : DoubleString) : List Char :=
  '\x22' :: (string.inside ++ ['\x22'])

/-- The value of a text and of strings, each with the text behind it. -/
def ofStrings (first : Plain) (strings : List (DoubleString × Plain)) : String :=
  String.ofList (first.chars ++ strings.flatMap fun part => part.1.chars ++ part.2.chars)

/-- The part stands in the value at the position. -/
def StandsAt (value : String) (position : Nat) (part : List Char) : Prop :=
  part <+: value.toList.drop position

instance (value : String) (position : Nat) (part : List Char) :
    Decidable (StandsAt value position part) :=
  inferInstanceAs (Decidable (part <+: value.toList.drop position))

theorem toList_ofStrings_append (first : Plain) (front back : List (DoubleString × Plain))
    (string : DoubleString) (behind : Plain) :
    ∃ more, (ofStrings first (front ++ (string, behind) :: back)).toList =
      (ofStrings first front).toList ++ '\x22' :: (string.inside ++ '\x22' :: more) := by
  refine ⟨behind.chars ++ back.flatMap fun part => part.1.chars ++ part.2.chars, ?_⟩
  simp [ofStrings, DoubleString.chars]

/-- A string stays in its place with the quotes of the URLs in it doubled. -/
theorem drop_requote {value : String} {front inside back : List Char}
    (h : value.toList = front ++ '\x22' :: (inside ++ '\x22' :: back)) :
    (requote value).toList.drop front.length =
      '\x22' :: (requoteFrom .outside inside ++ '\x22' :: requoteFrom .outside back) := by
  rw [requote, String.toList_ofList, h, requoteFrom_append_cons, requoteFrom_append_cons,
    List.drop_left' (length_requoteFrom .outside front)]

/-- A string in double quotes, among other strings and text, stands where it is and as it is exactly
if it holds no URL in single quotes. -/
theorem requote_string (first : Plain) (front back : List (DoubleString × Plain))
    (string : DoubleString) (behind : Plain) :
    StandsAt (ofStrings first (front ++ (string, behind) :: back))
        (ofStrings first front).length string.chars ∧
      (StandsAt (requote (ofStrings first (front ++ (string, behind) :: back)))
          (ofStrings first front).length string.chars ↔ ¬ Holds string.inside) := by
  obtain ⟨more, hmore⟩ := toList_ofStrings_append first front back string behind
  have hlength := length_requoteFrom .outside string.inside
  constructor
  · rw [StandsAt, hmore, ← String.length_toList, List.drop_left, DoubleString.chars]
    exact ⟨more, by simp⟩
  · rw [StandsAt, ← String.length_toList, drop_requote hmore, DoubleString.chars,
      List.cons_prefix_cons, ← requoteFrom_eq_self]
    constructor
    · rintro ⟨-, rest, hrest⟩
      rw [List.append_assoc] at hrest
      exact (List.append_inj hrest hlength.symm).1.symm
    · intro hsame
      exact ⟨rfl, requoteFrom .outside more, by rw [hsame, List.append_assoc]; rfl⟩

/-- A string that holds a URL in single quotes. -/
def linked : DoubleString := ⟨['u', 'r', 'l', '(', '\x27', 'x', '\x27', ')'], by decide, by decide⟩

/-- The string is changed: its inside is then in double quotes, which end it. -/
theorem requote_changes_string :
    StandsAt (ofStrings ⟨[], by decide⟩ [(linked, ⟨[], by decide⟩)]) 0 linked.chars ∧
      ¬ StandsAt (requote (ofStrings ⟨[], by decide⟩ [(linked, ⟨[], by decide⟩)])) 0
        linked.chars := by
  decide

end NestedStyles.Url
