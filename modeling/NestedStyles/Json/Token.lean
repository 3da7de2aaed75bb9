import NestedStyles.Json.Basic

/-!
# Tokens of a JSON text

A JSON text is a sequence of tokens with white space between them. `Token.ofChars` reads tokens to
the end of the text or up to a character that begins none, where `Token.bad` stands for the rest.
-/

namespace NestedStyles.Json

/-- A token of a JSON text. -/
inductive Token where
  | openObject
  | closeObject
  | openList
  | closeList
  | comma
  | colon
  /-- A value that holds no other: a number, a string or a literal name. -/
  | scalar (value : Json)
  /-- No token begins here. -/
  | bad

namespace Token

/-- A character of a string, or a 16-bit unit that is escaped by its code. -/
inductive Element where
  | char (c : Char)
  | unit (u : Nat)

/-- The character that a letter behind a backslash stands for. -/
def escape? (c : Char) : Option Char :=
  match c with
  | '\x22' => some '\x22'
  | '\\' => some '\\'
  | '/' => some '/'
  | 'b' => some '\x08'
  | 'f' => some '\x0c'
  | 'n' => some '\n'
  | 'r' => some '\r'
  | 't' => some '\t'
  | _ => none

/-- The value of a hexadecimal digit. -/
def hexDigit? (c : Char) : Option Nat :=
  if '0' ≤ c ∧ c ≤ '9' then some (c.toNat - '0'.toNat)
  else if 'a' ≤ c ∧ c ≤ 'f' then some (c.toNat - 'a'.toNat + 10)
  else if 'A' ≤ c ∧ c ≤ 'F' then some (c.toNat - 'A'.toNat + 10)
  else none

/-- The value of four hexadecimal digits. -/
def unit? (a b c d : Char) : Option Nat := do
  return ((← hexDigit? a) * 16 + (← hexDigit? b)) * 256 + (← hexDigit? c) * 16 + (← hexDigit? d)

/-- The elements of a string up to its closing quote, and the text behind it. -/
def elements? : List Char → Option (List Element × List Char)
  | [] => none
  | '\x22' :: rest => some ([], rest)
  | '\\' :: 'u' :: a :: b :: c :: d :: rest =>
    (unit? a b c d).bind fun u => (elements? rest).map fun (more, rest) => (.unit u :: more, rest)
  | '\\' :: c :: rest =>
    (escape? c).bind fun c => (elements? rest).map fun (more, rest) => (.char c :: more, rest)
  | c :: rest =>
    if c == '\\' || c.toNat < 0x20 then none
    else (elements? rest).map fun (more, rest) => (.char c :: more, rest)

/-- The characters of a string. A high and a low surrogate unit make one character, and neither
stands alone. -/
def decode? : List Element → Option (List Char)
  | [] => some []
  | .char c :: rest => (decode? rest).map (c :: ·)
  | .unit high :: .unit low :: rest =>
    if 0xD800 ≤ high ∧ high < 0xDC00 then
      if 0xDC00 ≤ low ∧ low < 0xE000 then
        let c := Char.ofNat (0x10000 + (high - 0xD800) * 0x400 + (low - 0xDC00))
        (decode? rest).map (c :: ·)
      else none
    else if 0xDC00 ≤ high ∧ high < 0xE000 then none
    else (decode? (.unit low :: rest)).map (Char.ofNat high :: ·)
  | .unit u :: rest =>
    if 0xD800 ≤ u ∧ u < 0xE000 then none else (decode? rest).map (Char.ofNat u :: ·)

/-- One digit or more, and the text behind them. -/
def digits? (text : List Char) : Option (List Char × List Char) :=
  match text.takeWhile Char.isDigit with
  | [] => none
  | digits => some (digits, text.dropWhile Char.isDigit)

/-- The digits before the point, of which the first is a zero only if it is the only one. -/
def whole? (text : List Char) : Option (List Char × List Char) :=
  (digits? text).bind fun (digits, rest) =>
    if digits.head? == some '0' && digits.length > 1 then none else some (digits, rest)

/-- The digits behind a point, none if there is no point. -/
def fraction? : List Char → Option (List Char × List Char)
  | '.' :: rest => digits? rest
  | rest => some ([], rest)

/-- The exponent, if there is one. -/
def exponent? : List Char → Option (Option Int × List Char)
  | [] => some (none, [])
  | c :: rest =>
    if c == 'e' || c == 'E' then
      (digits? (Number.readSign rest).2).map fun (digits, behind) =>
        let n : Int := Number.digitsValue digits
        (some (if (Number.readSign rest).1 then -n else n), behind)
    else some (none, c :: rest)

/-- A number without its sign, and the text behind it. -/
def magnitude? (negative : Bool) (text : List Char) : Option (Json × List Char) := do
  let (whole, rest) ← whole? text
  let (fraction, rest) ← fraction? rest
  let (exponent, rest) ← exponent? rest
  let numeral : Numeral := { negative, whole, fraction, exponent }
  return (.number numeral.read?, rest)

/-- The text behind a literal name. -/
def behind? (name : String) (text : List Char) : Option (List Char) :=
  if name.toList.isPrefixOf text then some (text.drop name.toList.length) else none

/-- A value that holds no other, and the text behind it. -/
def scalar? : List Char → Option (Json × List Char)
  | [] => none
  | c :: rest =>
    if c == '\x22' then
      (elements? rest).map fun (elements, rest) =>
        (.text ((decode? elements).map String.ofList), rest)
    else if c == '-' then magnitude? true rest
    else if c.isDigit then magnitude? false (c :: rest)
    else if c == 'n' then (behind? "ull" rest).map (.null, ·)
    else if c == 't' then (behind? "rue" rest).map (.bool true, ·)
    else if c == 'f' then (behind? "alse" rest).map (.bool false, ·)
    else none

/-- The token of a punctuation mark. -/
def mark? (c : Char) : Option Token :=
  match c with
  | '\x7b' => some .openObject
  | '\x7d' => some .closeObject
  | '[' => some .openList
  | ']' => some .closeList
  | ',' => some .comma
  | ':' => some .colon
  | _ => none

/-- White space between tokens. -/
def isSpace (c : Char) : Bool := c == ' ' || c == '\t' || c == '\n' || c == '\r'

/-! ## Reading takes text away -/

theorem length_of_elements? {text rest : List Char} {found : List Element}
    (h : elements? text = some (found, rest)) : rest.length < text.length := by
  fun_induction elements? text generalizing found with
  | case1 => simp at h
  | case2 => simp at h; simp [h.2]
  | case3 a b c d more ih =>
    obtain ⟨_, _, h⟩ := Option.bind_eq_some_iff.1 h
    obtain ⟨⟨_, _⟩, hm, e⟩ := Option.map_eq_some_iff.1 h
    obtain ⟨_, rfl⟩ := Prod.mk.inj e
    have := ih hm
    simp only [List.length_cons]
    omega
  | case4 c more _ ih =>
    obtain ⟨_, _, h⟩ := Option.bind_eq_some_iff.1 h
    obtain ⟨⟨_, _⟩, hm, e⟩ := Option.map_eq_some_iff.1 h
    obtain ⟨_, rfl⟩ := Prod.mk.inj e
    have := ih hm
    simp only [List.length_cons]
    omega
  | case5 => simp at h
  | case6 c more _ _ _ _ ih =>
    obtain ⟨⟨_, _⟩, hm, e⟩ := Option.map_eq_some_iff.1 h
    obtain ⟨_, rfl⟩ := Prod.mk.inj e
    have := ih hm
    simp only [List.length_cons]
    omega

theorem length_of_digits? {text rest found : List Char} (h : digits? text = some (found, rest)) :
    rest.length < text.length := by
  unfold digits? at h
  split at h
  · simp at h
  · next hne =>
    obtain ⟨_, rfl⟩ := Prod.mk.inj (Option.some.inj h)
    have hl := congrArg List.length
      (List.takeWhile_append_dropWhile (p := Char.isDigit) (l := text))
    have : 0 < (text.takeWhile Char.isDigit).length := List.length_pos_iff.2 hne
    rw [List.length_append] at hl
    omega

theorem length_of_whole? {text rest found : List Char} (h : whole? text = some (found, rest)) :
    rest.length < text.length := by
  obtain ⟨⟨digits, more⟩, hd, h⟩ := Option.bind_eq_some_iff.1 h
  simp only at h
  split at h
  · simp at h
  · obtain ⟨_, rfl⟩ := Prod.mk.inj (Option.some.inj h)
    exact length_of_digits? hd

theorem length_of_fraction? {text rest found : List Char}
    (h : fraction? text = some (found, rest)) : rest.length ≤ text.length := by
  unfold fraction? at h
  split at h
  · have := length_of_digits? h
    simp only [List.length_cons]
    omega
  · simp at h
    simp [h.2]

theorem length_readSign (text : List Char) : (Number.readSign text).2.length ≤ text.length := by
  unfold Number.readSign
  split <;> simp

theorem length_of_exponent? {text rest : List Char} {found : Option Int}
    (h : exponent? text = some (found, rest)) : rest.length ≤ text.length := by
  unfold exponent? at h
  split at h
  · simp at h
    simp [h.2]
  · next c more =>
    split at h
    · obtain ⟨⟨digits, behind⟩, hd, e⟩ := Option.map_eq_some_iff.1 h
      obtain ⟨_, rfl⟩ := Prod.mk.inj e
      have := length_of_digits? hd
      have := length_readSign more
      simp only [List.length_cons]
      omega
    · simp at h
      simp [← h.2]

theorem length_of_magnitude? {negative : Bool} {text rest : List Char} {found : Json}
    (h : magnitude? negative text = some (found, rest)) : rest.length < text.length := by
  obtain ⟨⟨_, _⟩, h1, h⟩ := Option.bind_eq_some_iff.1 h
  obtain ⟨⟨_, _⟩, h2, h⟩ := Option.bind_eq_some_iff.1 h
  obtain ⟨⟨_, _⟩, h3, h⟩ := Option.bind_eq_some_iff.1 h
  obtain ⟨_, rfl⟩ := Prod.mk.inj (Option.some.inj h)
  have := length_of_whole? h1
  have := length_of_fraction? h2
  have := length_of_exponent? h3
  omega

theorem length_of_behind? {name : String} {text rest : List Char}
    (h : behind? name text = some rest) : rest.length ≤ text.length := by
  unfold behind? at h
  split at h
  · simp at h
    simp [← h]
  · simp at h

theorem length_of_scalar? {text rest : List Char} {found : Json}
    (h : scalar? text = some (found, rest)) : rest.length < text.length := by
  unfold scalar? at h
  split at h
  · simp at h
  · next c more =>
    simp only [List.length_cons]
    split at h
    · obtain ⟨⟨_, _⟩, hm, e⟩ := Option.map_eq_some_iff.1 h
      obtain ⟨_, rfl⟩ := Prod.mk.inj e
      have := length_of_elements? hm
      omega
    · split at h
      · have := length_of_magnitude? h
        omega
      · split at h
        · have := length_of_magnitude? h
          simpa using this
        · split at h
          case isTrue =>
            obtain ⟨_, hm, e⟩ := Option.map_eq_some_iff.1 h
            obtain ⟨_, rfl⟩ := Prod.mk.inj e
            have := length_of_behind? hm
            omega
          case isFalse =>
            split at h
            case isTrue =>
              obtain ⟨_, hm, e⟩ := Option.map_eq_some_iff.1 h
              obtain ⟨_, rfl⟩ := Prod.mk.inj e
              have := length_of_behind? hm
              omega
            case isFalse =>
              split at h
              · obtain ⟨_, hm, e⟩ := Option.map_eq_some_iff.1 h
                obtain ⟨_, rfl⟩ := Prod.mk.inj e
                have := length_of_behind? hm
                omega
              · simp at h

/-! ## All tokens of a text -/

/-- The tokens of a text. -/
def ofChars : List Char → List Token
  | [] => []
  | c :: rest =>
    if isSpace c then ofChars rest
    else
      match mark? c with
      | some token => token :: ofChars rest
      | none =>
        match _h : scalar? (c :: rest) with
        | some (value, behind) => .scalar value :: ofChars behind
        | none => [.bad]
termination_by text => text.length
decreasing_by
  · simp
  · simp
  · exact length_of_scalar? _h

end Token

end NestedStyles.Json
