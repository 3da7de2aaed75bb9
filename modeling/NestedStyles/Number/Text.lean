import NestedStyles.Number.Shortest

/-!
# Numbers as text

A number is written with the fewest digits that read back and never with an exponent. Messages
about a JSON text use another form: it shows that the number is not an integer and takes an
exponent, which has a sign, from `10 ^ 16` on and below `10 ^ -5`.
-/

namespace NestedStyles

/-- As many zeros as `n` says, none if it is negative. -/
def zeros (n : Int) : List Char := List.replicate n.toNat '0'

/-- The digits with a point after the first `whole` of them, which may lie outside the digits. -/
def pointed (digits : List Char) (whole : Int) : List Char :=
  if whole ≤ 0 then ['0', '.'] ++ zeros (-whole) ++ digits
  else if digits.length ≤ whole then digits ++ zeros (whole - digits.length)
  else digits.take whole.toNat ++ '.' :: digits.drop whole.toNat

/-- A minus sign for negative numbers. -/
def minusSign (negative : Bool) : List Char := if negative then ['-'] else []

namespace Decimal

/-- The digits of the numeral, first digit first. -/
def figures (d : Decimal) : List Char := Nat.toDigits 10 d.digits

/-- How many digits of the numeral stand before the point. -/
def whole (d : Decimal) : Int := d.figures.length + d.exponent

/-- The numeral without an exponent. -/
def positional (d : Decimal) : List Char := minusSign d.negative ++ pointed d.figures d.whole

/-- An integer with its sign, also if it is positive. -/
def signed (n : Int) : List Char :=
  (if n < 0 then '-' else '+') :: Nat.toDigits 10 n.natAbs

/-- The numeral with a point or an exponent: an exponent from `10 ^ 16` on and below `10 ^ -5`, and
else a point, with a zero behind it if need be. -/
def fractional (d : Decimal) : List Char :=
  if -5 < d.whole ∧ d.whole ≤ 16 then
    d.positional ++ (if 0 ≤ d.exponent then ['.', '0'] else [])
  else
    minusSign d.negative ++ d.figures.take 1 ++
      (match d.figures.drop 1 with
        | [] => []
        | more => '.' :: more) ++
      'e' :: signed (d.whole - 1)

end Decimal

namespace Number

/-- The number in text, without an exponent. Zero keeps its sign. -/
def text : Number → String
  | .nan => "NaN"
  | .infinite negative => String.ofList (minusSign negative ++ ['i', 'n', 'f'])
  | .finite negative significand exponent =>
    String.ofList <|
      if significand = 0 then minusSign negative ++ ['0']
      else (shortest .up negative significand exponent).positional

/-- The number in CSS: as in text, but zero has no sign. -/
def css : Number → String
  | .finite _ 0 _ => "0"
  | n => n.text

/-- The number as a message about a JSON text names it. -/
def fractionalText : Number → String
  | .finite negative significand exponent =>
    String.ofList <|
      if significand = 0 then minusSign negative ++ ['0', '.', '0']
      else (shortest .even negative significand exponent).fractional
  | n => n.text

/-- The value of a run of decimal digits. -/
def digitsValue (digits : List Char) : Nat :=
  digits.foldl (fun n c => 10 * n + (c.toNat - '0'.toNat)) 0

/-- A sign and what follows it. -/
def readSign : List Char → Bool × List Char
  | '-' :: rest => (true, rest)
  | '+' :: rest => (false, rest)
  | rest => (false, rest)

/-- The exponent part of a numeral, which may be missing. -/
def readExponent? : List Char → Option Int
  | [] => some 0
  | e :: rest =>
    let (negative, digits) := readSign rest
    if (e == 'e' || e == 'E') && !digits.isEmpty && digits.all Char.isDigit then
      some (if negative then -(digitsValue digits : Int) else digitsValue digits)
    else none

/-- The fraction behind a point, without the point, and what follows it. -/
def readFraction : List Char → List Char × List Char
  | '.' :: rest => rest.span Char.isDigit
  | rest => ([], rest)

/-- Reads the text of a number. An exponent is accepted and any number of digits, at least one. The
letters of a number that is not finite may have either case. -/
def read? (s : String) : Option Number :=
  let (negative, magnitude) := readSign s.toList
  match String.ofList (magnitude.map Char.toLower) with
  | "nan" => some .nan
  | "inf" | "infinity" => some (.infinite negative)
  | _ =>
    let (whole, rest) := magnitude.span Char.isDigit
    let (fraction, rest) := readFraction rest
    if whole.isEmpty && fraction.isEmpty then none
    else (readExponent? rest).map fun exponent =>
      ofDecimal ⟨negative, digitsValue (whole ++ fraction), exponent - fraction.length⟩

end Number

end NestedStyles
