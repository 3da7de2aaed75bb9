import NestedStyles.Text.CaseTable

/-!
# Letter case

The Unicode properties `Uppercase` and `Lowercase`, and the lowercase form of an uppercase
character, which may be more than one character.
-/

namespace NestedStyles.Text

/-- `n` stands in one of the runs. -/
def inRuns (runs : List (Nat × Nat × Nat)) (n : Nat) : Bool :=
  runs.any fun (first, last, step) => first ≤ n && n ≤ last && (n - first) % step == 0

/-- The Unicode property `Uppercase`. -/
def isUpper (c : Char) : Bool :=
  if c.toNat < 0x80 then c.isUpper else inRuns upperRuns c.toNat

/-- The Unicode property `Lowercase`. -/
def isLower (c : Char) : Bool :=
  if c.toNat < 0x80 then c.isLower else inRuns lowerRuns c.toNat

/-- The lowercase form of an uppercase character. Any other character is its own. -/
def lowercase (c : Char) : List Char :=
  if c.toNat < 0x80 then [c.toLower]
  else if c.toNat = 0x130 then ['i', Char.ofNat 0x307]
  else
    match loweringRuns.find? fun (first, last, step, _) =>
        first ≤ c.toNat && c.toNat ≤ last && (c.toNat - first) % step == 0 with
    | some (_, _, _, distance) => [Char.ofNat (c.toNat + distance).toNat]
    | none => [c]

end NestedStyles.Text
