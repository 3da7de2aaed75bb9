/-!
# UTF-16 units and hexadecimal digits

A character is one unit of 16 bits or, from U+10000 on, a high unit and a low unit.
-/

namespace NestedStyles.Text

/-- The UTF-16 units of a character. -/
def units (c : Char) : List Nat :=
  if c.toNat < 0x10000 then [c.toNat]
  else [0xD800 + (c.toNat - 0x10000) / 0x400, 0xDC00 + (c.toNat - 0x10000) % 0x400]

/-- The units of a character fit 16 bits. -/
theorem lt_of_mem_units {c : Char} {u : Nat} (h : u ∈ units c) : u < 0x10000 := by
  have hc : c.toNat < 0x110000 := by
    have := c.valid
    simp only [UInt32.isValidChar, Nat.isValidChar, Char.toNat] at *
    omega
  unfold units at h
  split at h <;> simp at h <;> omega

/-- A unit as four lowercase hexadecimal digits. -/
def fourHex (u : Nat) : List Char :=
  [u / 0x1000 % 16, u / 0x100 % 16, u / 0x10 % 16, u % 16].map Nat.digitChar

/-- A number in lowercase hexadecimal digits, without leading zeros. -/
def hex (n : Nat) : List Char := Nat.toDigits 16 n

end NestedStyles.Text
