import NestedStyles.Proofs.SelectorText

/-!
# How a piece ends

Lowercase forms of visible characters are visible (`Text.isSpace_of_mem_lowercase`), so the piece
that a trimmed word stands for ends with a visible character. Only a combinator on its own ends with
a space, which it puts there itself (`Selector.EndsAs`, `Selector.ends_piece`).
-/

namespace NestedStyles

namespace Text

/-- The code points of white space. -/
def spaceCodes : List Nat := [
  0x9, 0xA, 0xB, 0xC, 0xD, 0x20, 0x85, 0xA0, 0x1680, 0x2000, 0x2001, 0x2002, 0x2003, 0x2004, 0x2005,
  0x2006, 0x2007, 0x2008, 0x2009, 0x200A, 0x2028, 0x2029, 0x202F, 0x205F, 0x3000]

theorem toNat_mem_spaceCodes {c : Char} (h : isSpace c = true) : c.toNat ∈ spaceCodes := by
  simp only [isSpace, Bool.or_eq_true, Bool.and_eq_true, decide_eq_true_eq, beq_iff_eq] at h
  simp only [spaceCodes, List.mem_cons, List.not_mem_nil, or_false]
  omega

/-- No run of uppercase characters is lowered to white space. -/
theorem loweringRuns_visible : ∀ run ∈ loweringRuns, ∀ code ∈ spaceCodes,
    (code : Int) < run.1 + run.2.2.2 ∨ run.2.1 + run.2.2.2 < code := by
  decide +kernel

theorem isSpace_toLower : ∀ n < 0x80, isSpace (Char.ofNat n) = false →
    isSpace (Char.ofNat n).toLower = false := by
  decide +kernel

/-- The code of a character that a number is read as is the number, or zero. -/
theorem toNat_ofNat (n : Nat) : (Char.ofNat n).toNat = n ∨ (Char.ofNat n).toNat = 0 := by
  by_cases h : n.isValidChar
  · have hchar : Char.ofNat n = Char.ofNatAux n h := dif_pos h
    exact Or.inl (hchar ▸ rfl)
  · have hchar : Char.ofNat n = '\x00' := dif_neg h
    exact Or.inr (hchar ▸ rfl)

/-- Characters of some codes are no lowercase form of others if none of them is one of an ASCII
character and the runs of uppercase characters are lowered past the codes. -/
theorem of_mem_lowercase {p : Char → Bool} {codes : List Nat}
    (hcodes : ∀ {c}, p c = true → c.toNat ∈ codes) (hzero : 0 ∉ codes)
    (hascii : ∀ n < 0x80, p (Char.ofNat n) = false → p (Char.ofNat n).toLower = false)
    (hdot : p 'i' = false ∧ p (Char.ofNat 0x307) = false)
    (hruns : ∀ run ∈ loweringRuns, ∀ code ∈ codes,
      (code : Int) < run.1 + run.2.2.2 ∨ run.2.1 + run.2.2.2 < code)
    {c d : Char} (hc : p c = false) (h : d ∈ lowercase c) : p d = false := by
  unfold lowercase at h
  split at h
  · next hsmall =>
    rw [List.mem_singleton.mp h]
    have := hascii c.toNat hsmall
    rw [Char.ofNat_toNat] at this
    exact this hc
  · split at h
    · simp only [List.mem_cons, List.not_mem_nil, or_false] at h
      rcases h with rfl | rfl
      · exact hdot.1
      · exact hdot.2
    · split at h
      · next first last step distance hrun =>
        rw [List.mem_singleton.mp h]
        refine Bool.eq_false_iff.mpr fun hp => ?_
        have hcode := hcodes hp
        have hpast := hruns _ (List.mem_of_find?_eq_some hrun) _ hcode
        have hbounds := List.find?_some hrun
        simp only [Bool.and_eq_true, decide_eq_true_eq] at hbounds hpast
        rcases toNat_ofNat (c.toNat + distance).toNat with hn | hn
        · rw [hn] at hpast hcode
          have hne : (c.toNat + distance).toNat ≠ 0 := fun hz => hzero (hz ▸ hcode)
          omega
        · exact hzero (hn ▸ hcode)
      · rw [List.mem_singleton.mp h]
        exact hc

/-- The lowercase form of a visible character is visible. -/
theorem isSpace_of_mem_lowercase {c d : Char} (hc : isSpace c = false) (h : d ∈ lowercase c) :
    isSpace d = false :=
  of_mem_lowercase toNat_mem_spaceCodes (by decide) isSpace_toLower (by decide)
    loweringRuns_visible hc h

theorem lowercase_ne_nil (c : Char) : lowercase c ≠ [] := by
  unfold lowercase
  split
  · simp
  · split
    · simp
    · split <;> simp

theorem endsVisibly_lowercase {c : Char} (hc : isSpace c = false) : EndsVisibly (lowercase c) := by
  intro d hd
  have hmem : d ∈ lowercase c := by simpa using List.mem_of_mem_head? hd
  exact isSpace_of_mem_lowercase hc hmem

end Text

open Text

namespace Property

theorem hyphenate_ne_nil (before : Option Char) (c : Char) (rest : List Char) :
    hyphenate before (c :: rest) ≠ [] := by
  unfold hyphenate
  split
  · simp [lowercase_ne_nil]
  · simp

/-- A word that ends visibly does so with hyphens and without capitals. -/
theorem endsVisibly_hyphenate : ∀ {word : List Char} (before : Option Char), EndsVisibly word →
    EndsVisibly (hyphenate before word)
  | [], _, _ => endsVisibly_nil
  | c :: rest, before, h => by
    have hrest : EndsVisibly (hyphenate (some c) rest) :=
      endsVisibly_hyphenate (some c) (h.of_back (List.suffix_cons c rest))
    cases rest with
    | nil =>
      have hc : isSpace c = false := endsVisibly_singleton.mp h
      unfold hyphenate
      split
      · rw [hyphenate, List.append_nil]
        exact (endsVisibly_lowercase hc).append (lowercase_ne_nil c) _
      · exact endsVisibly_singleton.mpr hc
    | cons d rest =>
      have hne : hyphenate (some c) (d :: rest) ≠ [] := hyphenate_ne_nil _ _ _
      unfold hyphenate
      split
      · exact hrest.append hne _
      · exact hrest.append hne [c]

theorem endsVisibly_kebab {word : List Char} (h : EndsVisibly word) : EndsVisibly (kebab word) := by
  have hword : word.takeWhile (· == '-') ++ word.dropWhile (· == '-') = word :=
    List.takeWhile_append_dropWhile
  unfold kebab
  cases hrest : word.dropWhile (· == '-') with
  | nil =>
    rw [hrest, List.append_nil] at hword
    rwa [hyphenate, List.append_nil, hword]
  | cons c rest =>
    have hback : EndsVisibly (c :: rest) := h.of_back (hrest ▸ List.dropWhile_suffix _)
    exact (endsVisibly_hyphenate none hback).append (hyphenate_ne_nil none c rest) _

end Property

namespace Selector

theorem endsVisibly_className {word : List Char} (h : EndsVisibly word) :
    EndsVisibly (className word) :=
  (Property.endsVisibly_kebab h).cons (by decide)

/-- How a selector ends behind its last piece: a combinator on its own puts a space behind itself,
and every other piece ends with a visible character. -/
inductive EndsAs : Option Piece → List Char → Prop
  | nothing : EndsAs none []
  | combinator (front : List Char) {c : Char} (hc : isSpace c = false) :
      EndsAs (some .combinator) (front ++ [c, ' '])
  | visible {kind : Piece} (hkind : kind ≠ .combinator) {text : List Char} (hne : text ≠ [])
      (hend : EndsVisibly text) : EndsAs (some kind) text

/-- A selector without a last piece is empty. -/
theorem EndsAs.eq_nil {text : List Char} (h : EndsAs none text) : text = [] := by
  cases h
  rfl

/-- What stands before the last piece does not matter. -/
theorem EndsAs.append {kind : Piece} {back : List Char} (h : EndsAs (some kind) back)
    (front : List Char) : EndsAs (some kind) (front ++ back) := by
  cases h with
  | combinator first hc =>
    rw [← List.append_assoc]
    exact EndsAs.combinator (front ++ first) hc
  | visible hkind hne hend =>
    exact EndsAs.visible hkind (List.append_ne_nil_of_right_ne_nil _ hne) (hend.append hne front)

/-- The piece that a trimmed word stands for ends as a selector does behind it. -/
theorem ends_piece {word text : List Char} {joint : Joint} {kind : Piece} (hword : EndsVisibly word)
    (h : piece? word = some (joint, text, kind)) : EndsAs (some kind) text := by
  have hclass {name : List Char} (hname : name <:+ word) :
      EndsAs (some .compound) (className name) :=
    EndsAs.visible (by decide) (by simp [className]) (endsVisibly_className (hword.of_back hname))
  unfold piece? at h
  split at h
  · simp at h
  · obtain ⟨-, rfl, rfl⟩ := by simpa using h
    exact EndsAs.visible (by decide) (by simp) hword
  · next name =>
    split at h
    · simp at h
    · obtain ⟨-, rfl, rfl⟩ := by simpa using h
      exact hclass ⟨['_', '_'], rfl⟩
  · next name _ =>
    split at h
    · simp at h
    · obtain ⟨-, rfl, rfl⟩ := by simpa using h
      exact hclass (List.suffix_cons _ _)
  · next c rest _ _ _ =>
    split at h
    · next hcombinator =>
      obtain ⟨-, rfl, rfl⟩ := by simpa using h
      by_cases hnil : trim rest = []
      · have hc : isSpace c = false := by
          simp only [Bool.or_eq_true, beq_iff_eq] at hcombinator
          rcases hcombinator with (rfl | rfl) | rfl
          · decide
          · decide
          · decide
        simpa [hnil] using EndsAs.combinator [] hc
      · have hend : EndsVisibly (trim rest) := endsVisibly_trim rest
        simpa [hnil] using
          @EndsAs.visible .compound (by decide) (c :: ' ' :: trim rest) (by simp)
            (hend.append hnil [c, ' '])
    · split at h
      · obtain ⟨-, rfl, rfl⟩ := by simpa using h
        split
        · exact EndsAs.visible (by decide) (by simp) hword
        · exact EndsAs.visible (by decide) (by simp) hword
      · split at h
        · obtain ⟨-, rfl, rfl⟩ := by simpa using h
          exact EndsAs.visible (by decide) (by simp) hword
        · obtain ⟨-, rfl, rfl⟩ := by simpa using h
          exact hclass List.suffix_rfl

end Selector

end NestedStyles
