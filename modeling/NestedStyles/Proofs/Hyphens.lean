import NestedStyles.Proofs.VisibleEnd

/-!
# Hyphens of a property name

A name is made of a key by two kinds of changes (`Property.Hyphenated`): a capital gives way to its
lowercase form, and a hyphen is put between two characters that are none
(`Property.hyphenated_kebab`). So the hyphens of the key stay, those in front of it in front, and none
is put next to another (`Property.name_hyphenated`).
-/

namespace NestedStyles.Property

open Text

/-! ## The changes -/

/-- The lowercase form of a capital, and any other character itself. -/
def lowered (c : Char) : List Char := if isUpper c then lowercase c else [c]

/-- The second text is the first one, which stands behind the given character, with capitals lowered
and with hyphens between some characters that are none. -/
inductive Hyphenated : Option Char → List Char → List Char → Prop
  | nil (before : Option Char) : Hyphenated before [] []
  | keep (before : Option Char) {c : Char} {text result : List Char}
      (h : Hyphenated (some c) text result) : Hyphenated before (c :: text) (lowered c ++ result)
  | insert {b c : Char} {text result : List Char} (hb : b ≠ '-') (hc : c ≠ '-')
      (h : Hyphenated (some c) text result) :
      Hyphenated (some b) (c :: text) ('-' :: lowered c ++ result)

/-- The lengths of the rows of two hyphens or more, if `n` hyphens stand right before the text. -/
def longRows (n : Nat) : List Char → List Nat
  | [] => [n].filter (1 < ·)
  | c :: text => if c = '-' then longRows (n + 1) text else [n].filter (1 < ·) ++ longRows 0 text

/-! ## Capitals -/

theorem isHyphen_toLower : ∀ n < 0x80, (Char.ofNat n == '-') = false →
    ((Char.ofNat n).toLower == '-') = false := by
  decide +kernel

/-- No run of uppercase characters is lowered to a hyphen. -/
theorem loweringRuns_no_hyphen : ∀ run ∈ loweringRuns, ∀ code ∈ [(0x2D : Nat)],
    (code : Int) < run.1 + run.2.2.2 ∨ run.2.1 + run.2.2.2 < code := by
  decide +kernel

/-- Capitals are not lowered to hyphens. -/
theorem ne_hyphen_of_mem_lowered {c d : Char} (hc : c ≠ '-') (h : d ∈ lowered c) : d ≠ '-' := by
  unfold lowered at h
  split at h
  · have hcodes : ∀ {c : Char}, (c == '-') = true → c.toNat ∈ [0x2D] := by simp +contextual
    have hd : (d == '-') = false := of_mem_lowercase hcodes (by decide) isHyphen_toLower
      (by decide) loweringRuns_no_hyphen (by simpa using hc) h
    simpa using hd
  · rw [List.mem_singleton.mp h]
    exact hc

theorem lowered_hyphen : lowered '-' = ['-'] := by decide

theorem lowered_ne_nil (c : Char) : lowered c ≠ [] := by
  unfold lowered
  split
  · exact lowercase_ne_nil c
  · simp

theorem lowered_of_not_upper {c : Char} (h : isUpper c = false) : lowered c = [c] := by
  simp [lowered, h]

theorem isUpper_toLower : ∀ n < 0x80, isUpper (Char.ofNat n).toLower = false := by
  decide +kernel

/-- An ASCII character is lowered to one that is no capital. -/
theorem isUpper_of_mem_lowered {c d : Char} (hc : c.toNat < 0x80) (h : d ∈ lowered c) :
    isUpper d = false := by
  unfold lowered at h
  split at h
  · rw [lowercase, if_pos hc, List.mem_singleton] at h
    have := isUpper_toLower c.toNat hc
    rw [Char.ofNat_toNat] at this
    rwa [h]
  · next hupper =>
    rw [List.mem_singleton.mp h]
    exact Bool.eq_false_iff.mpr hupper

/-! ## What the changes leave -/

namespace Hyphenated

variable {before : Option Char} {text result : List Char}

/-- Where nothing stands before the text anything may stand there. -/
theorem of_none (h : Hyphenated none text result) (before : Option Char) :
    Hyphenated before text result := by
  cases h with
  | nil => exact .nil before
  | keep _ h => exact .keep before h

/-- Hyphens in front of a text stay in front of it. -/
theorem append_hyphens (h : Hyphenated none text result) {front : List Char}
    (hall : ∀ c ∈ front, c = '-') (before : Option Char) :
    Hyphenated before (front ++ text) (front ++ result) := by
  induction front generalizing before with
  | nil => exact h.of_none before
  | cons c front ih =>
    obtain rfl : c = '-' := hall c (by simp)
    have hrest := ih (fun d hd => hall d (by simp [hd])) (some '-')
    have hkeep := Hyphenated.keep before hrest
    rwa [lowered_hyphen] at hkeep

/-- Without the hyphens the text is that of the key, in lowercase. -/
theorem filter (h : Hyphenated before text result) :
    result.filter (· != '-') = (text.filter (· != '-')).flatMap lowered := by
  have hlowered (c : Char) :
      (lowered c).filter (· != '-') = ([c].filter (· != '-')).flatMap lowered := by
    by_cases hc : c = '-'
    · subst hc
      decide
    · have hall : ∀ d ∈ lowered c, (d != '-') = true := fun d hd => by
        simpa using ne_hyphen_of_mem_lowered hc hd
      simp [List.filter_eq_self.mpr hall, hc]
  induction h with
  | nil => rfl
  | @keep _ c text result h ih =>
    rw [List.filter_append, ih, hlowered, ← List.flatMap_append, ← List.filter_append]
    rfl
  | @insert b c text result hb hc h ih =>
    rw [List.cons_append, List.filter_cons_of_neg (by simp), List.filter_append, ih, hlowered,
      ← List.flatMap_append, ← List.filter_append]
    rfl

/-- At the start of a key, and behind hyphens there, no hyphen is put. -/
theorem takeWhile (h : Hyphenated before text result) (hbefore : ∀ b ∈ before, b = '-') :
    result.takeWhile (· == '-') = text.takeWhile (· == '-') := by
  induction h with
  | nil => rfl
  | @keep _ c text result h ih =>
    by_cases hc : c = '-'
    · subst hc
      rw [lowered_hyphen, List.singleton_append, List.takeWhile_cons_of_pos (by decide),
        List.takeWhile_cons_of_pos (by decide), ih (by simp)]
    · obtain ⟨d, rest, hd⟩ := List.exists_cons_of_ne_nil (lowered_ne_nil c)
      have hne : d ≠ '-' := ne_hyphen_of_mem_lowered hc (by simp [hd])
      rw [hd, List.cons_append, List.takeWhile_cons_of_neg (by simpa using hne),
        List.takeWhile_cons_of_neg (by simpa using hc)]
  | insert hb => exact absurd (hbefore _ rfl) hb

theorem longRows_append {row : List Char} (hrow : ∀ c ∈ row, c ≠ '-') (hne : row ≠ [])
    (n : Nat) (text : List Char) :
    longRows n (row ++ text) = [n].filter (1 < ·) ++ longRows 0 text := by
  induction row generalizing n with
  | nil => exact absurd rfl hne
  | cons c row ih =>
    rw [List.cons_append, longRows, if_neg (hrow c (by simp))]
    by_cases hnil : row = []
    · rw [hnil, List.nil_append]
    · rw [ih (fun d hd => hrow d (by simp [hd])) hnil]
      rfl

/-- The rows of two hyphens or more stay as they are. -/
theorem longRows_eq (h : Hyphenated before text result) {n : Nat}
    (hn : ∀ b ∈ before, b ≠ '-' → n = 0) : longRows n result = longRows n text := by
  have hlowered {c : Char} (hc : c ≠ '-') (n : Nat) (text : List Char) :
      longRows n (lowered c ++ text) = [n].filter (1 < ·) ++ longRows 0 text :=
    longRows_append (fun _ => ne_hyphen_of_mem_lowered hc) (lowered_ne_nil c) n text
  induction h generalizing n with
  | nil => rfl
  | @keep _ c text result h ih =>
    by_cases hc : c = '-'
    · subst hc
      rw [lowered_hyphen, List.singleton_append, longRows, longRows, if_pos rfl, if_pos rfl,
        ih (by simp)]
    · rw [hlowered hc, longRows, if_neg hc, ih (by simp)]
  | @insert b c text result hb hc h ih =>
    -- A hyphen that is put behind another character makes a row of one.
    obtain rfl := hn b rfl hb
    rw [List.cons_append, longRows, if_pos rfl, hlowered hc, longRows, if_neg hc, ih (by simp)]
    rfl

end Hyphenated

/-! ## Names -/

theorem ne_hyphen_of_startsWord {b : Char} {after : Option Char}
    (h : startsWord (some b) after = true) : b ≠ '-' := by
  rintro rfl
  exact absurd h (by simp [startsWord, isLower, isUpper])

theorem hyphenated_hyphenate (before : Option Char) (text : List Char) :
    Hyphenated before text (hyphenate before text) := by
  induction text generalizing before with
  | nil => exact .nil before
  | cons c text ih =>
    have hrest := ih (some c)
    rw [hyphenate]
    split
    · next hupper =>
      have hlowered : lowered c = lowercase c := if_pos hupper
      rw [← hlowered]
      split
      · next hstarts =>
        cases before with
        | none => exact absurd hstarts (by simp [startsWord])
        | some b =>
          have hc : c ≠ '-' := by
            rintro rfl
            exact absurd hupper (by decide)
          exact .insert (ne_hyphen_of_startsWord hstarts) hc hrest
      · exact .keep before hrest
    · next hupper =>
      have hkeep := Hyphenated.keep before hrest
      rwa [lowered_of_not_upper (Bool.eq_false_iff.mpr hupper)] at hkeep

/-- A name is its key with capitals lowered and with hyphens between characters that are none. -/
theorem hyphenated_kebab (key : List Char) : Hyphenated none key (kebab key) := by
  have hsplit : key.takeWhile (· == '-') ++ key.dropWhile (· == '-') = key :=
    List.takeWhile_append_dropWhile
  have hrest := hyphenated_hyphenate none (key.dropWhile (· == '-'))
  have hfront : ∀ c ∈ key.takeWhile (· == '-'), c = '-' :=
    fun c hc => by simpa using List.all_eq_true.mp List.all_takeWhile c hc
  have happend := hrest.append_hyphens hfront none
  rwa [hsplit] at happend

/-- A key without capitals stays as it is. -/
theorem kebab_of_no_upper {key : List Char} (h : ∀ c ∈ key, isUpper c = false) :
    kebab key = key := by
  have hhyphenate : ∀ (before : Option Char) {text : List Char},
      (∀ c ∈ text, isUpper c = false) → hyphenate before text = text := by
    intro before text
    induction text generalizing before with
    | nil => exact fun _ => rfl
    | cons c text ih =>
      intro htext
      rw [hyphenate, htext c (by simp), if_neg (by simp),
        ih (some c) fun d hd => htext d (by simp [hd])]
  rw [kebab, hhyphenate none fun c hc => h c ((List.dropWhile_suffix _).mem hc),
    List.takeWhile_append_dropWhile]

/-- The name of an ASCII key has no capitals. -/
theorem isUpper_of_mem_hyphenated {before : Option Char} {text result : List Char}
    (h : Hyphenated before text result) (hascii : ∀ c ∈ text, c.toNat < 0x80) :
    ∀ c ∈ result, isUpper c = false := by
  induction h with
  | nil => simp
  | @keep _ c text result h ih =>
    intro d hd
    rcases List.mem_append.mp hd with hd | hd
    · exact isUpper_of_mem_lowered (hascii c (by simp)) hd
    · exact ih (fun e he => hascii e (by simp [he])) d hd
  | @insert b c text result hb hc h ih =>
    intro d hd
    rcases List.mem_cons.mp hd with rfl | hd
    · decide
    · rcases List.mem_append.mp hd with hd | hd
      · exact isUpper_of_mem_lowered (hascii c (by simp)) hd
      · exact ih (fun e he => hascii e (by simp [he])) d hd

/-- The name of a key begins with the hyphens of the key. Without its hyphens it is the key without
hyphens in lowercase; a hyphen is put only between two characters that are none, so that the rows of
two hyphens or more are those of the key. The name of an ASCII key has no capitals and is its own
name, and a key without capitals is its own name too. -/
theorem name_hyphenated (key : String) :
    (name key).toList.takeWhile (· == '-') = key.toList.takeWhile (· == '-') ∧
      (name key).toList.filter (· != '-') =
        (key.toList.filter (· != '-')).flatMap (fun c => if isUpper c then lowercase c else [c]) ∧
      Hyphenated none key.toList (name key).toList ∧
      longRows 0 (name key).toList = longRows 0 key.toList ∧
      ((∀ c ∈ key.toList, c.toNat < 0x80) →
        (∀ c ∈ (name key).toList, isUpper c = false) ∧ name (name key) = name key) ∧
      ((∀ c ∈ key.toList, isUpper c = false) → name key = key) := by
  have hname : (name key).toList = kebab key.toList := String.toList_ofList
  have h := hyphenated_kebab key.toList
  rw [hname]
  refine ⟨h.takeWhile (by simp), h.filter, h, h.longRows_eq (by simp), fun hascii => ?_,
    fun hupper => ?_⟩
  · have hlower := isUpper_of_mem_hyphenated h hascii
    refine ⟨hlower, ?_⟩
    rw [name, hname, kebab_of_no_upper hlower]
    rfl
  · rw [name, kebab_of_no_upper hupper, String.ofList_toList]

/-- Capitals in a row behind hyphens, and a key without capitals. -/
theorem name_hyphenated_acronym :
    ((∀ c ∈ "--XMLParser".toList, c.toNat < 0x80) ∧
      (∀ c ∈ (name "--XMLParser").toList, isUpper c = false) ∧
      name (name "--XMLParser") = name "--XMLParser") ∧
    (∀ c ∈ "grid-área".toList, isUpper c = false) ∧ name "grid-área" = "grid-área" := by
  have hascii : ∀ c ∈ "--XMLParser".toList, c.toNat < 0x80 := by simp
  have hlower : ∀ c ∈ "grid-área".toList, isUpper c = false := by
    have hall : "grid-área".toList.all (fun c => !isUpper c) = true := by decide +kernel
    simpa using hall
  obtain ⟨-, -, -, -, hname, -⟩ := name_hyphenated "--XMLParser"
  obtain ⟨-, -, -, -, -, hsame⟩ := name_hyphenated "grid-área"
  exact ⟨⟨hascii, hname hascii⟩, hlower, hsame hlower⟩

end NestedStyles.Property
