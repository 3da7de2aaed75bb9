import NestedStyles.Proofs.Trimmed

/-!
# Well-nested text

A text is well nested if its braces match, every block in braces holds a `;`, every line is indented
by the braces that are open, no two lines in a row are blank and there is no white space around the
text (`Layout.WellNested`). `Layout.openBehind` counts the open braces from left to right; what it
counts behind one text and then behind another it counts behind both (`Layout.openBehind_append`).
-/

namespace NestedStyles

namespace Text

/-! ## Text free of some characters -/

/-- None of the characters stands in the text. -/
def Free (bad : Char → Bool) (text : List Char) : Prop := ∀ c ∈ text, bad c = false

instance (bad : Char → Bool) (text : List Char) : Decidable (Free bad text) :=
  List.decidableBAll (fun c => bad c = false) text

namespace Free

variable {bad : Char → Bool} {text front back : List Char}

theorem nil : Free bad [] := by simp [Free]

theorem cons {c : Char} (hc : bad c = false) (h : Free bad text) : Free bad (c :: text) :=
  List.forall_mem_cons.mpr ⟨hc, h⟩

theorem append (hfront : Free bad front) (hback : Free bad back) : Free bad (front ++ back) :=
  fun c hc => (List.mem_append.mp hc).elim (hfront c) (hback c)

/-- A text of characters of a free one is free. -/
theorem of_mem (h : Free bad text) (hmem : ∀ c ∈ front, c ∈ text) : Free bad front :=
  fun c hc => h c (hmem c hc)

end Free

end Text

namespace Layout

open Text

/-- A character that the layout of a stylesheet is made of: a brace or a line feed. -/
def isMark (c : Char) : Bool := c == '\x7b' || c == '\x7d' || c == '\n'

/-- No brace and no line feed stands in the text. -/
def Clean (text : List Char) : Prop := ∀ c ∈ text, isMark c = false

instance (text : List Char) : Decidable (Clean text) :=
  List.decidableBAll (fun c => isMark c = false) text

/-- The number of braces that are open behind a character, none if it closes one that is not
open. -/
def openStep (depth : Nat) (c : Char) : Option Nat :=
  if c = '\x7b' then some (depth + 1)
  else if c = '\x7d' then
    match depth with
    | 0 => none
    | outer + 1 => some outer
  else some depth

/-- The number of braces that are open behind a text if `depth` are open before it, none if the text
closes a brace that is not open. -/
def openBehind (depth : Nat) (text : List Char) : Option Nat := text.foldlM openStep depth

/-- Every block in braces holds a `;`. -/
def Filled (text : List Char) : Prop :=
  ∀ front body back, text = front ++ '\x7b' :: body ++ '\x7d' :: back →
    openBehind 0 body = some 0 → ';' ∈ body

/-- The line holds more than white space and begins with two spaces for each brace, and with no
other white space. -/
def standsAt (depth : Nat) (line : List Char) : Bool :=
  line.takeWhile isSpace == List.replicate (2 * depth) ' ' && !line.all isSpace

/-- The first visible character of the line closes a brace. -/
def closes (line : List Char) : Bool := (trimStart line).head? == some '\x7d'

/-- Every line that is not empty is indented by the braces that are open before it, or by those that
are open behind it if it begins with the end of a block. -/
def isIndented : (depth : Nat) → List (List Char) → Bool
  | _, [] => true
  | depth, line :: rest =>
    match openBehind depth line with
    | none => false
    | some behind =>
      (line.isEmpty || standsAt (if closes line then behind else depth) line) &&
        isIndented behind rest

/-- No two lines in a row are blank. -/
def isApart : List (List Char) → Bool
  | line :: next :: rest => !(line.all isSpace && next.all isSpace) && isApart (next :: rest)
  | _ => true

/-- The text is well nested. -/
structure WellNested (css : String) : Prop where
  /-- From left to right no brace is closed that is not open, and in the end all are closed. -/
  balanced : openBehind 0 css.toList = some 0
  filled : Filled css.toList
  indented : isIndented 0 (css.toList.splitOn '\n') = true
  apart : isApart (css.toList.splitOn '\n') = true
  starts : StartsVisibly css.toList
  ends : EndsVisibly css.toList

/-! ## Clean text -/

namespace Clean

variable {text front back : List Char}

theorem nil : Clean [] := Free.nil

theorem cons {c : Char} (hc : isMark c = false) (h : Clean text) : Clean (c :: text) :=
  Free.cons hc h

theorem append (hfront : Clean front) (hback : Clean back) : Clean (front ++ back) :=
  Free.append hfront hback

/-- A text of characters of a clean one is clean. -/
theorem of_mem (h : Clean text) (hmem : ∀ c ∈ front, c ∈ text) : Clean front := Free.of_mem h hmem

theorem not_mem (h : Clean text) {c : Char} (hc : isMark c = true) : c ∉ text := fun hmem => by
  rw [h c hmem] at hc
  exact absurd hc (by simp)

end Clean

/-! ## Open braces -/

theorem openBehind_cons (depth : Nat) (c : Char) (rest : List Char) :
    openBehind depth (c :: rest) = (openStep depth c).bind (openBehind · rest) := List.foldlM_cons

theorem openBehind_append (depth : Nat) (front back : List Char) :
    openBehind depth (front ++ back) = (openBehind depth front).bind (openBehind · back) :=
  List.foldlM_append

theorem openBehind_open (depth : Nat) (rest : List Char) :
    openBehind depth ('\x7b' :: rest) = openBehind (depth + 1) rest := rfl

theorem openStep_add {depth behind : Nat} {c : Char} (h : openStep depth c = some behind)
    (more : Nat) : openStep (depth + more) c = some (behind + more) := by
  unfold openStep at h ⊢
  split at h
  · next hc =>
    obtain rfl := Option.some.inj h
    rw [if_pos hc, Nat.add_right_comm]
  · next hc =>
    rw [if_neg hc]
    split at h
    · next hc =>
      rw [if_pos hc]
      cases depth with
      | zero => exact absurd h (by simp)
      | succ outer =>
        obtain rfl := Option.some.inj h
        rw [Nat.add_right_comm]
    · next hc =>
      obtain rfl := Option.some.inj h
      rw [if_neg hc]

/-- More braces that are open before a text are open behind it. -/
theorem openBehind_add {depth behind : Nat} {text : List Char}
    (h : openBehind depth text = some behind) (more : Nat) :
    openBehind (depth + more) text = some (behind + more) := by
  induction text generalizing depth with
  | nil =>
    obtain rfl := Option.some.inj h
    rfl
  | cons c rest ih =>
    rw [openBehind_cons] at h ⊢
    obtain ⟨next, hnext, hrest⟩ := Option.bind_eq_some_iff.mp h
    rw [openStep_add hnext, Option.bind_some]
    exact ih hrest

/-- A text that leaves as many braces open as were before. -/
def Balanced (text : List Char) : Prop := openBehind 0 text = some 0

theorem Balanced.openBehind {text : List Char} (h : Balanced text) (depth : Nat) :
    openBehind depth text = some depth := by
  have := openBehind_add h depth
  rwa [Nat.zero_add] at this

theorem Balanced.append {front back : List Char} (hfront : Balanced front) (hback : Balanced back) :
    Balanced (front ++ back) := by
  rw [Balanced, openBehind_append, hfront]
  exact hback

theorem Balanced.block {body : List Char} (h : Balanced body) :
    Balanced ('\x7b' :: body ++ ['\x7d']) := by
  rw [Balanced, List.cons_append, openBehind_open, openBehind_append, h.openBehind]
  rfl

/-- A text without braces. -/
theorem balanced_of_not_mem {text : List Char} (hopen : '\x7b' ∉ text) (hclose : '\x7d' ∉ text) :
    Balanced text := by
  induction text with
  | nil => rfl
  | cons c rest ih =>
    rw [List.mem_cons, not_or] at hopen hclose
    have hstep : openStep 0 c = some 0 := by
      rw [openStep, if_neg (Ne.symm hopen.1), if_neg (Ne.symm hclose.1)]
    rw [Balanced, openBehind_cons, hstep]
    exact ih hopen.2 hclose.2

theorem Clean.balanced {text : List Char} (h : Clean text) : Balanced text :=
  balanced_of_not_mem (h.not_mem (by decide)) (h.not_mem (by decide))

/-- A balanced text that goes on behind a brace does not leave it open. -/
theorem openBehind_ne_of_open {front back : List Char} (h : Balanced (front ++ '\x7b' :: back))
    (depth : Nat) : openBehind 0 back ≠ some depth := by
  intro hback
  rw [Balanced, openBehind_append] at h
  obtain ⟨outer, -, hrest⟩ := Option.bind_eq_some_iff.mp h
  have := openBehind_add hback (outer + 1)
  rw [Nat.zero_add, ← openBehind_open, hrest] at this
  simp at this

/-- A balanced text closes no brace that is open before it. -/
theorem openBehind_ne_of_close {body back : List Char} (h : Balanced (body ++ '\x7d' :: back)) :
    openBehind 0 body ≠ some 0 := by
  intro hbody
  rw [Balanced, openBehind_append, hbody] at h
  exact absurd h (by simp [openBehind_cons, openStep])

/-! ## Blocks -/

/-- A text that opens no brace has no block. -/
theorem filled_of_not_mem {text : List Char} (h : '\x7b' ∉ text) : Filled text := by
  rintro front body back rfl
  simp at h

theorem Clean.filled {text : List Char} (h : Clean text) : Filled text :=
  filled_of_not_mem (h.not_mem (by decide))

/-- The blocks of two texts are filled if the first one is balanced. -/
theorem Filled.append {first second : List Char} (hfirst : Filled first)
    (hbalanced : Balanced first) (hsecond : Filled second) : Filled (first ++ second) := by
  intro front body back htext hbody
  rw [List.append_assoc] at htext
  rcases List.append_eq_append_iff.mp htext with ⟨middle, rfl, rfl⟩ | ⟨middle, rfl, hrest⟩
  · exact hsecond middle body back (by rw [List.append_assoc]) hbody
  rcases List.cons_eq_append_iff.mp hrest with ⟨rfl, rfl⟩ | ⟨inner, rfl, hinner⟩
  · exact hsecond [] body back rfl hbody
  -- The brace that is left open behind the first text would have to be closed in it.
  rcases List.append_eq_append_iff.mp hinner with ⟨rest, rfl, hback⟩ | ⟨rest, rfl, rfl⟩
  · rcases List.cons_eq_append_iff.mp hback with ⟨rfl, rfl⟩ | ⟨left, rfl, rfl⟩
    · rw [List.append_nil] at hbalanced
      exact absurd hbody (openBehind_ne_of_open hbalanced 0)
    · exact hfirst front body left (by simp) hbody
  · rw [openBehind_append] at hbody
    obtain ⟨depth, hdepth, -⟩ := Option.bind_eq_some_iff.mp hbody
    exact absurd hdepth (openBehind_ne_of_open hbalanced depth)

/-- A block that holds a `;` is filled if the blocks in it are. -/
theorem Filled.block {body : List Char} (hbalanced : Balanced body) (h : Filled body)
    (hmem : ';' ∈ body) : Filled ('\x7b' :: body ++ ['\x7d']) := by
  intro front inner back htext hinner
  rcases List.eq_nil_or_concat back with rfl | ⟨left, c, rfl⟩
  · have hopen : '\x7b' :: body = front ++ '\x7b' :: inner := List.append_cancel_right htext
    rcases List.cons_eq_append_iff.mp hopen with ⟨rfl, hsame⟩ | ⟨rest, rfl, rfl⟩
    · exact (List.cons.inj hsame).2 ▸ hmem
    · exact absurd hinner (openBehind_ne_of_open hbalanced 0)
  · have hopen : '\x7b' :: body = front ++ '\x7b' :: inner ++ '\x7d' :: left := by
      rw [List.concat_eq_append, ← List.cons_append, ← List.append_assoc] at htext
      exact (List.append_inj' htext rfl).1
    rw [List.append_assoc] at hopen
    rcases List.cons_eq_append_iff.mp hopen with ⟨rfl, hsame⟩ | ⟨rest, rfl, rfl⟩
    · obtain rfl : inner ++ '\x7d' :: left = body := (List.cons.inj hsame).2
      exact absurd hinner (openBehind_ne_of_close hbalanced)
    · exact h rest inner left (by simp) hinner

/-! ## Lines -/

/-- Lines behind other lines are indented by what is open there. -/
theorem isIndented_append {front back : List (List Char)} {depth behind : Nat}
    (h : openBehind depth front.flatten = some behind) :
    isIndented depth (front ++ back) = (isIndented depth front && isIndented behind back) := by
  induction front generalizing depth with
  | nil =>
    obtain rfl := Option.some.inj h
    rfl
  | cons line rest ih =>
    rw [List.flatten_cons, openBehind_append] at h
    obtain ⟨next, hnext, hrest⟩ := Option.bind_eq_some_iff.mp h
    rw [List.cons_append, isIndented, isIndented, hnext]
    dsimp only
    rw [ih hrest, Bool.and_assoc]

/-- Lines stand apart behind lines of which the last is not blank. -/
theorem isApart_append {front back : List (List Char)} (hfront : isApart front = true)
    (hback : isApart back = true)
    (hlast : ∀ line, front.getLast? = some line → line.all isSpace = false) :
    isApart (front ++ back) = true := by
  induction front with
  | nil => exact hback
  | cons line rest ih =>
    cases rest with
    | nil =>
      cases back with
      | nil => rfl
      | cons next more =>
        have hline : line.all isSpace = false := hlast line rfl
        rw [List.singleton_append, isApart, hline, hback]
        rfl
    | cons next more =>
      rw [isApart, Bool.and_eq_true] at hfront
      rw [List.cons_append, List.cons_append, isApart, hfront.1]
      exact ih hfront.2 fun other hother => hlast other (by rwa [List.getLast?_cons_cons])

end Layout

end NestedStyles
