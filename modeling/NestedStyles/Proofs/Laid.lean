import NestedStyles.Proofs.Nesting

/-!
# Laid out lines

A stylesheet is made of lines that end with a `;`, of blocks in braces and of gaps between the two
(`Layout.Laid`). Lines that are laid out are well nested (`Layout.Laid.wellNested`), and they stay
laid out one level deeper when they are indented (`Layout.Laid.deeper`).
-/

namespace NestedStyles.Layout

open Text

/-- A text at a depth. -/
def padded (depth : Nat) (text : List Char) : List Char := List.replicate (2 * depth) ' ' ++ text

/-- Lines at a depth that are laid out. -/
inductive Laid : (depth : Nat) → List (List Char) → Prop
  | line {depth : Nat} {text : List Char} (clean : Clean text) (starts : StartsVisibly text)
      (ends : text.getLast? = some ';') : Laid depth [padded depth text]
  | block {depth : Nat} {header : List Char} {body : List (List Char)} (clean : Clean header)
      (ne_nil : header ≠ []) (starts : StartsVisibly header) (inner : Laid (depth + 1) body) :
      Laid depth (padded depth (header ++ [' ', '\x7b']) :: body ++ [padded depth ['\x7d']])
  | next {depth : Nat} {front back : List (List Char)} (first : Laid depth front)
      (second : Laid depth back) : Laid depth (front ++ back)
  | gap {depth : Nat} {front back : List (List Char)} (first : Laid depth front)
      (second : Laid depth back) : Laid depth (front ++ [] :: back)

/-! ## One line -/

theorem isSpace_of_mem_replicate {n : Nat} : ∀ c ∈ List.replicate n ' ', isSpace c = true := by
  intro c hc
  rw [List.eq_of_mem_replicate hc]
  decide

theorem Clean.padded {text : List Char} (h : Clean text) (depth : Nat) :
    Clean (padded depth text) := by
  refine Clean.append (fun c hc => ?_) h
  rw [List.eq_of_mem_replicate hc]
  decide

theorem padded_append (depth : Nat) (front back : List Char) :
    padded depth (front ++ back) = padded depth front ++ back := (List.append_assoc ..).symm

theorem standsAt_padded {text : List Char} (hne : text ≠ []) (h : StartsVisibly text)
    (depth : Nat) : standsAt depth (padded depth text) = true := by
  obtain ⟨c, rest, rfl⟩ := List.exists_cons_of_ne_nil hne
  have hc : isSpace c = false := startsVisibly_cons.mp h
  rw [standsAt, padded, List.takeWhile_append_of_pos isSpace_of_mem_replicate,
    List.takeWhile_cons_of_neg (by simp [hc])]
  simp [hc]

theorem not_blank_padded {text : List Char} (hne : text ≠ []) (h : StartsVisibly text)
    (depth : Nat) : (padded depth text).all isSpace = false := by
  have hstands := standsAt_padded hne h depth
  rw [standsAt, Bool.and_eq_true, Bool.not_eq_true'] at hstands
  exact hstands.2

theorem closes_padded {text : List Char} (h : StartsVisibly text) (depth : Nat) :
    closes (padded depth text) = (text.head? == some '\x7d') := by
  rw [closes, padded, trimStart, List.dropWhile_append_of_pos isSpace_of_mem_replicate]
  exact congrArg (·.head? == _) (trimStart_of_startsVisibly h)

theorem not_closes_padded {text : List Char} (hclean : Clean text) (h : StartsVisibly text)
    (more : List Char) (hne : text ≠ []) (depth : Nat) :
    closes (padded depth (text ++ more)) = false := by
  obtain ⟨c, rest, rfl⟩ := List.exists_cons_of_ne_nil hne
  rw [closes_padded (h.append hne more)]
  have hc : c ≠ '\x7d' := fun heq => hclean.not_mem (c := '\x7d') (by decide) (by simp [heq])
  simpa using hc

theorem endsVisibly_of_getLast? {text : List Char} {c : Char} (h : text.getLast? = some c)
    (hc : isSpace c = false) : EndsVisibly text := by
  intro d hd
  rw [List.head?_reverse, h] at hd
  exact Option.some.inj hd ▸ hc

theorem ne_nil_of_getLast? {text : List Char} {c : Char} (h : text.getLast? = some c) :
    text ≠ [] := fun hnil => by simp [hnil] at h

theorem endsVisibly_padded {text : List Char} (hne : text ≠ []) (h : EndsVisibly text)
    (depth : Nat) : EndsVisibly (padded depth text) := h.append hne _

/-! ## First and last lines -/

namespace Laid

variable {depth : Nat} {lines : List (List Char)}

/-- The first line stands at the depth. -/
theorem first (h : Laid depth lines) :
    ∃ text rest, lines = padded depth text :: rest ∧ text ≠ [] ∧ StartsVisibly text := by
  induction h with
  | @line depth text clean starts ends =>
    exact ⟨text, [], rfl, ne_nil_of_getLast? ends, starts⟩
  | @block depth header body clean ne_nil starts inner ih =>
    exact ⟨header ++ [' ', '\x7b'], body ++ [padded depth ['\x7d']], rfl, by simp,
      starts.append ne_nil _⟩
  | @next depth front back first second ih _ =>
    obtain ⟨text, rest, rfl, htext⟩ := ih
    exact ⟨text, rest ++ back, rfl, htext⟩
  | @gap depth front back first second ih _ =>
    obtain ⟨text, rest, rfl, htext⟩ := ih
    exact ⟨text, rest ++ [] :: back, rfl, htext⟩

/-- The last line is not empty and ends visibly. -/
theorem last (h : Laid depth lines) :
    ∃ front line, lines = front ++ [line] ∧ line ≠ [] ∧ EndsVisibly line := by
  induction h with
  | @line depth text clean starts ends =>
    have hne := ne_nil_of_getLast? ends
    exact ⟨[], padded depth text, rfl, by simp [padded, hne],
      endsVisibly_padded hne (endsVisibly_of_getLast? ends (by decide)) depth⟩
  | @block depth header body clean ne_nil starts inner ih =>
    exact ⟨_, _, rfl, by simp [padded],
      endsVisibly_padded (by simp) (endsVisibly_singleton.mpr (by decide)) depth⟩
  | @next depth front back first second _ ih =>
    obtain ⟨start, line, rfl, hline⟩ := ih
    exact ⟨front ++ start, line, (List.append_assoc ..).symm, hline⟩
  | @gap depth front back first second _ ih =>
    obtain ⟨start, line, rfl, hline⟩ := ih
    exact ⟨front ++ [] :: start, line, by simp, hline⟩

theorem ne_nil (h : Laid depth lines) : lines ≠ [] := by
  obtain ⟨text, rest, rfl, -⟩ := h.first
  simp

theorem getLast?_visible (h : Laid depth lines) :
    ∀ line, lines.getLast? = some line → line.all isSpace = false := by
  obtain ⟨front, line, rfl, hne, hends⟩ := h.last
  intro other hother
  rw [List.getLast?_concat] at hother
  obtain rfl := Option.some.inj hother
  obtain ⟨c, hc⟩ := Option.ne_none_iff_exists'.mp fun h => hne (List.getLast?_eq_none_iff.mp h)
  refine List.all_eq_false.mpr ⟨c, List.mem_of_getLast? hc, ?_⟩
  rw [hends c (by rw [List.head?_reverse, hc])]
  simp

/-- No line feed stands in a line, and no white space at its end. -/
theorem of_mem (h : Laid depth lines) : ∀ line ∈ lines, '\n' ∉ line ∧ EndsVisibly line := by
  induction h with
  | @line depth text clean starts ends =>
    intro line hline
    rw [List.mem_singleton.mp hline]
    exact ⟨(clean.padded depth).not_mem (by decide), endsVisibly_padded (ne_nil_of_getLast? ends)
      (endsVisibly_of_getLast? ends (by decide)) depth⟩
  | @block depth header body clean ne_nil starts inner ih =>
    intro line hline
    simp only [List.cons_append, List.mem_cons, List.mem_append, List.not_mem_nil, or_false]
      at hline
    rcases hline with rfl | hline | rfl
    · rw [padded_append]
      refine ⟨?_, EndsVisibly.append (endsVisibly_of_getLast? rfl (by decide)) (by simp) _⟩
      simpa using (clean.padded depth).not_mem (c := '\n') (by decide)
    · exact ih line hline
    · refine ⟨?_, endsVisibly_padded (by simp) (endsVisibly_singleton.mpr (by decide)) depth⟩
      simp [padded]
  | next first second ih ih' =>
    intro line hline
    exact (List.mem_append.mp hline).elim (ih line) (ih' line)
  | gap first second ih ih' =>
    intro line hline
    rcases List.mem_append.mp hline with hline | hline
    · exact ih line hline
    · rcases List.mem_cons.mp hline with rfl | hline
      · exact ⟨by simp, endsVisibly_nil⟩
      · exact ih' line hline

end Laid

/-! ## The text of lines -/

/-- Lines with a line feed between them. -/
def text (lines : List (List Char)) : List Char := ['\n'].intercalate lines

theorem text_singleton (line : List Char) : text [line] = line := List.intercalate_singleton

theorem text_cons (line : List Char) {rest : List (List Char)} (h : rest ≠ []) :
    text (line :: rest) = line ++ '\n' :: text rest := by
  obtain ⟨next, more, rfl⟩ := List.exists_cons_of_ne_nil h
  rw [text, List.intercalate_cons_cons, List.append_assoc]
  rfl

theorem text_append {front back : List (List Char)} (hfront : front ≠ []) (hback : back ≠ []) :
    text (front ++ back) = text front ++ '\n' :: text back := by
  induction front with
  | nil => exact absurd rfl hfront
  | cons line rest ih =>
    cases rest with
    | nil => rw [List.singleton_append, text_cons line hback, text_singleton]
    | cons next more =>
      rw [List.cons_append, text_cons line (by simp), ih (by simp), text_cons line (by simp),
        List.append_assoc]
      rfl

theorem text_gap {front back : List (List Char)} (hfront : front ≠ []) (hback : back ≠ []) :
    text (front ++ [] :: back) = text front ++ '\n' :: '\n' :: text back := by
  rw [text_append hfront (by simp), text_cons [] hback]
  rfl

theorem text_block {head foot : List Char} {body : List (List Char)} (hbody : body ≠ []) :
    text (head :: body ++ [foot]) = head ++ '\n' :: text body ++ '\n' :: foot := by
  rw [text_append (by simp) (by simp), text_cons head hbody, text_singleton]

/-- Line feeds do not count among the braces. -/
theorem openBehind_text (lines : List (List Char)) (depth : Nat) :
    openBehind depth (text lines) = openBehind depth lines.flatten := by
  induction lines generalizing depth with
  | nil => rfl
  | cons line rest ih =>
    cases rest with
    | nil => simp [text]
    | cons next more =>
      rw [text_cons line (by simp), openBehind_append, List.flatten_cons, openBehind_append]
      exact congrArg _ (funext fun depth => ih depth)

namespace Laid

variable {depth : Nat} {lines : List (List Char)}

theorem balanced (h : Laid depth lines) : Balanced lines.flatten := by
  induction h with
  | @line depth text clean starts ends =>
    rw [List.flatten_cons, List.flatten_nil, List.append_nil]
    exact (clean.padded depth).balanced
  | @block depth header body clean ne_nil starts inner ih =>
    have hpad : Balanced (padded depth []) := (Clean.nil.padded depth).balanced
    have hheader : Balanced (padded depth (header ++ [' '])) := by
      rw [padded_append]
      exact (clean.padded depth).balanced.append (balanced_of_not_mem (by simp) (by simp))
    have := hheader.append (ih.append hpad).block
    simpa [padded] using this
  | next first second ih ih' =>
    rw [List.flatten_append]
    exact ih.append ih'
  | gap first second ih ih' =>
    rw [List.flatten_append, List.flatten_cons, List.nil_append]
    exact ih.append ih'

theorem balanced_text (h : Laid depth lines) : Balanced (text lines) := by
  rw [Balanced, openBehind_text]
  exact h.balanced

theorem mem_text (h : Laid depth lines) : ';' ∈ text lines := by
  induction h with
  | @line depth text clean starts ends =>
    rw [text_singleton]
    exact List.mem_append_right _ (List.mem_of_getLast? ends)
  | @block depth header body clean ne_nil starts inner ih =>
    rw [text_block inner.ne_nil]
    simp [ih]
  | next first second ih ih' =>
    rw [text_append first.ne_nil second.ne_nil]
    exact List.mem_append_left _ ih
  | gap first second ih ih' =>
    rw [text_gap first.ne_nil second.ne_nil]
    exact List.mem_append_left _ ih

/-- Every block of lines that are laid out is filled. -/
theorem filled (h : Laid depth lines) : Filled (text lines) := by
  have hfeed : Filled ['\n'] := filled_of_not_mem (by simp)
  have hfeedBalanced : Balanced ['\n'] := balanced_of_not_mem (by simp) (by simp)
  induction h with
  | @line depth text clean starts ends =>
    rw [text_singleton]
    exact (clean.padded depth).filled
  | @block depth header body clean ne_nil starts inner ih =>
    have hheader : Clean (padded depth (header ++ [' '])) :=
      (clean.append (by decide)).padded depth
    have hpad : Clean (padded depth []) := Clean.nil.padded depth
    have hbackBalanced : Balanced (['\n'] ++ padded depth []) :=
      hfeedBalanced.append hpad.balanced
    have hback : Filled (['\n'] ++ padded depth []) :=
      hfeed.append hfeedBalanced hpad.filled
    have hinner : Filled (['\n'] ++ (text body ++ (['\n'] ++ padded depth []))) :=
      hfeed.append hfeedBalanced (ih.append inner.balanced_text hback)
    have hinnerBalanced : Balanced (['\n'] ++ (text body ++ (['\n'] ++ padded depth []))) :=
      hfeedBalanced.append (inner.balanced_text.append hbackBalanced)
    have hmem : ';' ∈ ['\n'] ++ (text body ++ (['\n'] ++ padded depth [])) := by
      simp [inner.mem_text]
    have hblock := hheader.filled.append hheader.balanced (hinner.block hinnerBalanced hmem)
    rw [text_block inner.ne_nil]
    simpa [padded] using hblock
  | next first second ih ih' =>
    rw [text_append first.ne_nil second.ne_nil]
    exact ih.append first.balanced_text (hfeed.append hfeedBalanced ih')
  | gap first second ih ih' =>
    rw [text_gap first.ne_nil second.ne_nil]
    exact ih.append first.balanced_text
      (hfeed.append hfeedBalanced (hfeed.append hfeedBalanced ih'))

/-- Lines that are laid out are indented by their braces. -/
theorem indented (h : Laid depth lines) : isIndented depth lines = true := by
  induction h with
  | @line depth text clean starts ends =>
    have hne := ne_nil_of_getLast? ends
    have hcloses := not_closes_padded clean starts [] hne depth
    rw [List.append_nil] at hcloses
    rw [isIndented, (clean.padded depth).balanced.openBehind, hcloses]
    simp [standsAt_padded hne starts, isIndented]
  | @block depth header body clean ne_nil starts inner ih =>
    have hhead : openBehind depth (padded depth (header ++ [' ', '\x7b'])) = some (depth + 1) := by
      rw [padded_append, openBehind_append, (clean.padded depth).balanced.openBehind]
      rfl
    have hfoot : openBehind (depth + 1) (padded depth ['\x7d']) = some depth := by
      have hpad : Clean (padded depth []) := Clean.nil.padded depth
      rw [padded, openBehind_append, ← List.append_nil (List.replicate _ _), ← padded,
        hpad.balanced.openBehind]
      rfl
    have hbrace : StartsVisibly ['\x7d'] := startsVisibly_cons.mpr (by decide)
    have hstands : standsAt depth (padded depth (header ++ [' ', '\x7b'])) = true :=
      standsAt_padded (by simp) (starts.append ne_nil _) depth
    rw [List.cons_append, isIndented, hhead, not_closes_padded clean starts _ ne_nil]
    dsimp only
    rw [if_neg (by simp), hstands, Bool.or_true, Bool.true_and,
      isIndented_append (inner.balanced.openBehind _), ih]
    simp [isIndented, hfoot, closes_padded hbrace, standsAt_padded _ hbrace]
  | next first second ih ih' =>
    rw [isIndented_append (first.balanced.openBehind _), ih, ih']
    rfl
  | gap first second ih ih' =>
    rw [isIndented_append (first.balanced.openBehind _), ih]
    exact ih'

/-- Lines that are laid out stand apart. -/
theorem apart (h : Laid depth lines) : isApart lines = true := by
  induction h with
  | line => rfl
  | @block depth header body clean ne_nil starts inner ih =>
    have hhead : ∀ line, [padded depth (header ++ [' ', '\x7b'])].getLast? = some line →
        line.all isSpace = false := by
      intro line hline
      exact Option.some.inj hline ▸ not_blank_padded (by simp) (starts.append ne_nil _) depth
    have hlast : ∀ line, (padded depth (header ++ [' ', '\x7b']) :: body).getLast? = some line →
        line.all isSpace = false := by
      intro line hline
      rw [List.getLast?_cons_of_ne_nil inner.ne_nil] at hline
      exact inner.getLast?_visible line hline
    exact isApart_append (isApart_append rfl ih hhead) rfl hlast
  | next first second ih ih' => exact isApart_append ih ih' first.getLast?_visible
  | gap first second ih ih' =>
    obtain ⟨text, rest, rfl, hne, hstarts⟩ := second.first
    refine isApart_append ih ?_ first.getLast?_visible
    rw [isApart, not_blank_padded hne hstarts, Bool.and_false, ih']
    rfl

variable {css : String}

/-- Lines that are laid out are the lines of their text. -/
theorem splitOn (h : Laid depth lines) : (text lines).splitOn '\n' = lines :=
  List.splitOn_intercalate '\n' (fun line hline => (h.of_mem line hline).1) h.ne_nil

theorem starts (h : Laid 0 lines) : StartsVisibly (text lines) := by
  obtain ⟨first, rest, rfl, hne, hstarts⟩ := h.first
  cases rest with
  | nil => rwa [text_singleton]
  | cons next more =>
    rw [text_cons _ (by simp)]
    exact StartsVisibly.append hstarts hne _

theorem ends (h : Laid depth lines) : EndsVisibly (text lines) := by
  obtain ⟨front, last, rfl, hne, hends⟩ := h.last
  cases front with
  | nil => rwa [List.nil_append, text_singleton]
  | cons line rest =>
    rw [text_append (by simp) (by simp), text_singleton]
    exact EndsVisibly.append (hends.append hne ['\n']) (by simp) _

/-- The text of lines that are laid out is well nested. -/
theorem wellNested (h : Laid 0 lines) (hcss : css.toList = text lines) : WellNested css := by
  have hlines : css.toList.splitOn '\n' = lines := hcss ▸ h.splitOn
  exact ⟨hcss ▸ h.balanced_text, hcss ▸ h.filled, hlines ▸ h.indented, hlines ▸ h.apart,
    hcss ▸ h.starts, hcss ▸ h.ends⟩

end Laid

end NestedStyles.Layout
