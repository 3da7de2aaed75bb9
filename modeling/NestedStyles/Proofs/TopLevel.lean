import NestedStyles.Proofs.Indented
import NestedStyles.Text.Lead

/-!
# The top level of a stylesheet

At the top level a stylesheet is a row of parts: statements, which end with a `;`, and blocks, which
end with the brace that closes them (`Layout.topLevel`). An outline of a text lists its parts so
that they are read in the same way if more text stands behind it (`Layout.Outline`); the outline of
a row of texts is that of the texts one after another (`Layout.Outline.intercalate`).
-/

namespace NestedStyles.Layout

open Text

/-- A character that may end a part: a brace or a `;`, or a line feed. -/
def isSeparator (c : Char) : Bool := isMark c || c == ';'

/-- A text without separators is clean. -/
theorem clean_of_free {text : List Char} (h : Free isSeparator text) : Clean text := by
  intro c hc
  have := h c hc
  rw [isSeparator, Bool.or_eq_false_iff] at this
  exact this.1

/-- The character ends a part: a `;` outside of all blocks, or the end of a block that stands in no
other one. -/
def endsPart (depth : Nat) (c : Char) : Bool := c == ';' && depth == 0 || c == '\x7d' && depth ≤ 1

/-- The parts of the rest of a text, if so many braces are open in a part that begins with what was
read. White space between the parts is left out. -/
def partsFrom : (depth : Nat) → (read : List Char) → List Char → List String
  | _, read, [] => if read.isEmpty then [] else [String.ofList read]
  | depth, read, c :: rest =>
    if read.isEmpty && isSpace c then partsFrom depth read rest
    else if endsPart depth c then String.ofList (read ++ [c]) :: partsFrom 0 [] rest
    else partsFrom ((openStep depth c).getD 0) (read ++ [c]) rest

/-- The parts of a text outside of all blocks. -/
def topLevel (css : String) : List String := partsFrom 0 [] css.toList

/-- The part is the statement of a layer. -/
def isStatement (part : String) : Bool :=
  Text.beginsWith "@layer" part && part.toList.getLast? == some ';'

/-- The part is a block. -/
def isBlock (part : String) : Bool := part.toList.getLast? == some '\x7d'

theorem isStatement_of_isBlock {part : String} (h : isBlock part = true) :
    isStatement part = false := by
  rw [isBlock, beq_iff_eq] at h
  simp [isStatement, h]

/-! ## Reading a part -/

theorem partsFrom_space {c : Char} (hc : isSpace c = true) (rest : List Char) :
    partsFrom 0 [] (c :: rest) = partsFrom 0 [] rest := by
  rw [partsFrom, hc]
  rfl

theorem partsFrom_of_ends {depth : Nat} {read : List Char} {c : Char} (hc : isSpace c = false)
    (hends : endsPart depth c = true) (rest : List Char) :
    partsFrom depth read (c :: rest) = String.ofList (read ++ [c]) :: partsFrom 0 [] rest := by
  rw [partsFrom, hc, Bool.and_false, if_neg (by simp), if_pos hends]

theorem partsFrom_step {depth next : Nat} {read : List Char} {c : Char}
    (hread : read ≠ [] ∨ isSpace c = false) (hends : endsPart depth c = false)
    (hnext : openStep depth c = some next) (rest : List Char) :
    partsFrom depth read (c :: rest) = partsFrom next (read ++ [c]) rest := by
  have hskip : ¬ (read.isEmpty && isSpace c) = true := by
    rcases hread with hread | hread
    · simp [hread]
    · simp [hread]
  rw [partsFrom, if_neg hskip, hends, if_neg (by simp), hnext, Option.getD_some]

/-- A text free of separators is read as it stands. -/
theorem partsFrom_free {text : List Char} (h : Free isSeparator text) {read : List Char}
    (hread : read ≠ [] ∨ StartsVisibly text) (back : List Char) :
    partsFrom 0 read (text ++ back) = partsFrom 0 (read ++ text) back := by
  induction text generalizing read with
  | nil => rw [List.nil_append, List.append_nil]
  | cons c rest ih =>
    have hc : isSeparator c = false := h c List.mem_cons_self
    rw [isSeparator, Bool.or_eq_false_iff, isMark, Bool.or_eq_false_iff, Bool.or_eq_false_iff,
      beq_eq_false_iff_ne, beq_eq_false_iff_ne, beq_eq_false_iff_ne, beq_eq_false_iff_ne] at hc
    obtain ⟨⟨⟨hopen, hclose⟩, -⟩, hsemicolon⟩ := hc
    have hstep : openStep 0 c = some 0 := by rw [openStep, if_neg hopen, if_neg hclose]
    rw [List.cons_append, partsFrom_step (hread.imp_right startsVisibly_cons.mp)
      (by simp [endsPart, hclose, hsemicolon]) hstep,
      ih (h.of_mem fun d hd => List.mem_cons_of_mem _ hd) (Or.inl (by simp)), List.append_assoc,
      List.singleton_append]

/-- Inside of a block a balanced text is read as it stands. -/
theorem partsFrom_inside {body : List Char} {depth behind : Nat}
    (h : openBehind depth body = some behind) {read : List Char} (hread : read ≠ [])
    (back : List Char) :
    partsFrom (depth + 1) read (body ++ back) = partsFrom (behind + 1) (read ++ body) back := by
  induction body generalizing depth read with
  | nil =>
    obtain rfl := Option.some.inj h
    rw [List.nil_append, List.append_nil]
  | cons c rest ih =>
    rw [openBehind_cons] at h
    obtain ⟨next, hnext, hrest⟩ := Option.bind_eq_some_iff.mp h
    have hends : endsPart (depth + 1) c = false := by
      by_cases hclose : c = '\x7d'
      · subst hclose
        cases depth with
        | zero => exact absurd hnext (by simp [openStep])
        | succ outer => simp [endsPart]
      · simp [endsPart, hclose]
    rw [List.cons_append, partsFrom_step (Or.inl hread) hends (openStep_add hnext 1),
      ih hrest (by simp), List.append_assoc, List.singleton_append]

theorem partsFrom_spaces {sep : List Char} (h : sep.all isSpace = true) (back : List Char) :
    partsFrom 0 [] (sep ++ back) = partsFrom 0 [] back := by
  induction sep with
  | nil => rfl
  | cons c rest ih =>
    rw [List.all_cons, Bool.and_eq_true] at h
    rw [List.cons_append, partsFrom_space h.1, ih h.2]

/-! ## Outlines -/

/-- The parts of a text that is empty or visible and leaves no brace open. -/
structure Outline (css : String) (parts : List String) : Prop where
  /-- Text that follows is read as if it stood alone. -/
  reads : ∀ back, partsFrom 0 [] (css.toList ++ back) = parts ++ partsFrom 0 [] back
  balanced : Balanced css.toList
  visible : css = "" ∨ IsVisible css

namespace Outline

variable {css front back : String} {parts others : List String}

theorem topLevel_eq (h : Outline css parts) : topLevel css = parts := by
  have := h.reads []
  rwa [List.append_nil, show partsFrom 0 [] [] = [] from rfl, List.append_nil] at this

theorem empty : Outline "" [] := ⟨fun _ => rfl, rfl, Or.inl rfl⟩

theorem eq_nil (h : Outline "" parts) : parts = [] := h.topLevel_eq.symm

theorem trimmed (h : Outline css parts) : Text.trimmed css = css := by
  rcases h.visible with rfl | hvisible
  · decide
  · exact hvisible.trimmed

/-- A statement is a part. -/
theorem statement {text : List Char} (hfree : Free isSeparator text) (hne : text ≠ [])
    (hstarts : StartsVisibly text) (hcss : css.toList = text ++ [';']) : Outline css [css] where
  reads rest := by
    have hpart : String.ofList (text ++ [';']) = css := by rw [← hcss, String.ofList_toList]
    rw [hcss, List.append_assoc, partsFrom_free hfree (Or.inr hstarts), List.nil_append,
      List.singleton_append, partsFrom_of_ends (by decide) (by decide), hpart]
    rfl
  balanced := by
    rw [hcss]
    exact (clean_of_free hfree).balanced.append rfl
  visible := by
    refine Or.inr ⟨fun hempty => ?_, hcss ▸ hstarts.append hne _, hcss ▸
      EndsVisibly.append (endsVisibly_singleton.mpr (by decide)) (by simp) _⟩
    rw [hempty] at hcss
    exact absurd hcss (by simp)

/-- A block is a part. -/
theorem block {header body : List Char} (hfree : Free isSeparator header) (hne : header ≠ [])
    (hstarts : StartsVisibly header) (hbody : Balanced body)
    (hcss : css.toList = header ++ ('\x7b' :: body ++ ['\x7d'])) : Outline css [css] where
  reads rest := by
    have hpart : String.ofList (header ++ ['\x7b'] ++ body ++ ['\x7d']) = css := by
      rw [List.append_assoc, List.append_assoc, List.singleton_append, ← List.cons_append, ← hcss,
        String.ofList_toList]
    rw [hcss, List.append_assoc, partsFrom_free hfree (Or.inr hstarts), List.nil_append,
      List.cons_append, List.cons_append, List.append_assoc,
      partsFrom_step (Or.inl hne) (by decide) rfl, partsFrom_inside hbody (by simp),
      List.singleton_append, partsFrom_of_ends (by decide) (by decide), hpart]
    rfl
  balanced := by
    rw [hcss]
    exact (clean_of_free hfree).balanced.append hbody.block
  visible := by
    refine Or.inr ⟨fun hempty => ?_, hcss ▸ hstarts.append hne _, ?_⟩
    · rw [hempty] at hcss
      exact absurd hcss (by simp)
    · rw [hcss, ← List.append_assoc]
      exact EndsVisibly.append (endsVisibly_singleton.mpr (by decide)) (by simp) _

/-- White space between two texts is left out. -/
theorem append (hfront : Outline front parts) (hback : Outline back others) (hne : front ≠ "")
    (hne' : back ≠ "") {sep : String} (hsep : sep.toList.all isSpace = true) :
    Outline (front ++ sep ++ back) (parts ++ others) where
  reads rest := by
    rw [String.toList_append, String.toList_append, List.append_assoc, List.append_assoc,
      hfront.reads, partsFrom_spaces hsep, hback.reads, List.append_assoc]
  balanced := by
    have hnot {c : Char} (hc : isSpace c = false) : c ∉ sep.toList := fun hmem => by
      rw [List.all_eq_true.mp hsep c hmem] at hc
      exact absurd hc (by simp)
    rw [String.toList_append, String.toList_append]
    have hspace := balanced_of_not_mem (hnot (by decide)) (hnot (by decide))
    exact (hfront.balanced.append hspace).append hback.balanced
  visible := Or.inr ((hfront.visible.resolve_left hne).append (hback.visible.resolve_left hne') _)

/-- The outline of a row of texts is that of the texts one after another. -/
theorem intercalate {sep : String} (hsep : sep.toList.all isSpace = true)
    {outline : String → List String} : ∀ {texts : List String},
    (∀ text ∈ texts, text ≠ "" ∧ Outline text (outline text)) →
      Outline (sep.intercalate texts) (texts.flatMap outline)
  | [], _ => empty
  | [text], h => by
    rw [List.flatMap_singleton]
    simpa using (h text (by simp)).2
  | text :: next :: rest, h => by
    have hrest := @intercalate sep hsep outline (next :: rest) fun other hother =>
      h other (by simp [hother])
    rw [String.intercalate_cons_cons, List.flatMap_cons]
    obtain ⟨hne, htext⟩ := h text (by simp)
    refine htext.append hrest hne (IsVisible.ne_empty ?_) hsep
    exact intercalate_of (fun hfront hback => hfront.append hback _) (by simp) fun other hother =>
      have ⟨hother, houtline⟩ := h other (by simp [hother])
      houtline.visible.resolve_left hother

theorem flatMap_filter {outline : String → List String} {texts : List String}
    (h : ∀ text ∈ texts, Outline text (outline text)) :
    (texts.filter (· != "")).flatMap outline = texts.flatMap outline := by
  induction texts with
  | nil => rfl
  | cons text rest ih =>
    have ih := ih fun other hother => h other (by simp [hother])
    by_cases hempty : text = ""
    · subst hempty
      rw [List.filter_cons_of_neg (by simp), ih, List.flatMap_cons, (h "" (by simp)).eq_nil,
        List.nil_append]
    · rw [List.filter_cons_of_pos (by simpa using hempty), List.flatMap_cons, List.flatMap_cons,
        ih]

/-- The outline of sections is that of the texts one after another. -/
theorem sections {outline : String → List String} {texts : List String}
    (h : ∀ text ∈ texts, Outline text (outline text)) :
    Outline (sections texts) (texts.flatMap outline) := by
  rw [sections_of_trimmed fun text htext => (h text htext).trimmed, ← flatMap_filter h]
  refine intercalate (by decide) fun text htext => ?_
  obtain ⟨hmem, hne⟩ := List.mem_filter.mp htext
  exact ⟨by simpa using hne, h text hmem⟩

end Outline

/-! ## Indented text -/

/-- Texts with as many open braces behind them as others have as many in a row. -/
theorem openBehind_flatten {f : List Char → List Char}
    (hf : ∀ depth line, openBehind depth (f line) = openBehind depth line)
    (lines : List (List Char)) (depth : Nat) :
    openBehind depth (lines.map f).flatten = openBehind depth lines.flatten := by
  induction lines generalizing depth with
  | nil => rfl
  | cons line rest ih =>
    rw [List.map_cons, List.flatten_cons, List.flatten_cons, openBehind_append, openBehind_append,
      hf]
    exact congrArg _ (funext ih)

theorem openBehind_withoutReturn (depth : Nat) (line : List Char) :
    openBehind depth (withoutReturn line) = openBehind depth line := by
  unfold withoutReturn
  split
  · next hreturn =>
    obtain ⟨front, rfl⟩ := List.getLast?_eq_some_iff.mp hreturn
    rw [List.dropLast_concat, openBehind_append]
    cases openBehind depth front with
    | none => rfl
    | some behind => exact (balanced_of_not_mem (by decide) (by decide)).openBehind behind |>.symm
  · rfl

/-- The lines of a text have the braces of the text. -/
theorem openBehind_lines (depth : Nat) (text : List Char) :
    openBehind depth (lines text).flatten = openBehind depth text := by
  have hpieces : openBehind depth (text.splitOn '\n').flatten = openBehind depth text := by
    rw [← openBehind_text, Layout.text, List.intercalate_splitOn]
  obtain ⟨front, last, hsplit⟩ : ∃ front last, text.splitOn '\n' = front ++ [last] :=
    ⟨_, _, (List.dropLast_concat_getLast (List.splitOn_ne_nil '\n' text)).symm⟩
  have hlast : ([last].filter fun last => !last.isEmpty).flatten = last := by
    cases last <;> simp
  rw [← hpieces, lines, hsplit, List.dropLast_concat, List.getLast?_concat, Option.toList_some,
    List.flatten_append, List.flatten_append, hlast, openBehind_append, openBehind_append,
    openBehind_flatten openBehind_withoutReturn, List.flatten_singleton]

/-- A balanced text stays so when it is indented. -/
theorem balanced_indent {css : String} (h : Balanced css.toList) (spaces : Nat) :
    Balanced (indent spaces css).toList := by
  have hindent (depth : Nat) (line : List Char) :
      openBehind depth (indentLine spaces line) = openBehind depth line := by
    have hspaces : Balanced (List.replicate spaces ' ') :=
      balanced_of_not_mem (by simp) (by simp)
    cases line with
    | nil => rfl
    | cons c rest =>
      rw [indentLine_of_ne_nil spaces (by simp), openBehind_append, hspaces.openBehind,
        Option.bind_some]
  rw [Balanced, toList_indent]
  exact (openBehind_text _ 0).trans <|
    (openBehind_flatten hindent _ 0).trans <| (openBehind_lines 0 _).trans h

/-- A text under a header is a block. -/
theorem Outline.under {css header : String} (hfree : Free isSeparator header.toList)
    (hne : header ≠ "") (hstarts : StartsVisibly header.toList) (h : Balanced css.toList) :
    Outline (Layout.block header css) [Layout.block header css] := by
  have hlist : header.toList ≠ [] := mt String.toList_eq_nil_iff.mp hne
  have hbody : Balanced (['\n'] ++ ((indent 2 css).toList ++ ['\n'])) :=
    Balanced.append rfl ((balanced_indent h 2).append rfl)
  refine Outline.block (hfree.append (by decide : Free isSeparator [' '])) (by simp)
    (hstarts.append hlist _) hbody ?_
  rw [Layout.block, String.toList_append, String.toList_append, String.toList_append]
  simp

/-! ## Rows of blocks -/

/-- The text is a row of blocks. -/
def IsBlocks (css : String) : Prop :=
  Outline css (topLevel css) ∧ ∀ block ∈ topLevel css, isBlock block = true

theorem Outline.isBlocks {css : String} {blocks : List String} (h : Outline css blocks)
    (hblocks : ∀ block ∈ blocks, isBlock block = true) : IsBlocks css := by
  rw [IsBlocks, h.topLevel_eq]
  exact ⟨h, hblocks⟩

theorem isBlock_of_mem_flatMap {texts : List String} (h : ∀ css ∈ texts, IsBlocks css) :
    ∀ block ∈ texts.flatMap topLevel, isBlock block = true := by
  intro block hblock
  obtain ⟨css, hcss, hblock⟩ := List.mem_flatMap.mp hblock
  exact (h css hcss).2 block hblock

theorem isBlock_block (header css : String) : isBlock (Layout.block header css) = true := by
  rw [isBlock, Layout.block, String.toList_append,
    show "\n\x7d".toList = ['\n'] ++ ['\x7d'] from rfl, ← List.append_assoc, List.getLast?_concat]
  rfl

end NestedStyles.Layout
