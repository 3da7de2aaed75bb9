import NestedStyles.Proofs.DistinctNames
import NestedStyles.Proofs.QuotedText

/-!
# Imported files

The main stylesheet imports the other stylesheets one by one, and the name of each stands in a
string as it is. `Imports.files?` reads the names back. A name without quotes and backslashes is
read as it is, and any other name as a shorter one, if at all (`Imports.length_target?`). So the
statements give exactly the files that were written if no name has a quote or a backslash
(`Build.files?_mainStylesheet`); a name with one of them is lost (`Build.import_with_quote`).
-/

namespace NestedStyles

open Content

namespace Imports

/-! ## Reading statements -/

/-- White space between the parts of a statement. -/
def isBlank (c : Char) : Bool := c == ' ' || c == '\t' || c == '\n' || c == '\r' || c == '\x0c'

/-- What the inside of a string stands for, if a backslash stands for the character behind it. -/
def unescaped : List Char → List Char
  | [] => []
  | '\\' :: c :: rest => c :: unescaped rest
  | c :: rest => c :: unescaped rest

/-- The text behind the semicolon that ends a statement. -/
def behindEnd? (text : List Char) : Option (List Char) :=
  match text.dropWhile isBlank with
  | ';' :: rest => some rest
  | _ => none

/-- The target of an import and the text behind the statement, from the quote that opens the
string. -/
def target? (text : List Char) : Option (List Char × List Char) := do
  let (inside, rest) ← untilQuote text
  let behind ← behindEnd? rest
  return (unescaped inside, behind)

/-- The target of the first statement and the text behind the statement. -/
def statement? (text : List Char) : Option (List Char × List Char) :=
  match text.dropWhile isBlank with
  | '@' :: 'i' :: 'm' :: 'p' :: 'o' :: 'r' :: 't' :: rest =>
    match rest.dropWhile isBlank with
    | '\x27' :: rest => target? rest
    | _ => none
  | _ => none

/-- The text up to the quote that ends a string is sealed. -/
theorem untilQuote_eq_some_iff {text inside rest : List Char} :
    untilQuote text = some (inside, rest) ↔ text = inside ++ '\x27' :: rest ∧ Sealed inside := by
  refine ⟨fun h => ?_, fun ⟨htext, hsealed⟩ => htext ▸ hsealed.untilQuote_append rest⟩
  induction text using untilQuote.induct generalizing inside with
  | case1 => simp [untilQuote] at h
  | case2 text =>
    rw [untilQuote] at h
    obtain ⟨rfl, rfl⟩ := Prod.mk.inj (Option.some.inj h)
    exact ⟨rfl, .nil⟩
  | case3 c text ih =>
    rw [untilQuote] at h
    obtain ⟨⟨inner, behind⟩, hread, heq⟩ := Option.map_eq_some_iff.mp h
    obtain ⟨rfl, rfl⟩ := Prod.mk.inj heq
    obtain ⟨rfl, hsealed⟩ := ih hread
    exact ⟨rfl, (Sealed.escape c).append hsealed⟩
  | case4 c text hquote hescape ih =>
    rw [untilQuote] at h
    · obtain ⟨⟨inner, behind⟩, hread, heq⟩ := Option.map_eq_some_iff.mp h
      obtain ⟨rfl, rfl⟩ := Prod.mk.inj heq
      obtain ⟨rfl, hsealed⟩ := ih hread
      -- A backslash here would have a character behind it, and be an escape.
      have hslash : c ≠ '\\' := fun hc => by
        obtain ⟨next, more, hmore⟩ := List.exists_cons_of_ne_nil
          (List.append_ne_nil_of_right_ne_nil inner (List.cons_ne_nil '\x27' behind))
        exact hescape next more hc hmore
      exact ⟨rfl, (Sealed.singleton hquote hslash).append hsealed⟩
    · exact hquote
    · exact hescape

theorem exists_of_target? {text target behind : List Char}
    (h : target? text = some (target, behind)) : ∃ inside rest,
      untilQuote text = some (inside, rest) ∧ behindEnd? rest = some behind ∧
        unescaped inside = target := by
  obtain ⟨⟨inside, rest⟩, hread, h⟩ := Option.bind_eq_some_iff.mp h
  obtain ⟨_, hend, h⟩ := Option.bind_eq_some_iff.mp h
  obtain ⟨rfl, rfl⟩ := Prod.mk.inj (Option.some.inj h)
  exact ⟨inside, rest, hread, hend, rfl⟩

theorem length_behindEnd? {text behind : List Char} (h : behindEnd? text = some behind) :
    behind.length < text.length := by
  unfold behindEnd? at h
  split at h
  · next rest hrest =>
    obtain rfl := Option.some.inj h
    have hle := (List.dropWhile_sublist isBlank (l := text)).length_le
    rw [hrest, List.length_cons] at hle
    omega
  · simp at h

theorem length_statement? {text target behind : List Char}
    (h : statement? text = some (target, behind)) : behind.length < text.length := by
  unfold statement? at h
  split at h
  · next front hfront =>
    split at h
    · next quoted hquoted =>
      obtain ⟨inside, rest, hread, hend, -⟩ := exists_of_target? h
      obtain ⟨rfl, -⟩ := untilQuote_eq_some_iff.mp hread
      have hbehind := length_behindEnd? hend
      have hle := (List.dropWhile_sublist isBlank (l := text)).length_le
      have hle' := (List.dropWhile_sublist isBlank (l := front)).length_le
      rw [hfront] at hle
      rw [hquoted] at hle'
      simp only [List.length_cons, List.length_append] at hle hle'
      omega
    · simp at h
  · simp at h

/-- The targets of a row of imports, if the text is nothing else. -/
def files? (text : List Char) : Option (List String) :=
  if text.all isBlank then some []
  else
    match _h : statement? text with
    | none => none
    | some (target, behind) => (files? behind).map (String.ofList target :: ·)
termination_by text.length
decreasing_by exact length_statement? _h

/-! ## Names that are read -/

/-- Neither a quote nor a backslash stands in the text. -/
def Plain (text : List Char) : Prop := '\x27' ∉ text ∧ '\\' ∉ text

section Plain

variable {name tail inside rest behind : List Char}

theorem plain_cons {c : Char} {text : List Char} :
    Plain (c :: text) ↔ (c ≠ '\x27' ∧ c ≠ '\\') ∧ Plain text := by
  simp only [Plain, List.mem_cons, not_or, ne_eq, eq_comm (a := c)]
  exact and_and_and_comm

/-- A plain text is the inside of a string, and stands for itself. -/
theorem Plain.sealed {text : List Char} (h : Plain text) :
    Sealed text ∧ unescaped text = text := by
  induction text with
  | nil => exact ⟨.nil, rfl⟩
  | cons c text ih =>
    obtain ⟨⟨hquote, hslash⟩, htext⟩ := plain_cons.mp h
    obtain ⟨hsealed, hsame⟩ := ih htext
    refine ⟨(Sealed.singleton hquote hslash).append hsealed, ?_⟩
    rw [unescaped, hsame]
    exact fun _ _ hc => absurd hc hslash

/-- A string is read as no more characters than are written, and as as many only if none of them is
a quote or a backslash. The plain text at its end keeps its last quote from being escaped. -/
theorem length_unescaped (htail : Plain tail) (hne : tail ≠ [])
    (h : untilQuote (name ++ (tail ++ '\x27' :: behind)) = some (inside, rest)) :
    (unescaped inside).length ≤ name.length + tail.length ∧
      ((unescaped inside).length = name.length + tail.length → Plain name) := by
  induction name using untilQuote.induct generalizing inside with
  | case1 =>
    obtain ⟨hsealed, hsame⟩ := htail.sealed
    rw [List.nil_append, hsealed.untilQuote_append] at h
    obtain ⟨rfl, -⟩ := Prod.mk.inj (Option.some.inj h)
    rw [hsame, List.length_nil, Nat.zero_add]
    exact ⟨Nat.le_refl _, fun _ => ⟨by simp, by simp⟩⟩
  | case2 name =>
    rw [List.cons_append, untilQuote] at h
    obtain ⟨rfl, -⟩ := Prod.mk.inj (Option.some.inj h)
    have hlength := List.length_pos_iff.mpr hne
    exact ⟨Nat.zero_le _, fun heq => absurd heq (by simp only [unescaped, List.length_nil]; omega)⟩
  | case3 c name ih =>
    rw [List.cons_append, List.cons_append, untilQuote] at h
    obtain ⟨⟨inner, behind'⟩, hread, heq⟩ := Option.map_eq_some_iff.mp h
    obtain ⟨rfl, rfl⟩ := Prod.mk.inj heq
    obtain ⟨hle, -⟩ := ih hread
    simp only [unescaped, List.length_cons]
    exact ⟨by omega, fun heq => by omega⟩
  | case4 c name hquote hescape ih =>
    by_cases hslash : c = '\\'
    -- A backslash at the end escapes the first character of the tail.
    · obtain rfl : name = [] := by
        by_contra hname
        obtain ⟨next, more, hmore⟩ := List.exists_cons_of_ne_nil hname
        exact hescape next more hslash hmore
      obtain ⟨first, more, rfl⟩ := List.exists_cons_of_ne_nil hne
      obtain ⟨hsealed, hsame⟩ := (plain_cons.mp htail).2.sealed
      have hread := ((Sealed.escape first).append hsealed).untilQuote_append behind
      rw [hslash] at h
      obtain ⟨rfl, -⟩ := Prod.mk.inj (Option.some.inj (hread.symm.trans h))
      simp only [List.cons_append, List.nil_append, unescaped, hsame, List.length_cons,
        List.length_nil]
      exact ⟨by omega, fun heq => by omega⟩
    · rw [List.cons_append, ← List.singleton_append, Sealed.singleton hquote hslash] at h
      obtain ⟨⟨inner, behind'⟩, hread, heq⟩ := Option.map_eq_some_iff.mp h
      obtain ⟨rfl, rfl⟩ := Prod.mk.inj heq
      obtain ⟨hle, hplain⟩ := ih hread
      rw [List.singleton_append, unescaped]
      · simp only [List.length_cons]
        exact ⟨by omega, fun heq => plain_cons.mpr ⟨⟨hquote, hslash⟩, hplain (by omega)⟩⟩
      · exact fun _ _ hc => absurd hc hslash

end Plain

/-! ## Imports of stylesheets -/

/-- The import of a file, on a line of its own. -/
def line (file : String) : String := "\n" ++ "@import '" ++ file ++ "';"

/-- The file of an import is read from the quote on. -/
theorem statement?_line (file : String) (rest : List Char) :
    statement? ((line file).toList ++ rest) = target? (file.toList ++ '\x27' :: ';' :: rest) := by
  rw [line, String.toList_append, String.toList_append, List.append_assoc, List.append_assoc,
    String.toList_append]
  rfl

theorem target?_of_plain {text : List Char} (h : Plain text) (rest : List Char) :
    target? (text ++ '\x27' :: ';' :: rest) = some (text, rest) := by
  obtain ⟨hsealed, hsame⟩ := h.sealed
  rw [target?, hsealed.untilQuote_append]
  simp only [Option.bind_eq_bind, Option.bind_some, hsame]
  rfl

/-- The name of a stylesheet that is read as it is has neither a quote nor a backslash. -/
theorem plain_of_target? {name : String} {rest behind : List Char}
    (h : target? ((name ++ ".css").toList ++ '\x27' :: rest) =
      some ((name ++ ".css").toList, behind)) : Plain name.toList := by
  obtain ⟨inside, _, hread, -, hsame⟩ := exists_of_target? h
  have htail : Plain ".css".toList := ⟨by decide, by decide⟩
  rw [String.toList_append, List.append_assoc] at hread
  refine (length_unescaped htail (by decide) hread).2 ?_
  rw [hsame, String.toList_append, List.length_append]

theorem files?_line (file : String) (rest : List Char) :
    files? ((line file).toList ++ rest) =
      (target? (file.toList ++ '\x27' :: ';' :: rest)).bind fun (target, behind) =>
        (files? behind).map (String.ofList target :: ·) := by
  have hblank : ¬ ((line file).toList ++ rest).all isBlank = true := by
    simp [line, isBlank]
  rw [files?, if_neg hblank]
  split
  · next hread => rw [← statement?_line, hread, Option.bind_none]
  · next target behind hread => rw [← statement?_line, hread, Option.bind_some]

/-- Imports of stylesheets are read as they are written exactly if no name has a quote or a
backslash. -/
theorem files?_lines (names : List String) :
    files? (names.flatMap fun name => (line (name ++ ".css")).toList) =
        some (names.map (· ++ ".css")) ↔
      ∀ name ∈ names, Plain name.toList := by
  induction names with
  | nil =>
    refine iff_of_true ?_ (by simp)
    rw [List.flatMap_nil, files?]
    rfl
  | cons name names ih =>
    rw [List.flatMap_cons, files?_line, List.forall_mem_cons, List.map_cons]
    by_cases hplain : Plain name.toList
    · have hfile : Plain (name ++ ".css").toList := by
        rw [String.toList_append]
        simpa [Plain] using hplain
      rw [target?_of_plain hfile, Option.bind_some]
      dsimp only
      rw [String.ofList_toList, ← ih]
      simp [hplain]
    · refine iff_of_false (fun h => hplain ?_) fun h => hplain h.1
      obtain ⟨⟨target, behind⟩, hread, h⟩ := Option.bind_eq_some_iff.mp h
      obtain ⟨others, -, h⟩ := Option.map_eq_some_iff.mp h
      obtain ⟨htarget, -⟩ := List.cons.inj h
      obtain rfl : target = (name ++ ".css").toList := by rw [← htarget, String.toList_ofList]
      exact plain_of_target? hread

end Imports

namespace Build

/-- The main stylesheet is the order of the layers with the imports behind it. -/
theorem mainStylesheet_eq (names : List String) : mainStylesheet (names.map outputOf) =
    "@layer " ++ ", ".intercalate names ++ ";" ++
      String.join (names.map fun name => Imports.line (name ++ ".css")) := by
  have hrow (first : String) (outputs : List Output) :
      "\n".intercalate (first :: outputs.map fun output => "@import '" ++ output.file ++ "';") =
        first ++ String.join (outputs.map fun output => Imports.line output.file) := by
    induction outputs generalizing first with
    | nil => simp
    | cons output outputs ih =>
      rw [List.map_cons, String.intercalate_cons_cons, ih, List.map_cons, String.join_cons]
      simp only [Imports.line, String.append_assoc]
  have hlayers : (names.map outputOf).map Output.layer = names := by
    rw [List.map_map]
    exact List.map_id names
  rw [mainStylesheet, hrow, hlayers, List.map_map]
  rfl

/-- The main stylesheet of inputs that are accepted gives the order of their layers and then imports
their stylesheets. The imports are read as the files that are written, in the order of the inputs,
exactly if none of the names has a quote or a backslash. -/
theorem files?_mainStylesheet {paths : List String} (h : distinctNames paths = .ok ()) :
    ∃ names : List String, paths.map layerName = names.map .ok ∧
      ∃ imports, mainStylesheet (names.map outputOf) =
          "@layer " ++ ", ".intercalate names ++ ";" ++ imports ∧
        (Imports.files? imports.toList = some (names.map fun name => name ++ ".css") ↔
          ∀ name ∈ names, '\x27' ∉ name.toList ∧ '\\' ∉ name.toList) := by
  obtain ⟨names, hnames⟩ := exists_names (pairwise_of_distinctNames h).1
  refine ⟨names, hnames, _, mainStylesheet_eq names, ?_⟩
  rw [String.toList_join, List.flatMap_map]
  exact Imports.files?_lines names

/-- Names with a comma and a semicolon, which end neither a string nor a statement. -/
theorem files?_mainStylesheet_marked :
    distinctNames ["a, b.json", "in/c;.s.json"] = .ok () ∧
      ∃ imports, mainStylesheet [outputOf "a, b", outputOf "c;"] =
          "@layer " ++ ", ".intercalate ["a, b", "c;"] ++ ";" ++ imports ∧
        Imports.files? imports.toList = some ["a, b.css", "c;.css"] := by
  have hok : distinctNames ["a, b.json", "in/c;.s.json"] = .ok () := rfl
  obtain ⟨names, hnames, imports, hsheet, hread⟩ := files?_mainStylesheet hok
  obtain rfl : ["a, b", "c;"] = names :=
    List.map_injective_iff.mpr (fun _ _ => Except.ok.inj) hnames
  exact ⟨hok, imports, hsheet, hread.mpr (by decide)⟩

/-- A quote in a name ends the string of its import, and no file is read. -/
theorem import_with_quote :
    distinctNames ["it's.json"] = .ok () ∧ layerName "it's.json" = .ok "it's" ∧
      mainStylesheet [outputOf "it's"] = "@layer it's;" ++ "\n@import 'it's.css';" ∧
      Imports.files? "\n@import 'it's.css';".toList = none := by
  refine ⟨rfl, rfl, rfl, ?_⟩
  rw [Imports.files?]
  rfl

end Build

end NestedStyles
