import NestedStyles.Options.Json
import NestedStyles.Proofs.JsonText
import NestedStyles.Proofs.Results
import NestedStyles.Proofs.Writes

/-!
# Options that are read

An object is read member by member: a field is read on top of those before it, and any other member
is passed over (`Json.ofMembers_cons_eq_ok_iff`). So an object without shorthands is read as the
same tables whether it is a configuration or compile options (`Config.ofMembers_tables`), and an
object of tables is read as the options that its entries leave when they are written one after
another (`Options.ofMembers_sections`). `Options.ofText_readers` says both of texts.
-/

namespace NestedStyles

namespace Json

/-! ## Objects -/

/-- An object is read if its first member is and then the others: a field that was not given before,
or a member that is well formed. -/
theorem ofMembers_cons_eq_ok_iff {α : Type} {fields seen : List String}
    {read : α → String → Json → Except Fault α} {state result : α} {name : Option String}
    {value : Json} {rest : List (Option String × Json)} :
    ofMembers fields read seen state ((name, value) :: rest) = .ok result ↔ ∃ key, name = some key ∧
      (key ∈ fields ∧ key ∉ seen ∧ (∃ next, read state key value = .ok next ∧
          ofMembers fields read (key :: seen) next rest = .ok result) ∨
        key ∉ fields ∧ value.isIntact = true ∧
          ofMembers fields read seen state rest = .ok result) := by
  cases name with
  | none => simp [ofMembers, nameOf, bind, Except.bind]
  | some key =>
    rw [ofMembers, nameOf]
    change (if key ∈ fields then _ else _) = _ ↔ _
    by_cases hfield : key ∈ fields
    · rw [if_pos hfield]
      by_cases hseen : key ∈ seen
      · simp [hseen, hfield]
      · rw [if_neg hseen]
        cases hread : read state key value <;> simp [hfield, hseen, hread, bind, Except.bind]
    · rw [if_neg hfield]
      cases value.isIntact <;> simp [hfield]

/-- An object whose values can be read one by one is read as the table that writing them leaves. -/
theorem asEntries_object {α : Type} {read : Json → Except Fault α} (json : α → Json)
    (hread : ∀ a, read (json a) = .ok a) (entries : List (String × α)) :
    asEntries read (.object (entries.map fun entry => (some entry.1, json entry.2))) =
      .ok (Entries.ofList entries) := by
  have hrun (start : Entries α) :
      (entries.map fun entry => (some entry.1, json entry.2)).foldlM
          (fun table member => do
            let name ← nameOf member.1
            return table.insert name (← read member.2)) start =
        .ok (entries.foldl (fun entries entry => entries.insert entry.1 entry.2) start) := by
    induction entries generalizing start with
    | nil => rfl
    | cons entry rest ih =>
      rw [List.map_cons, List.foldlM_cons, List.foldl_cons, ← ih]
      simp [nameOf, hread, bind, Except.bind, pure, Except.pure]
  exact hrun []

end Json

open Json (Document ofMembers)

/-! ## Configurations without shorthands -/

namespace Config

variable {config config' : Config} {value : Json}

/-- A field of the tables is read into the tables. -/
theorem readField_tables {field : String} (hfield : field ∈ Options.fields)
    (h : config.readField field value = .ok config') :
    config.tables.readField field value = .ok config'.tables ∧
      config'.shorthands = config.shorthands := by
  simp only [Options.fields, List.mem_cons, List.not_mem_nil, or_false] at hfield
  rcases hfield with rfl | rfl | rfl
  · obtain ⟨queries, hread, h⟩ := Except.exists_of_bind_ok h
    obtain rfl := Except.ok.inj h
    simp [Options.readField, tables, hread, bind, Except.bind, pure, Except.pure]
  · obtain ⟨modes, hread, h⟩ := Except.exists_of_bind_ok h
    obtain rfl := Except.ok.inj h
    simp [Options.readField, tables, hread, bind, Except.bind, pure, Except.pure]
  · obtain ⟨auto, hread, h⟩ := Except.exists_of_bind_ok h
    obtain rfl := Except.ok.inj h
    simp [Options.readField, tables, hread, bind, Except.bind, pure, Except.pure]

/-- The selector of the root is in no table. -/
theorem readField_root (h : config.readField "globalRootSelector" value = .ok config') :
    config'.tables = config.tables ∧ config'.shorthands = config.shorthands ∧
      value.isIntact = true := by
  obtain ⟨root, hread, h⟩ := Except.exists_of_bind_ok h
  obtain rfl := Except.ok.inj h
  refine ⟨rfl, rfl, ?_⟩
  cases value with
  | list items => exact absurd hread (by simp [Json.asOptional, Json.asText, Json.mismatch,
      Json.found, Except.map, Except.bind])
  | object members => exact absurd hread (by simp [Json.asOptional, Json.asText, Json.mismatch,
      Json.found, Except.map, Except.bind])
  | broken => exact absurd hread (by simp [Json.asOptional, Json.asText, Json.mismatch,
      Json.found, Except.map, Except.bind])
  | _ => rfl

/-- Members without shorthands are read as the same tables in a configuration and in options. -/
theorem ofMembers_tables {members : List (Option String × Json)}
    (hnone : ∀ member ∈ members, member.1 ≠ some "mediaSelectors") {seen seen' : List String}
    (hseen : ∀ field ∈ Options.fields, field ∈ seen' → field ∈ seen)
    (h : ofMembers fields readField seen config members = .ok config') :
    ofMembers Options.fields Options.readField seen' config.tables members = .ok config'.tables ∧
      config'.shorthands = config.shorthands := by
  induction members generalizing seen seen' config with
  | nil =>
    obtain rfl := Except.ok.inj h
    exact ⟨rfl, rfl⟩
  | cons member rest ih =>
    obtain ⟨name, value⟩ := member
    have hrest : ∀ member ∈ rest, member.1 ≠ some "mediaSelectors" := fun member hmember =>
      hnone member (by simp [hmember])
    obtain ⟨key, rfl, ⟨hfield, hnew, next, hread, hnext⟩ | ⟨hother, hintact, hnext⟩⟩ :=
      Json.ofMembers_cons_eq_ok_iff.mp h
    · rw [Json.ofMembers_cons_eq_ok_iff]
      obtain hfield | hroot : key ∈ Options.fields ∨ key = "globalRootSelector" := by
        have hkey : key ≠ "mediaSelectors" := fun hkey => 
          hnone (some key, value) (by simp) (congrArg some hkey)
        simpa [fields, hkey] using hfield
      · obtain ⟨htables, hshorthands⟩ := readField_tables hfield hread
        obtain ⟨hmembers, hsame⟩ := @ih next hrest (key :: seen) (key :: seen')
          (fun field hoption hmem => by
            rcases List.mem_cons.mp hmem with rfl | hmem
            · exact List.mem_cons_self
            · exact List.mem_cons_of_mem _ (hseen field hoption hmem)) hnext
        exact ⟨⟨key, rfl, Or.inl ⟨hfield, fun hmem => hnew (hseen key hfield hmem), _, htables,
          hmembers⟩⟩, hsame.trans hshorthands⟩
      · subst hroot
        obtain ⟨htables, hshorthands, hintact⟩ := readField_root hread
        obtain ⟨hmembers, hsame⟩ := @ih next hrest _ seen'
          (fun field hoption hmem => List.mem_cons_of_mem _ (hseen field hoption hmem)) hnext
        exact ⟨⟨_, rfl, Or.inr ⟨by decide, hintact, htables ▸ hmembers⟩⟩, hsame.trans hshorthands⟩
    · obtain ⟨hmembers, hsame⟩ := ih hrest hseen hnext
      have hoption : key ∉ Options.fields := fun hmem => hother (List.mem_append_left _ hmem)
      refine ⟨Json.ofMembers_cons_eq_ok_iff.mpr ⟨key, rfl, Or.inr ?_⟩, hsame⟩
      exact ⟨hoption, hintact, hmembers⟩

/-- Without shorthands the options are the tables. -/
theorem options_of_no_shorthands (h : config.shorthands = []) :
    config.options = config.tables := by
  rw [options, resolve, entries, h]
  rfl

/-- An object without shorthands that is read as a configuration is read as its options, too. -/
theorem options_ofText {text : String} {members : List (Option String × Json)}
    (hvalue : (Document.ofText text).value = .object members)
    (hnone : ∀ member ∈ members, member.1 ≠ some "mediaSelectors")
    (h : ofText text = .ok config) : Options.ofText text = .ok config.options := by
  obtain ⟨read, hread, hends⟩ := Except.exists_of_bind_ok h
  rw [hvalue] at hread
  obtain ⟨hmembers, hshorthands⟩ := @ofMembers_tables _ _ members hnone [] [] (by simp) hread
  have hjson : Options.ofJson (.object members) = .ok read.tables := hmembers
  split at hends
  · next hrest =>
    obtain rfl := Except.ok.inj hends
    rw [Options.ofText, Document.read, hvalue, hjson, options_of_no_shorthands hshorthands]
    simp [bind, Except.bind, hrest]
  · exact absurd hends (by simp)

end Config

namespace Options

/-! ## Tables that are written out -/

/-- A member of the options with its entries in the order of the text. -/
inductive Section where
  | queries (entries : List (String × String))
  | modes (entries : List (String × String))
  /-- Automatic modes, one at least. -/
  | auto (first : String × AutoMode) (rest : List (String × AutoMode))
  /-- Null in place of automatic modes. -/
  | noAuto

namespace Section

/-- The name of the member. -/
def field : Section → String
  | queries _ => "mediaQueries"
  | modes _ => "mediaPrefixes"
  | auto _ _ | noAuto => "auto"

/-- Texts by name. -/
def texts (entries : List (String × String)) : Json :=
  .object (entries.map fun entry => (some entry.1, .text (some entry.2)))

/-- The selector and the media query of an automatic mode. -/
def pair (mode : AutoMode) : Json := .list [.text (some mode.selector), .text (some mode.query)]

/-- The value of the member. -/
def value : Section → Json
  | queries entries | modes entries => texts entries
  | auto first rest => .object ((first :: rest).map fun entry => (some entry.1, pair entry.2))
  | noAuto => .null

/-- The member of an object. -/
def member (part : Section) : Option String × Json := (some part.field, part.value)

/-- Writes the entries one after another. -/
def write (options : Options) : Section → Options
  | queries entries =>
    entries.foldl (fun options (name, query) => options.withQuery name query) options
  | modes entries =>
    entries.foldl (fun options (name, selector) => options.withMode name selector) options
  | auto first rest =>
    (first :: rest).foldl
      (fun options (name, mode) => options.withAuto name mode.selector mode.query) options
  | noAuto => options

/-- The table of the member is still empty. -/
def Fresh (options : Options) : Section → Prop
  | queries _ => options.queries = []
  | modes _ => options.modes = []
  | auto _ _ | noAuto => options.auto = none

theorem field_mem (part : Section) : part.field ∈ fields := by
  cases part <;> simp [field, fields]

variable {options : Options}

theorem write_queries {entries : List (String × String)} : write options (queries entries) =
    { options with
      queries := entries.foldl (fun table (name, query) => table.insert name query)
        options.queries } := by
  simp only [write]
  induction entries generalizing options with
  | nil => rfl
  | cons entry rest ih => exact ih

theorem write_modes {entries : List (String × String)} : write options (modes entries) =
    { options with
      modes := entries.foldl (fun table (name, selector) => table.insert name selector)
        options.modes } := by
  simp only [write]
  induction entries generalizing options with
  | nil => rfl
  | cons entry rest ih => exact ih

theorem write_auto {first : String × AutoMode} {rest : List (String × AutoMode)} :
    write options (auto first rest) = { options with
      auto := some ((first :: rest).foldl (fun table (name, mode) => table.insert name mode)
        (options.auto.getD [])) } := by
  simp only [write]
  induction rest generalizing options first with
  | nil => rfl
  | cons entry rest ih => exact @ih (options.withAuto _ _ _) entry

theorem readTexts_texts (entries : List (String × String)) :
    readTexts (texts entries) = .ok (Entries.ofList entries) :=
  Json.asEntries_object (fun text => .text (some text)) (fun _ => rfl) entries

theorem readAuto_pairs (entries : List (String × AutoMode)) :
    readAuto (.object (entries.map fun entry => (some entry.1, pair entry.2))) =
      .ok (some (Entries.ofList entries)) :=
  congrArg (Except.map some) (Json.asEntries_object pair (fun _ => rfl) entries)

/-- A member whose table is empty is read as the options that writing its entries leaves. -/
theorem readField_of_fresh {part : Section} (h : part.Fresh options) :
    options.readField part.field part.value = .ok (part.write options) := by
  cases part with
  | queries entries =>
    rw [write_queries, show options.queries = [] from h]
    exact congrArg (· >>= fun table => pure { options with queries := table })
      (readTexts_texts entries)
  | modes entries =>
    rw [write_modes, show options.modes = [] from h]
    exact congrArg (· >>= fun table => pure { options with modes := table })
      (readTexts_texts entries)
  | auto first rest =>
    rw [write_auto, show options.auto = none from h]
    exact congrArg (· >>= fun table => pure { options with auto := table })
      (readAuto_pairs (first :: rest))
  | noAuto =>
    refine congrArg Except.ok ?_
    rw [write, ← show options.auto = none from h]

/-- Writing a member leaves the tables of other members as they are. -/
theorem Fresh.write {part other : Section} (h : other.Fresh options)
    (hne : other.field ≠ part.field) : other.Fresh (part.write options) := by
  cases part with
  | queries entries =>
    rw [write_queries]
    cases other <;> first | exact absurd rfl hne | exact h
  | modes entries =>
    rw [write_modes]
    cases other <;> first | exact absurd rfl hne | exact h
  | auto first rest =>
    rw [write_auto]
    cases other <;> first | exact absurd rfl hne | exact h
  | noAuto => exact h

end Section

/-- Members of different names are read as the options that writing their entries one after another
leaves. A name that stands twice is not read. -/
theorem ofMembers_sections {parts : List Section} {seen : List String} {options result : Options}
    (hfresh : ∀ part ∈ parts, part.field ∉ seen → part.Fresh options) :
    ofMembers fields readField seen options (parts.map Section.member) = .ok result ↔
      ((parts.map Section.field).Nodup ∧ ∀ part ∈ parts, part.field ∉ seen) ∧
        result = parts.foldl Section.write options := by
  induction parts generalizing seen options with
  | nil => simp [ofMembers, eq_comm]
  | cons part rest ih =>
    rw [List.map_cons, Section.member, Json.ofMembers_cons_eq_ok_iff, List.map_cons,
      List.nodup_cons, List.forall_mem_cons, List.foldl_cons]
    have hpart := List.forall_mem_cons.mp hfresh
    have hnext (hnew : part.field ∉ seen) : ofMembers fields readField (part.field :: seen)
        (part.write options) (rest.map Section.member) = .ok result ↔ _ :=
      ih fun other hother hunseen =>
        (hpart.2 other hother fun hmem => hunseen (List.mem_cons_of_mem _ hmem)).write
          fun heq => hunseen (heq ▸ List.mem_cons_self)
    have hapart : (∀ other ∈ rest, other.field ∉ part.field :: seen) ↔
        part.field ∉ rest.map Section.field ∧ ∀ other ∈ rest, other.field ∉ seen := by
      simp only [List.mem_cons, List.mem_map, not_or, not_exists, not_and]
      exact ⟨fun h => ⟨fun other hother => (h other hother).1, fun other hother =>
        (h other hother).2⟩, fun h other hother => ⟨h.1 other hother, h.2 other hother⟩⟩
    constructor
    · rintro ⟨key, hkey, ⟨-, hnew, next, hread, hrest⟩ | ⟨hother, -⟩⟩
      · obtain rfl := Option.some.inj hkey
        rw [Section.readField_of_fresh (hpart.1 hnew)] at hread
        obtain rfl := Except.ok.inj hread
        obtain ⟨⟨hnodup, hunseen⟩, hresult⟩ := (hnext hnew).mp hrest
        obtain ⟨hfirst, hunseen⟩ := hapart.mp hunseen
        exact ⟨⟨⟨hfirst, hnodup⟩, hnew, hunseen⟩, hresult⟩
      · exact absurd (Option.some.inj hkey ▸ part.field_mem) hother
    · rintro ⟨⟨⟨hfirst, hnodup⟩, hnew, hunseen⟩, hresult⟩
      exact ⟨part.field, rfl, Or.inl ⟨part.field_mem, hnew, _,
        Section.readField_of_fresh (hpart.1 hnew),
        (hnext hnew).mpr ⟨⟨hnodup, hapart.mpr ⟨hfirst, hunseen⟩⟩, hresult⟩⟩⟩

/-- A text of the tables alone is read if no table stands twice, as the options that writing the
entries one after another leaves. -/
theorem ofText_sections {text : String} {parts : List Section}
    (hvalue : Document.ofText text = ⟨.object (parts.map Section.member), true⟩)
    (options : Options) : ofText text = .ok options ↔
      (parts.map Section.field).Nodup ∧ options = parts.foldl Section.write .empty := by
  have hread : ofText text = ofMembers fields readField [] .empty (parts.map Section.member) := by
    rw [ofText, Document.read, hvalue]
    change (ofMembers fields readField [] .empty (parts.map Section.member) >>= fun result =>
      .ok result) = _
    cases ofMembers fields readField [] .empty (parts.map Section.member) <;> rfl
  have hfresh : ∀ part ∈ parts, part.field ∉ [] → part.Fresh .empty := by
    intro part _ _
    cases part <;> rfl
  rw [hread, ofMembers_sections hfresh]
  simp

/-- The readers agree with each other and with writing entry by entry. An object without shorthands
that is read as a configuration is read as its options by the reader of options, too. An object of
the tables alone is read by it unless a table stands twice, as the options that writing the entries
of the text one after another leaves. -/
theorem ofText_readers (text : String) :
    (∀ members config, (Document.ofText text).value = .object members →
        (∀ member ∈ members, member.1 ≠ some "mediaSelectors") →
        Config.ofText text = .ok config → ofText text = .ok config.options) ∧
      ∀ parts : List Section,
        Document.ofText text = ⟨.object (parts.map Section.member), true⟩ →
          ∀ options, ofText text = .ok options ↔
            (parts.map Section.field).Nodup ∧ options = parts.foldl Section.write .empty :=
  ⟨fun _ _ hvalue hnone => Config.options_ofText hvalue hnone, fun _ => ofText_sections⟩

/-- Tables beside a member that is passed over and a selector of the root. -/
def surroundedText : String :=
  "\x7b\"extra\": [], \"mediaQueries\": \x7b\"phone\": \"a\", \"phone\": \"b\"\x7d, " ++
    "\"globalRootSelector\": \"html\", \"auto\": null\x7d"

/-- The members of the text. -/
def surroundedMembers : List (Option String × Json) :=
  [(some "extra", .list []),
    (some "mediaQueries", Section.texts [("phone", "a"), ("phone", "b")]),
    (some "globalRootSelector", .text (some "html")), (some "auto", .null)]

/-- Tables alone, with names that stand twice. -/
def repeatedText : String :=
  "\x7b\"auto\": \x7b\"dark\": [\".x\", \"m\"], \"dark\": [\".y\", \"n\"]\x7d, " ++
    "\"mediaQueries\": \x7b\"a\": \"p\", \"b\": \"q\", \"a\": \"r\"\x7d\x7d"

/-- The tables of the text. -/
def repeatedParts : List Section :=
  [.auto ("dark", ⟨".x", "m"⟩) [("dark", ⟨".y", "n"⟩)],
    .queries [("a", "p"), ("b", "q"), ("a", "r")]]

theorem ofText_surrounded_repeated :
    ofText surroundedText = .ok ⟨[("phone", "b")], [], none⟩ ∧
      ofText repeatedText = .ok ⟨[("a", "r"), ("b", "q")], [], some [("dark", ⟨".y", "n"⟩)]⟩ := by
  have hsurrounded : Json.Token.ofChars surroundedText.toList =
      (Json.object surroundedMembers).tokens := by
    with_unfolding_all rfl
  have hrepeated : Json.Token.ofChars repeatedText.toList =
      (Json.object (repeatedParts.map Section.member)).tokens := by
    with_unfolding_all rfl
  have hconfig : Config.ofText surroundedText =
      .ok ⟨[("phone", "b")], [], none, [], some "html"⟩ :=
    Document.read_of_tokens Config.ofJson hsurrounded (by decide)
  refine ⟨?_, ?_⟩
  · exact (ofText_readers surroundedText).1 surroundedMembers _
      (congrArg Document.value (Document.ofText_of_tokens hsurrounded (by decide)))
      (by decide) hconfig
  · exact ((ofText_readers repeatedText).2 repeatedParts
      (Document.ofText_of_tokens hrepeated (by decide)) _).mpr ⟨by decide, rfl⟩

end Options

end NestedStyles
