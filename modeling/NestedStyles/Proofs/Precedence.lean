import NestedStyles.Proofs.ShorthandOrder
import NestedStyles.Proofs.Writes

/-!
# Which part of a configuration a name is taken from

A shorthand writes to one of the three tables, and only to a name that is new
(`Config.queries_fold`, `Config.modes_fold`, `Config.auto_fold`). So the shorthands write their
parts one after another behind the explicit table (`Config.table_options`): a name has its value
from the explicit table, and otherwise from the shorthand at the first position that gives it one,
and the names stand in the same order (`Config.Resolves`, `Config.options_precedence`).
-/

namespace NestedStyles

namespace Shorthand

/-- The media query of a shorthand that has no selector. -/
def namedQuery? : Shorthand → Option String
  | ⟨none, some query⟩ => some query
  | _ => none

/-- The selector of a shorthand that has no media query, behind that of the root element. -/
def modeSelector? (root : String) : Shorthand → Option String
  | ⟨some selector, none⟩ => some (root ++ selector)
  | _ => none

/-- The automatic mode of a shorthand that has both, its selector behind that of the root. -/
def autoMode? (root : String) : Shorthand → Option AutoMode
  | ⟨some selector, some query⟩ => some ⟨root ++ selector, query⟩
  | _ => none

theorem autoMode?_eq_none_iff {root : String} {shorthand : Shorthand} :
    shorthand.autoMode? root = none ↔ shorthand.selector = none ∨ shorthand.query = none := by
  obtain ⟨_ | selector, _ | query⟩ := shorthand <;> simp [autoMode?]

end Shorthand

namespace Config

/-- A table is resolved from the explicit one and a part of the shorthands. -/
structure Resolves {α : Type} (part : Shorthand → Option α) (config : Config)
    (explicit table : Entries α) : Prop where
  /-- A name has its explicit value, and otherwise the one that is given to it first. -/
  get?_iff : ∀ name value, table.get? name = some value ↔ explicit.get? name = some value ∨
    explicit.get? name = none ∧ ∃ position, config.GivesFirst part position name value
  /-- The explicit names stand first, and then the new ones by the positions that give them
  first. -/
  keys_eq : ∃ new, table.keys = explicit.keys ++ new ∧
    (∀ name, name ∈ new ↔
      name ∉ explicit.keys ∧ ∃ position value, config.Gives part position name value) ∧
    new.Pairwise fun a b => ∃ p q v w,
      config.GivesFirst part p a v ∧ config.GivesFirst part q b w ∧ p.Before q

/-! ## One shorthand -/

/-- The table with the part of a shorthand, if it has it and its variant is new. -/
def taking {α : Type} (part : Shorthand → Option α) (table : Entries α)
    (entry : String × String × Shorthand) : Entries α :=
  match part entry.2.2 with
  | none => table
  | some value => table.insertNew entry.2.1 value

section Fold

variable (root : String) (state : Options × List Warning) (entry : String × String × Shorthand)

/-- Only a media query alone is written to the media queries. A name that is there is left with a
warning. -/
theorem queries_fold : (fold root state entry).1.queries =
    taking Shorthand.namedQuery? state.1.queries entry := by
  obtain ⟨options, warnings⟩ := state
  obtain ⟨group, variant, ⟨_ | selector, _ | query⟩⟩ := entry
  · rfl
  · cases hold : options.queries.get? variant with
    | none =>
      simp only [fold, hold, taking, Shorthand.namedQuery?, Options.withQuery]
      exact Entries.insert_eq_insertNew hold query
    | some old =>
      simp only [fold, hold, taking, Shorthand.namedQuery?]
      exact (Entries.insertNew_of_get? hold query).symm
  · rfl
  · rfl

/-- Only a selector alone is written to the modes. -/
theorem modes_fold : (fold root state entry).1.modes =
    taking (Shorthand.modeSelector? root) state.1.modes entry := by
  obtain ⟨options, warnings⟩ := state
  obtain ⟨group, variant, ⟨_ | selector, _ | query⟩⟩ := entry
  · rfl
  · cases hold : options.queries.get? variant <;> simp [fold, hold, taking,
      Shorthand.modeSelector?, Options.withQuery]
  · rfl
  · rfl

/-- Only a selector with a media query is written to the automatic modes, which are given from then
on. -/
theorem auto_fold : (fold root state entry).1.auto.getD [] =
      taking (Shorthand.autoMode? root) (state.1.auto.getD []) entry ∧
    (fold root state entry).1.auto.isNone =
      (state.1.auto.isNone && (entry.2.2.autoMode? root).isNone) := by
  obtain ⟨options, warnings⟩ := state
  obtain ⟨group, variant, ⟨_ | selector, _ | query⟩⟩ := entry
  · simp [fold, taking, Shorthand.autoMode?]
  · cases hold : options.queries.get? variant <;> simp [fold, hold, taking,
      Shorthand.autoMode?, Options.withQuery]
  · simp [fold, taking, Shorthand.autoMode?]
  · simp [fold, taking, Shorthand.autoMode?]

end Fold

/-! ## All shorthands -/

section Options

variable {α : Type} {config : Config} {table : Options → Entries α} {part : Shorthand → Option α}
  (hfold : ∀ state entry,
    table (fold config.rootSelector state entry).1 = taking part (table state.1) entry)

include hfold

/-- The shorthands write their parts behind the explicit table, one after another. -/
theorem table_options : table config.options =
    (config.derived part).foldl (fun e w => e.insertNew w.1 w.2) (table config.tables) := by
  have hrun : table config.options = config.entries.foldl (taking part) (table config.tables) :=
    (List.foldl_hom (fun state => table state.1) fun state entry => (hfold state entry).symm).symm
  rw [hrun, derived, List.foldl_filterMap]
  congr 1
  funext entries entry
  cases h : part entry.2.2 <;> simp [taking, h]

theorem keys_table_options : (table config.options).keys = (table config.tables).keys ++
    newNames (config.derived part).keys (table config.tables).keys := by
  rw [table_options hfold]
  exact Entries.keys_foldl_upsert Prod.fst (fun w old => old.getD w.2) _ _

/-- The options are resolved from the explicit table and the part that belongs into it. -/
theorem resolves_options : config.Resolves part (table config.tables) (table config.options) where
  get?_iff name value := by
    rw [table_options hfold, Entries.get?_foldl_insertNew, ← get?_derived_eq_some_iff]
    cases (table config.tables).get? name <;> simp
  keys_eq := by
    refine ⟨_, keys_table_options hfold, fun name => ?_, ?_⟩
    · exact mem_newNames.trans ((and_congr mem_keys_derived_iff Iff.rfl).trans And.comm)
    · have hnew := inOrder_newNames (given_pairwise part config) (table config.tables).keys
      simpa only [InOrder, map_given, isFirst_given_iff] using hnew

end Options

/-- There are automatic modes if they are given or some shorthand has one. -/
theorem isNone_auto_foldl (root : String) (entries : List (String × String × Shorthand))
    (state : Options × List Warning) : (entries.foldl (fold root) state).1.auto.isNone =
      (state.1.auto.isNone && entries.all fun entry => (entry.2.2.autoMode? root).isNone) := by
  induction entries generalizing state with
  | nil => simp
  | cons entry rest ih =>
    rw [List.foldl_cons, ih, (auto_fold root state entry).2, List.all_cons, Bool.and_assoc]

/-- In each table a name has its explicit value, and otherwise that of the first shorthand of its
variant with the part that belongs into the table, by group, variant and entry; the explicit names
stand first, and then the new ones by these first shorthands. There are automatic modes exactly if
they are given or some shorthand has both a selector and a media query. -/
theorem options_precedence (config : Config) :
    config.Resolves Shorthand.namedQuery? config.queries config.options.queries ∧
    config.Resolves (Shorthand.modeSelector? (config.root.getD ":root")) config.modes
      config.options.modes ∧
    config.Resolves (Shorthand.autoMode? (config.root.getD ":root")) (config.auto.getD [])
      (config.options.auto.getD []) ∧
    (config.options.auto = none ↔ config.auto = none ∧ ∀ position variant shorthand,
      config.StandsAt position variant shorthand →
        shorthand.selector = none ∨ shorthand.query = none) := by
  have hauto := fun state entry => (auto_fold config.rootSelector state entry).1
  have hnone := isNone_auto_foldl config.rootSelector config.entries (config.tables, [])
  let auto (options : Options) : Entries AutoMode := options.auto.getD []
  refine ⟨resolves_options (queries_fold config.rootSelector),
    resolves_options (modes_fold config.rootSelector),
    @resolves_options _ config auto _ hauto, ?_⟩
  rw [← Option.isNone_iff_eq_none, options, resolve, hnone, Bool.and_eq_true, List.all_eq_true]
  simp only [Option.isNone_iff_eq_none, Shorthand.autoMode?_eq_none_iff]
  exact and_congr Iff.rfl (@forall_entries_iff config fun shorthand =>
    shorthand.selector = none ∨ shorthand.query = none)

/-- A variant of two groups and an explicit name. -/
example : Config.options { Config.empty with
    queries := [("tablet", "(min-width: 600px)")]
    shorthands := [("device", [("phone", [⟨none, some "(max-width: 499px)"⟩])]),
      ("size", [("tablet", [⟨none, some "(min-width: 500px)"⟩]),
        ("phone", [⟨none, some "(max-width: 599px)"⟩, ⟨some ".phone", none⟩])])] } =
    ⟨[("tablet", "(min-width: 600px)"), ("phone", "(max-width: 499px)")],
      [("phone", ":root.phone")], none⟩ := by
  rfl

end Config

end NestedStyles
