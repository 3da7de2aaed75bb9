import Mathlib.Data.List.Basic
import Mathlib.Data.List.Induction
import NestedStyles.Proofs.Precedence

/-!
# Warnings about media queries that are there already

A shorthand that names a media query is warned about if its variant is in the table by then. The
table holds the explicit names and those of the shorthands before it (`Config.mem_keys_foldl`), so
the warnings of a configuration are those of its entries, each by what stands before it
(`Config.warnings_eq`). That the media query is one of the explicit ones, as the warning says, is
true of all of them exactly if no other name is given by two shorthands
(`Config.duplicates_eq_iff`); otherwise a warning is given for a table that does not hold the name
(`Config.duplicate_without_table`).
-/

namespace NestedStyles

/-- The warning tells of a media query that is there already. -/
def Warning.isDuplicate : Warning → Bool
  | .queryTaken _ => true
  | .emptyShorthand .. => false

namespace Config

/-- The variant of an entry that names a media query. -/
def queryName? (entry : String × String × Shorthand) : Option String :=
  entry.2.2.namedQuery?.map fun _ => entry.2.1

/-- The warning of an entry behind others, if the names are explicit. -/
def warning? (explicit : List String) (before : List (String × String × Shorthand))
    (entry : String × String × Shorthand) : Option Warning :=
  match entry with
  | (_, variant, ⟨none, some _⟩) =>
    if variant ∈ explicit ∨ variant ∈ before.filterMap queryName? then some (.queryTaken variant)
    else none
  | (group, variant, ⟨none, none⟩) => some (.emptyShorthand group variant)
  | _ => none

/-- The names that shorthands give to media queries, in order. -/
def queryNames (config : Config) : List String := config.entries.filterMap queryName?

/-- The names that shorthands give to media queries and that the explicit table holds. -/
def explicitNames (config : Config) : List String :=
  config.queryNames.filter (· ∈ config.queries.keys)

section Fold

variable (root : String)

theorem mem_keys_fold (state : Options × List Warning) (entry : String × String × Shorthand)
    (name : String) : name ∈ (fold root state entry).1.queries.keys ↔
      name ∈ state.1.queries.keys ∨ queryName? entry = some name := by
  rw [queries_fold, taking, queryName?]
  cases entry.2.2.namedQuery? with
  | none => simp
  | some query =>
    simp only [Entries.insertNew, Entries.keys_upsert, Option.map_some, Option.some.injEq]
    split <;> grind

/-- Behind some shorthands the table of the media queries holds their names. -/
theorem mem_keys_foldl (state : Options × List Warning)
    (entries : List (String × String × Shorthand)) (name : String) :
    name ∈ (entries.foldl (fold root) state).1.queries.keys ↔
      name ∈ state.1.queries.keys ∨ name ∈ entries.filterMap queryName? := by
  induction entries generalizing state with
  | nil => simp
  | cons entry rest ih =>
    rw [List.foldl_cons, ih, mem_keys_fold, List.filterMap_cons]
    cases queryName? entry with
    | none => simp
    | some other => simp [or_assoc, eq_comm]

/-- One shorthand adds its warning to those before it. -/
theorem warnings_fold {explicit : List String} {before : List (String × String × Shorthand)}
    {state : Options × List Warning}
    (hstate : ∀ name, name ∈ state.1.queries.keys ↔
      name ∈ explicit ∨ name ∈ before.filterMap queryName?)
    (entry : String × String × Shorthand) :
    (fold root state entry).2 = state.2 ++ (warning? explicit before entry).toList := by
  obtain ⟨options, warnings⟩ := state
  obtain ⟨group, variant, ⟨_ | selector, _ | query⟩⟩ := entry
  · rfl
  · have htaken : (options.queries.get? variant).isSome = true ↔
        variant ∈ explicit ∨ variant ∈ before.filterMap queryName? :=
      Entries.get?_isSome variant options.queries |>.trans (hstate variant)
    by_cases h : variant ∈ explicit ∨ variant ∈ before.filterMap queryName?
    · simp only [fold, warning?, if_pos (htaken.mpr h), if_pos h, Option.toList_some]
    · simp only [fold, warning?, if_neg (mt htaken.mp h), if_neg h, Option.toList_none,
        List.append_nil]
  · simp [fold, warning?]
  · simp [fold, warning?]

end Fold

/-- The warnings of entries, each by those before it. -/
def warningsOf (explicit : List String) (entries : List (String × String × Shorthand)) :
    List Warning :=
  entries.zipIdx.filterMap fun (entry, position) =>
    warning? explicit (entries.take position) entry

theorem warningsOf_concat (explicit : List String) (front : List (String × String × Shorthand))
    (entry : String × String × Shorthand) : warningsOf explicit (front ++ [entry]) =
      warningsOf explicit front ++ (warning? explicit front entry).toList := by
  rw [warningsOf, List.zipIdx_append, List.filterMap_append, warningsOf]
  congr 1
  · refine List.filterMap_congr fun ⟨other, position⟩ hplaced => ?_
    have hlt := (List.mem_zipIdx hplaced).2.1
    dsimp only
    rw [List.take_append_of_le_length (by omega)]
  · cases h : warning? explicit front entry <;> simp [h]

/-- The warnings of a configuration are those of its entries. -/
theorem warnings_eq (config : Config) :
    config.warnings = warningsOf config.queries.keys config.entries := by
  have hrun (entries : List (String × String × Shorthand)) :
      (entries.foldl (fold config.rootSelector) (config.tables, [])).2 =
        warningsOf config.queries.keys entries := by
    induction entries using List.reverseRecOn with
    | nil => rfl
    | append_singleton front entry ih =>
      rw [List.foldl_append, List.foldl_cons, List.foldl_nil, warningsOf_concat, ← ih]
      exact warnings_fold _ (mem_keys_foldl _ _ front) entry
  exact hrun config.entries

/-! ## What the warnings say -/

section Duplicates

variable (explicit : List String)

/-- The duplicates among the warnings of an entry. -/
theorem filter_warning? (before : List (String × String × Shorthand))
    (entry : String × String × Shorthand) :
    (warning? explicit before entry).toList.filter Warning.isDuplicate =
      ((queryName? entry).toList.filter fun name =>
        name ∈ explicit ∨ name ∈ before.filterMap queryName?).map .queryTaken := by
  obtain ⟨group, variant, ⟨_ | selector, _ | query⟩⟩ := entry
  · rfl
  · simp only [warning?, queryName?, Shorthand.namedQuery?]
    split <;> simp_all [Warning.isDuplicate]
  · rfl
  · rfl

/-- The names that shorthands give to media queries, one shorthand more. -/
theorem filterMap_concat (front : List (String × String × Shorthand))
    (entry : String × String × Shorthand) :
    (front ++ [entry]).filterMap queryName? =
      front.filterMap queryName? ++ (queryName? entry).toList := by
  cases h : queryName? entry <;> simp [h]

/-- The explicit names are warned about, and no others are exactly if none of them is given
twice. -/
theorem duplicates_warningsOf (entries : List (String × String × Shorthand)) :
    let found := (warningsOf explicit entries).filter Warning.isDuplicate
    let names := entries.filterMap queryName?
    let due := (names.filter (· ∈ explicit)).map Warning.queryTaken
    due.Sublist found ∧ (found = due ↔ (names.filter (· ∉ explicit)).Nodup) := by
  induction entries using List.reverseRecOn with
  | nil => simp [warningsOf]
  | append_singleton front entry ih =>
    simp only [decide_not] at ih ⊢
    obtain ⟨hsublist, hiff⟩ := ih
    rw [warningsOf_concat, List.filter_append, filter_warning?, filterMap_concat,
      List.filter_append, List.filter_append, List.map_append]
    generalize (warningsOf explicit front).filter Warning.isDuplicate = found at hsublist hiff ⊢
    generalize front.filterMap queryName? = names at hsublist hiff ⊢
    cases queryName? entry with
    | none => simpa using ⟨hsublist, hiff⟩
    | some name =>
      by_cases hexplicit : name ∈ explicit
      · simpa [hexplicit] using ⟨hsublist, hiff⟩
      · by_cases hnames : name ∈ names
        · -- A name that is given again is warned about, and it is not due.
          have hfound : found ++ [.queryTaken name] ≠
              (names.filter (· ∈ explicit)).map Warning.queryTaken := fun h => by
            have hlength := hsublist.length_le
            rw [← h, List.length_append, List.length_singleton] at hlength
            omega
          simp [hexplicit, hnames, hfound, hsublist.trans (List.sublist_append_left _ _),
            List.nodup_append]
        · have hnew : ∀ other ∈ names, other ∉ explicit → other ≠ name := fun _ hother _ h =>
            hnames (h ▸ hother)
          simpa [hexplicit, hnames, List.nodup_append] using
            ⟨hsublist, hiff.trans (and_iff_left hnew).symm⟩

end Duplicates

/-- A configuration warns of its shorthands in their order. A media query is a duplicate if the
explicit table or a shorthand before it has its name, so the duplicates are the shorthands with
explicit names exactly if no other name is given twice. -/
theorem duplicates_eq_iff (config : Config) :
    config.warnings = warningsOf config.queries.keys config.entries ∧
      (config.warnings.filter Warning.isDuplicate = config.explicitNames.map .queryTaken ↔
        (config.queryNames.filter (· ∉ config.queries.keys)).Nodup) := by
  refine ⟨warnings_eq config, ?_⟩
  rw [warnings_eq]
  exact (duplicates_warningsOf config.queries.keys config.entries).2

/-- A variant with two media queries, and no explicit table. -/
def twoQueries : Config :=
  { Config.empty with
    shorthands := [("device", [("phone", [⟨none, some "(max-width: 499px)"⟩,
      ⟨none, some "(max-width: 599px)"⟩])])] }

/-- The second media query is warned about as one of a table that is empty. -/
theorem duplicate_without_table : twoQueries.queries = [] ∧
    twoQueries.warnings.map Warning.message =
      ["media shorthand `phone` is also in mediaQueries; using the mediaQueries value"] ∧
    twoQueries.warnings.filter Warning.isDuplicate ≠
      twoQueries.explicitNames.map .queryTaken := by
  decide

end Config

end NestedStyles
