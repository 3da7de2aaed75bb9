import NestedStyles.Proofs.Declared
import NestedStyles.Proofs.Trimmed

/-!
# Blocks of a rule set

A rule set is a table of tables: one block for each selector and one line for each of its
properties, both where they were first written, with the last value. A declaration under one
selector leaves the blocks of the others as they are (`RuleSet.filter_declare`), and a rule set has
no text exactly if it has no declaration (`RuleSet.css_eq_empty_iff`). Together that is what any
row of declarations leaves (`RuleSet.blocks_ofDeclared`).
-/

namespace NestedStyles

universe u

/-- Writing a name leaves the other entries as they are and in their order. -/
theorem Entries.filter_upsert {α : Type u} (name : String) (change : Option α → α)
    (entries : Entries α) : (entries.upsert name change).filter (·.1 != name) =
      List.filter (·.1 != name) entries := by
  induction entries with
  | nil => simp [upsert]
  | cons entry rest ih =>
    obtain ⟨k, v⟩ := entry
    rw [upsert]
    split
    · next hk => simp [hk]
    · next hk => simp [hk, ih]

namespace RuleSet

/-- A declaration under one selector leaves the rules of the others as they are. -/
theorem filter_declare (rules : RuleSet) (selector property value : String) :
    (rules.declare selector property value).filter (·.1 != selector) =
      List.filter (·.1 != selector) rules :=
  Entries.filter_upsert selector _ rules

/-! ## Rule sets without text -/

theorem rule_ne_empty (rule : String × Declarations) : RuleSet.rule rule ≠ "" := by
  intro h
  rw [RuleSet.rule, intercalate_lines] at h
  have hbrace := congrArg (·.toList.length) h
  simp at hbrace

/-- A rule set has no text exactly if no selector has a declaration. -/
theorem css_eq_empty_iff (rules : RuleSet) : rules.css = "" ↔ rules.isEmpty = true := by
  have hnil : rules.isEmpty = true ↔ rules.filter (fun rule => !rule.2.isEmpty) = [] := by
    rw [isEmpty, List.all_eq_true, List.filter_eq_nil_iff]
    simp
  rw [hnil, css]
  by_cases hblocks : rules.filter (fun rule => !rule.2.isEmpty) = []
  · simp [hblocks]
  · refine iff_of_false (Text.intercalate_of (p := (· ≠ "")) (fun hfront _ hempty => ?_)
      (by simpa using hblocks) fun text htext => ?_) hblocks
    · rw [String.append_assoc, String.append_eq_empty_iff] at hempty
      exact hfront hempty.1
    · obtain ⟨rule, -, rfl⟩ := List.mem_map.mp htext
      exact rule_ne_empty rule

/-- No selector has a declaration exactly if none was written. -/
theorem isEmpty_ofDeclared (list : List Declared) :
    (ofDeclared list).isEmpty = true ↔ list = [] := by
  rw [← ofDeclared_eq_nil_iff, isEmpty, List.all_eq_true]
  constructor
  · intro h
    refine List.eq_nil_iff_forall_not_mem.mpr fun rule hrule => ?_
    exact ne_nil_of_mem_ofDeclared list hrule (by simpa using h rule hrule)
  · intro h
    simp [h]

/-! ## What a row of declarations leaves -/

/-- Declarations in a row leave one block for each selector, in the order in which the selectors
were first declared for. A block has one line for each property of its selector, in the order in
which these were first declared, with the last value. One declaration more changes no block of
another selector. There is no text exactly if the rule set is empty, and that is so exactly if
nothing was declared. -/
theorem blocks_ofDeclared (list : List Declared) :
    (ofDeclared list).css =
        "\n\n".intercalate ((Declared.selectors list).map (Declared.block list)) ∧
      (Declared.selectors list).Nodup ∧
      (∀ s, (Declared.properties (Declared.under s list)).Nodup) ∧
      (∀ s p v, ((ofDeclared list).declare s p v).filter (·.1 != s) =
        (ofDeclared list).filter (·.1 != s)) ∧
      ((ofDeclared list).css = "" ↔ (ofDeclared list).isEmpty = true) ∧
      ((ofDeclared list).isEmpty = true ↔ list = []) :=
  ⟨css_ofDeclared list, Entries.nodup_eraseDups _, fun _ => Entries.nodup_eraseDups _,
    filter_declare _, css_eq_empty_iff _, isEmpty_ofDeclared list⟩

/-- A later value stands where the earlier one did, in the block that was there first. -/
example : (ofDeclared [⟨"a", "color", "red"⟩, ⟨"b", "top", "0"⟩, ⟨"a", "left", "0"⟩,
      ⟨"a", "color", "blue"⟩]).css =
    "a \x7b\n  color: blue;\n  left: 0;\n\x7d\n\nb \x7b\n  top: 0;\n\x7d" := by
  decide +kernel

end RuleSet

end NestedStyles
