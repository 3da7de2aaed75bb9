import NestedStyles.Proofs.Writes
import NestedStyles.RuleSet

/-!
# Declarations in a row

Declarations written one after another leave one block for each selector and one line for each of
its properties, both in the order of their first occurrence, and the last value stands
(`RuleSet.ofDeclared_eq`). `Declared.block` is the text of such a block, and
`RuleSet.css_ofDeclared` says that the text of the rule set is these blocks with a blank line
between them.
-/

namespace NestedStyles

/-- A property with its value, under one selector. -/
structure Declared where
  selector : String
  property : String
  value : String
deriving DecidableEq

namespace Declared

/-- The selectors, each at its first occurrence. -/
def selectors (list : List Declared) : List String := (list.map selector).eraseDups

/-- The declarations under one selector. -/
def under (s : String) (list : List Declared) : List Declared := list.filter (·.selector = s)

/-- The properties, each at its first occurrence. -/
def properties (list : List Declared) : List String := (list.map property).eraseDups

/-- The last value of a property. -/
def last? (p : String) (list : List Declared) : Option String :=
  (list.filter (·.property = p)).getLast?.map value

/-- The line of a property, with its last value. -/
def line (list : List Declared) (p : String) : String :=
  "  " ++ p ++ ": " ++ Url.requote ((last? p list).getD "") ++ ";\n"

/-- The declaration under a renamed selector. -/
def rename (f : String → String) (d : Declared) : Declared :=
  { d with selector := f d.selector }

/-- The block of a selector: its properties, each on its line. -/
def block (list : List Declared) (s : String) : String :=
  s ++ " \x7b\n" ++ String.join ((properties (under s list)).map (line (under s list))) ++ "\x7d"

end Declared

/-- The rule set that the declarations leave when they are written in order. -/
def RuleSet.ofDeclared (list : List Declared) : RuleSet :=
  list.foldl (fun rules d => rules.declare d.selector d.property d.value) []

/-! ## Values of a run of writes -/

section Folds

universe u v

variable {α : Type u} {β : Type v}

/-- A value that starts from a default and is changed once at least is there. -/
theorem foldl_some_getD (start : α) (f : α → β → α) {writes : List β} (h : writes ≠ []) :
    writes.foldl (fun old w => some (f (old.getD start) w)) none =
      some (writes.foldl f start) := by
  have hsome : ∀ (rest : List β) (x : α),
      rest.foldl (fun old w => some (f (old.getD start) w)) (some x) = some (rest.foldl f x) := by
    intro rest
    induction rest with
    | nil => exact fun x => rfl
    | cons w rest ih => exact fun x => ih (f x w)
  cases writes with
  | nil => exact absurd rfl h
  | cons w rest => exact hsome rest (f start w)

/-- A value that each write replaces is that of the last write. -/
theorem foldl_some_last (f : β → α) (writes : List β) (old : Option α) :
    writes.foldl (fun _ w => some (f w)) old = (writes.getLast?.map f).or old := by
  induction writes generalizing old with
  | nil => simp
  | cons w rest ih =>
    rw [List.foldl_cons, ih, List.getLast?_cons]
    cases rest.getLast? <;> simp

end Folds

namespace Declared

variable (list : List Declared)

/-- What the declarations under one selector leave. -/
def declarations : Declarations :=
  (properties list).map fun p => (p, (last? p list).getD "")

theorem mem_properties {p : String} :
    p ∈ properties list ↔ ∃ d ∈ list, d.property = p := by
  simp [properties]

theorem mem_selectors {s : String} : s ∈ selectors list ↔ ∃ d ∈ list, d.selector = s := by
  simp [selectors]

/-- A selector stands in the row exactly if there are declarations under it. -/
theorem mem_selectors_iff_under {s : String} : s ∈ selectors list ↔ under s list ≠ [] := by
  rw [mem_selectors, under, ne_eq, List.filter_eq_nil_iff]
  simp

/-- The declarations under a renamed selector are those under the selector. -/
theorem under_rename {f : String → String} (hf : ∀ a b, f a = f b → a = b) (s : String) :
    under (f s) (list.map (rename f)) = (under s list).map (rename f) := by
  rw [under, under, List.filter_map]
  refine congrArg (List.map _) (List.filter_congr fun d _ => ?_)
  by_cases h : d.selector = s
  · simp [rename, h]
  · have hne : f d.selector ≠ f s := fun heq => h (hf _ _ heq)
    simp [rename, h, hne]

/-- A property has a last value exactly if it occurs. -/
theorem last?_eq_some {p : String} (h : p ∈ properties list) :
    last? p list = some ((last? p list).getD "") := by
  obtain ⟨d, hd, hp⟩ := (mem_properties list).mp h
  have hne : list.filter (·.property = p) ≠ [] :=
    List.ne_nil_of_mem (List.mem_filter.mpr ⟨hd, by simpa using hp⟩)
  obtain ⟨x, hx⟩ := Option.ne_none_iff_exists'.mp fun h => hne (List.getLast?_eq_none_iff.mp h)
  simp only [last?, hx]
  rfl

theorem last?_eq_none {p : String} (h : p ∉ properties list) : last? p list = none := by
  have hnil : list.filter (·.property = p) = [] :=
    List.filter_eq_nil_iff.mpr fun d hd hp =>
      h ((mem_properties list).mpr ⟨d, hd, by simpa using hp⟩)
  simp [last?, hnil]

/-- Properties stand in the order of their first write and have their last value. -/
theorem foldl_insert_eq :
    list.foldl (fun e d => Entries.insert d.property d.value e) [] = declarations list := by
  refine (Entries.distinct_nil.foldl_upsert property (fun d _ => d.value) list).eq_of_view
    ?_ fun p => ?_
  · rw [Entries.keys_foldl_upsert_nil, declarations, Entries.keys_map_pair, properties]
  · rw [Entries.get?_foldl_upsert, Entries.get?_nil, foldl_some_last, Option.or_none,
      declarations, Entries.get?_map_pair]
    by_cases h : p ∈ properties list
    · rw [if_pos h]
      exact last?_eq_some list h
    · rw [if_neg h]
      exact last?_eq_none list h

/-- What declarations leave has been declared. -/
theorem exists_of_mem_declarations {entry : String × String} (h : entry ∈ declarations list) :
    ∃ d ∈ list, (d.property, d.value) = entry := by
  rw [← foldl_insert_eq] at h
  have hlist : entry ∈ Entries.ofList (list.map fun d => (d.property, d.value)) := by
    rw [Entries.ofList, List.foldl_map]
    exact h
  exact List.mem_map.mp (Entries.mem_ofList hlist)

end Declared

namespace RuleSet

variable (list : List Declared)

/-- One rule for each selector, in the order of its first write. -/
theorem ofDeclared_eq :
    ofDeclared list = (Declared.selectors list).map fun s =>
      (s, Declared.declarations (Declared.under s list)) := by
  refine (Entries.distinct_nil.foldl_upsert Declared.selector
    (fun d old => Entries.insert d.property d.value (old.getD [])) list).eq_of_view
    ?_ fun s => ?_
  · rw [Entries.keys_foldl_upsert_nil, Entries.keys_map_pair, Declared.selectors]
  · rw [Entries.get?_foldl_upsert, Entries.get?_nil, Entries.get?_map_pair]
    by_cases h : s ∈ Declared.selectors list
    · obtain ⟨d, hd, hs⟩ := (Declared.mem_selectors list).mp h
      have hne : list.filter (·.selector = s) ≠ [] :=
        List.ne_nil_of_mem (List.mem_filter.mpr ⟨hd, by simpa using hs⟩)
      rw [if_pos h, ← Declared.foldl_insert_eq]
      exact foldl_some_getD [] (fun e d => Entries.insert d.property d.value e) hne
    · have hnil : list.filter (·.selector = s) = [] :=
        List.filter_eq_nil_iff.mpr fun d hd hs =>
          h ((Declared.mem_selectors list).mpr ⟨d, hd, by simpa using hs⟩)
      rw [if_neg h, hnil, List.foldl_nil]

/-- A selector has declarations exactly if one stands in the row. -/
theorem get?_ofDeclared (s : String) :
    (ofDeclared list).get? s =
      if s ∈ Declared.selectors list then some (Declared.declarations (Declared.under s list))
      else none := by
  rw [ofDeclared_eq, Entries.get?_map_pair]

/-- The value of a property under a selector. -/
def value? (rules : RuleSet) (selector property : String) : Option String :=
  (rules.get? selector).bind (Entries.get? property)

/-- A property has under a selector the last value that is declared for it there. -/
theorem value?_ofDeclared (s p : String) :
    (ofDeclared list).value? s p = Declared.last? p (Declared.under s list) := by
  rw [value?, get?_ofDeclared]
  by_cases hs : s ∈ Declared.selectors list
  · rw [if_pos hs, Option.bind_some, Declared.declarations, Entries.get?_map_pair]
    by_cases hp : p ∈ Declared.properties (Declared.under s list)
    · rw [if_pos hp, ← Declared.last?_eq_some _ hp]
    · rw [if_neg hp, Declared.last?_eq_none _ hp]
  · have hunder : Declared.under s list = [] := by
      rwa [Declared.mem_selectors_iff_under, ne_eq, Decidable.not_not] at hs
    rw [if_neg hs, hunder]
    rfl

/-- A property that is declared for a selector has the value of a declaration in the row. -/
theorem value?_ofDeclared_of_mem {d : Declared} (h : d ∈ list) :
    ∃ value, (ofDeclared list).value? d.selector d.property = some value ∧
      ⟨d.selector, d.property, value⟩ ∈ list := by
  have hunder : d ∈ Declared.under d.selector list := List.mem_filter.mpr ⟨h, by simp⟩
  have hproperty : d.property ∈ Declared.properties (Declared.under d.selector list) :=
    (Declared.mem_properties _).mpr ⟨d, hunder, rfl⟩
  have hlast := Declared.last?_eq_some _ hproperty
  obtain ⟨last, hget, hvalue⟩ := Option.map_eq_some_iff.mp hlast
  obtain ⟨hmem, hname⟩ := List.mem_filter.mp (List.mem_of_getLast? hget)
  obtain ⟨hlist, hselector⟩ := List.mem_filter.mp hmem
  have hselectors : d.selector ∈ Declared.selectors list :=
    (Declared.mem_selectors list).mpr ⟨d, h, rfl⟩
  refine ⟨last.value, ?_, ?_⟩
  · rw [value?, get?_ofDeclared, if_pos hselectors, Option.bind_some, Declared.declarations,
      Entries.get?_map_pair, if_pos hproperty, ← hvalue]
  · rw [← of_decide_eq_true hselector, ← of_decide_eq_true hname]
    exact hlist

/-- Declarations leave the same under a renamed selector. -/
theorem declarations_rename (f : String → String) :
    Declared.declarations (list.map (Declared.rename f)) = Declared.declarations list := by
  have hproperties : Declared.properties (list.map (Declared.rename f)) =
      Declared.properties list := by
    rw [Declared.properties, Declared.properties, List.map_map]
    rfl
  have hlast (p : String) :
      Declared.last? p (list.map (Declared.rename f)) = Declared.last? p list := by
    rw [Declared.last?, List.filter_map, List.getLast?_map, Option.map_map]
    rfl
  rw [Declared.declarations, Declared.declarations, hproperties]
  exact List.map_congr_left fun p _ => by rw [hlast]

/-- Declarations under renamed selectors leave the renamed rules. -/
theorem ofDeclared_rename {f : String → String} (hf : ∀ a b, f a = f b → a = b) :
    ofDeclared (list.map (Declared.rename f)) =
      (ofDeclared list).map fun rule => (f rule.1, rule.2) := by
  have hselectors : Declared.selectors (list.map (Declared.rename f)) =
      (Declared.selectors list).map f := by
    rw [Declared.selectors, Declared.selectors, ← Entries.eraseDups_map hf, List.map_map,
      List.map_map]
    rfl
  rw [ofDeclared_eq, ofDeclared_eq, hselectors, List.map_map, List.map_map]
  refine List.map_congr_left fun s _ => ?_
  rw [Function.comp_apply, Function.comp_apply, Declared.under_rename list hf, declarations_rename]

/-- The declarations under some of the selectors leave the rules of those. -/
theorem ofDeclared_filter (q : String → Bool) :
    ofDeclared (list.filter fun d => q d.selector) =
      (ofDeclared list).filter fun rule => q rule.1 := by
  have hselectors : Declared.selectors (list.filter fun d => q d.selector) =
      (Declared.selectors list).filter q := by
    rw [Declared.selectors, Declared.selectors, ← Entries.eraseDups_filter, List.filter_map]
    rfl
  rw [ofDeclared_eq, ofDeclared_eq, hselectors, List.filter_map]
  refine List.map_congr_left fun s hs => ?_
  have hq : q s = true := (List.mem_filter.mp hs).2
  have hunder : Declared.under s (list.filter fun d => q d.selector) = Declared.under s list := by
    rw [Declared.under, Declared.under, List.filter_filter]
    refine List.filter_congr fun d _ => ?_
    by_cases h : d.selector = s
    · simp [h, hq]
    · simp [h]
  rw [hunder]

/-- Every rule that declarations leave has a declaration. -/
theorem ne_nil_of_mem_ofDeclared {rule : String × Declarations} (h : rule ∈ ofDeclared list) :
    rule.2 ≠ [] := by
  rw [ofDeclared_eq, List.mem_map] at h
  obtain ⟨s, hs, rfl⟩ := h
  obtain ⟨d, hd, hds⟩ := (Declared.mem_selectors list).mp hs
  have hp : d.property ∈ Declared.properties (Declared.under s list) :=
    (Declared.mem_properties _).mpr ⟨d, List.mem_filter.mpr ⟨hd, by simpa using hds⟩, rfl⟩
  simpa [Declared.declarations] using List.ne_nil_of_mem hp

theorem ofDeclared_eq_nil_iff : ofDeclared list = [] ↔ list = [] := by
  constructor
  · intro h
    refine List.eq_nil_iff_forall_not_mem.mpr fun d hd => ?_
    rw [ofDeclared_eq, List.map_eq_nil_iff] at h
    exact List.ne_nil_of_mem ((Declared.mem_selectors list).mpr ⟨d, hd, rfl⟩) h
  · rintro rfl
    rfl

/-! ## The text of a rule set -/

/-- The lines of a rule, each ended by a line feed. -/
theorem intercalate_lines (first last : String) (lines : List String) :
    "\n".intercalate (first :: lines ++ [last]) =
      first ++ "\n" ++ String.join (lines.map (· ++ "\n")) ++ last := by
  induction lines generalizing first with
  | nil => simp
  | cons line lines ih =>
    have := ih line
    rw [List.cons_append] at this
    rw [List.cons_append, List.cons_append, String.intercalate_cons_cons, this, List.map_cons,
      String.join_cons]
    simp only [String.append_assoc]

theorem rule_declarations (s : String) :
    RuleSet.rule (s, Declared.declarations (Declared.under s list)) = Declared.block list s := by
  have hlines : (Declared.declarations (Declared.under s list)).map Declarations.line =
      (Declared.properties (Declared.under s list)).map fun p =>
        Declarations.line (p, (Declared.last? p (Declared.under s list)).getD "") := by
    rw [Declared.declarations, List.map_map]
    rfl
  have hline (p : String) :
      Declarations.line (p, (Declared.last? p (Declared.under s list)).getD "") ++ "\n" =
        Declared.line (Declared.under s list) p := by
    simp only [Declarations.line, Declared.line, String.append_assoc]
    rfl
  have hhead : s ++ " \x7b" ++ "\n" = s ++ " \x7b\n" := by
    rw [String.append_assoc]
    rfl
  rw [rule, intercalate_lines, Declared.block, hlines, List.map_map, hhead]
  congr 3
  exact List.map_congr_left fun p _ => hline p

/-- The text of the rule set : one block for each selector, with a blank line between them. -/
theorem css_ofDeclared :
    (ofDeclared list).css =
      "\n\n".intercalate ((Declared.selectors list).map (Declared.block list)) := by
  have hfull : (ofDeclared list).filter (fun rule => !rule.2.isEmpty) = ofDeclared list := by
    refine List.filter_eq_self.mpr fun rule hrule => ?_
    simpa using ne_nil_of_mem_ofDeclared list hrule
  rw [css, hfull, ofDeclared_eq, List.map_map]
  congr 1
  exact List.map_congr_left fun s _ => rule_declarations list s

end RuleSet

end NestedStyles
