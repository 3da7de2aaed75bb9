import NestedStyles.Proofs.Marks

/-!
# Alternatives along a path

The selectors of a path are distinct and not empty. They are those of its keys that are more than
white space and commas (`Selector.choices_eq`), and a comma between two texts of a key stands for
the selectors with the one text and those with the other (`Selector.ofPath_append_comma`). A path
has no selector exactly if all its alternatives are skipped (`Selector.ofPath_eq_nil_iff`).
-/

namespace NestedStyles.Selector

open Text

/-! ## Keys with alternatives -/

theorem isSpelled_of_mem {key a : String} (h : a ∈ alternatives key) : isSpelled key = true := by
  obtain ⟨raw, hraw, ha⟩ := List.mem_filterMap.mp h
  obtain ⟨piece, hpiece, rfl⟩ := List.mem_map.mp hraw
  cases htrim : trim piece with
  | nil => simp [htrim] at ha
  | cons c rest =>
    have hc : isSpace c = false := startsVisibly_cons.mp (htrim ▸ startsVisibly_trim piece)
    have hmem : c ∈ piece := (trim_sublist piece).mem (htrim ▸ List.mem_cons_self)
    have hcomma : c ≠ ',' := fun heq => not_mem_of_mem_splitOn hpiece (heq ▸ hmem)
    exact List.any_eq_true.mpr ⟨c, mem_of_mem_splitOn hpiece hmem, by simp [hc, hcomma]⟩

/-- A key has alternatives exactly if it is more than white space and commas. -/
theorem isEmpty_alternatives (key : String) : (!(alternatives key).isEmpty) = isSpelled key := by
  cases h : isSpelled key with
  | true => simpa using alternatives_ne_nil h
  | false =>
    rw [Bool.not_eq_false', List.isEmpty_iff]
    exact List.eq_nil_iff_forall_not_mem.mpr fun a ha =>
      absurd (isSpelled_of_mem ha) (Bool.eq_false_iff.mp h)

/-- Keys of white space and commas leave no choice. -/
theorem choices_eq (keys : List String) :
    choices keys = (keys.filter isSpelled).map alternatives := by
  rw [choices, List.filter_map]
  exact congrArg (List.map alternatives) (List.filter_congr fun key _ => isEmpty_alternatives key)

/-! ## Selectors -/

theorem mem_ofPath {keys : List String} {s : String} : s ∈ ofPath keys ↔
    (∃ words ∈ product (choices keys), join words = s) ∧ s ≠ "" := by
  rw [ofPath_eq_filter_joined, joined, List.mem_filter, List.mem_eraseDups, List.mem_map,
    bne_iff_ne]

theorem nodup_ofPath (keys : List String) : (ofPath keys).Nodup :=
  Entries.nodup_eraseDups _

/-- A path without an alternative that stands for something has no selector, and every other path
has one. -/
theorem ofPath_eq_nil_iff {keys : List String} :
    ofPath keys = [] ↔ ∀ key ∈ keys, ∀ a ∈ alternatives key, isSkipped a = true := by
  constructor
  · intro hnil key hkey a ha
    have hvisible := (isAlternative_of_mem ha).visible
    rw [isSkipped, ← piece?_eq_none_iff, trim_of_visible hvisible.starts hvisible.ends]
    exact Classical.byContradiction fun hpiece =>
      Selects.ofPath_ne_nil ⟨a, ha, hpiece⟩ hkey hnil
  · intro hskipped
    refine List.eq_nil_iff_forall_not_mem.mpr fun s hs => ?_
    obtain ⟨⟨words, hwords, rfl⟩, hne⟩ := mem_ofPath.mp hs
    refine hne (join_eq_empty_iff.mpr fun word hword => ?_)
    obtain ⟨choice, hchoice, hmem⟩ := mem_of_mem_product hwords word hword
    rw [choices_eq] at hchoice
    obtain ⟨key, hkey, rfl⟩ := List.mem_map.mp hchoice
    exact hskipped key (List.mem_filter.mp hkey).1 word hmem

/-! ## A comma in a key -/

theorem alternatives_append_comma (a b : String) :
    alternatives (a ++ "," ++ b) = alternatives a ++ alternatives b := by
  have htext : (a ++ "," ++ b).toList = a.toList ++ ',' :: b.toList := by
    rw [String.toList_append, String.toList_append, List.append_assoc]
    rfl
  rw [alternatives, htext, List.splitOn_append_cons_self, List.map_append, List.filterMap_append]
  rfl

theorem choices_inside {key : String} (h : alternatives key ≠ []) (front back : List String) :
    choices (front ++ [key] ++ back) = choices front ++ alternatives key :: choices back := by
  rw [List.append_assoc, List.singleton_append, choices_append, choices_cons h]

section Comma

variable (front back : List String) {a b : String} (ha : alternatives a ≠ [])

include ha

theorem choices_comma : choices (front ++ [a ++ "," ++ b] ++ back) =
    choices front ++ (alternatives a ++ alternatives b) :: choices back := by
  have hne : alternatives (a ++ "," ++ b) ≠ [] := by
    rw [alternatives_append_comma]
    exact List.append_ne_nil_of_left_ne_nil ha _
  rw [choices_inside hne, alternatives_append_comma]

variable (hb : alternatives b ≠ [])

include hb

/-- A path with a comma in a key has the selectors with the text before and with the text behind
it. -/
theorem mem_ofPath_append_comma (s : String) : s ∈ ofPath (front ++ [a ++ "," ++ b] ++ back) ↔
    s ∈ ofPath (front ++ [a] ++ back) ∨ s ∈ ofPath (front ++ [b] ++ back) := by
  simp only [mem_ofPath, choices_comma front back ha, choices_inside ha, choices_inside hb,
    mem_product_append, or_and_right, exists_or]

/-- Behind keys of one alternative those with the text before the comma come first. -/
theorem ofPath_append_comma (hfront : ∀ key ∈ front, (alternatives key).length ≤ 1) :
    ofPath (front ++ [a ++ "," ++ b] ++ back) = ofPath (front ++ [a] ++ back) ++
      (ofPath (front ++ [b] ++ back)).filter (· ∉ ofPath (front ++ [a] ++ back)) := by
  have hchoices : ∀ choice ∈ choices front, choice.length ≤ 1 := by
    rw [choices_eq]
    intro choice hchoice
    obtain ⟨key, hkey, rfl⟩ := List.mem_map.mp hchoice
    exact hfront key (List.mem_filter.mp hkey).1
  have hofPath (keys : List String) :
      ofPath keys = (((product (choices keys)).map join).filter (· != "")).eraseDups := rfl
  rw [hofPath, choices_comma front back ha, product_append _ _ _ hchoices, List.map_append,
    List.filter_append, Entries.eraseDups_append, hofPath, choices_inside ha, hofPath,
    choices_inside hb]

end Comma

/-- The selectors of a path are distinct and not empty; keys of white space and commas do not
matter; a comma in a key joins the selectors of the two paths that it stands for, in their order if
there is no choice before it; and there is no selector exactly if all alternatives are skipped. -/
theorem ofPath_alternatives :
    (∀ keys, (ofPath keys).Nodup ∧ "" ∉ ofPath keys) ∧
    (∀ keys others, keys.filter isSpelled = others.filter isSpelled → ofPath keys = ofPath others) ∧
    (∀ front back a b, alternatives a ≠ [] → alternatives b ≠ [] →
      (∀ s, s ∈ ofPath (front ++ [a ++ "," ++ b] ++ back) ↔
        s ∈ ofPath (front ++ [a] ++ back) ∨ s ∈ ofPath (front ++ [b] ++ back)) ∧
      ((∀ key ∈ front, (alternatives key).length ≤ 1) →
        ofPath (front ++ [a ++ "," ++ b] ++ back) = ofPath (front ++ [a] ++ back) ++
          (ofPath (front ++ [b] ++ back)).filter (· ∉ ofPath (front ++ [a] ++ back)))) ∧
    ∀ keys, ofPath keys = [] ↔ ∀ key ∈ keys, ∀ a ∈ alternatives key, isSkipped a = true := by
  refine ⟨fun keys => ⟨nodup_ofPath keys, fun h => (mem_ofPath.mp h).2 rfl⟩,
    fun keys others h => ?_, fun front back a b ha hb =>
      ⟨mem_ofPath_append_comma front back ha hb, ofPath_append_comma front back ha hb⟩,
    fun _ => ofPath_eq_nil_iff⟩
  rw [ofPath_eq_filter_joined, ofPath_eq_filter_joined, joined, joined, choices_eq, choices_eq, h]

/-- A selector that both texts have stands where the first one has it. The key before them that is
white space and a comma leaves no choice. -/
theorem ofPath_alternatives_shared :
    alternatives "p, _p" ≠ [] ∧ alternatives "_, p" ≠ [] ∧
      (∀ key ∈ ["div", " , "], (alternatives key).length ≤ 1) ∧
      ofPath (["div", " , "] ++ ["p, _p" ++ "," ++ "_, p"] ++ ["a"]) =
        ofPath (["div", " , "] ++ ["p, _p"] ++ ["a"]) ++
          (ofPath (["div", " , "] ++ ["_, p"] ++ ["a"])).filter
            (· ∉ ofPath (["div", " , "] ++ ["p, _p"] ++ ["a"])) :=
  ⟨by decide, by decide, by decide,
    (ofPath_alternatives.2.2.1 _ _ _ _ (by decide) (by decide)).2 (by decide)⟩

end NestedStyles.Selector
