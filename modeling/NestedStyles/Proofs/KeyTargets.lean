import NestedStyles.AtRule.Target

/-!
# Targets of keys

An `@` key is looked up in two ways: as a reference, where a mode comes first, and as an entry of
the `@media` map, which knows no modes. As a reference it is a mode if its name is that of one, and
otherwise the media query that it is in the map (`Target.ofKey?_eq`). The name of a key is what
stands behind the `@` and the white space there, so that this white space tells two keys apart only
if one of them is a media query in full (`Target.ofKey?_agrees`).
-/

namespace NestedStyles

/-! ## Behind the `@` -/

theorem Text.without?_append {lead s rest : String} (h : s.toList = lead.toList ++ rest.toList) :
    without? lead s = some rest := by
  rw [without?, beginsWith, h, if_pos (by simp), List.drop_left, String.ofList_toList]

/-- Leading white space is trimmed, whatever stands behind it. -/
theorem Text.trimmedStart_append {space : String} (h : isBlank space = true) (rest : String) :
    trimmedStart (space ++ rest) = trimmedStart rest := by
  rw [trimmedStart, trimmedStart, trimStart, trimStart, String.toList_append,
    List.dropWhile_append_of_pos fun c hc => List.all_eq_true.mp h c hc]

theorem beginsWith_at (lead name : String) :
    Text.beginsWith ("@" ++ lead) ("@" ++ name) = Text.beginsWith lead name := by
  rw [Text.beginsWith, String.toList_append, String.toList_append]
  rfl

theorem isAtKey_at (name : String) : Text.isAtKey ("@" ++ name) = true := by
  rw [Text.isAtKey, Text.beginsWith, String.toList_append]
  rfl

namespace Target

variable {options : Options} {key : String}

/-- The name of a key stands behind the `@` and the white space there. -/
theorem name_append (rest : String) : name ("@" ++ rest) = Text.trimmedStart rest := by
  rw [name, Text.without?_append String.toList_append, Option.getD_some]

theorem name_at {name : String} (hname : Text.trimmedStart name = name) :
    Target.name ("@" ++ name) = name := by
  rw [name_append, hname]

/-! ## The two ways to look a key up -/

/-- In the `@media` map an `@` key is a query in full or the name of one. -/
theorem mapQuery?_of_isAtKey (h : Text.isAtKey key = true) :
    mapQuery? options key = (literalMedia? key).or (options.queries.get? (name key)) := by
  obtain ⟨rest, hrest⟩ : ∃ rest, Text.without? "@" key = some rest := ⟨_, if_pos h⟩
  rw [mapQuery?, name, hrest, Option.getD_some]

/-- An `@` key is a mode by its name, and otherwise the media query that it is in the `@media`
map. -/
theorem ofKey?_eq (h : Text.isAtKey key = true) : ofKey? options key =
    ((options.modes.get? (name key)).map mode).or ((mapQuery? options key).map media) := by
  rw [ofKey?, mapQuery?_of_isAtKey h, Option.map_or]

/-- A mode that a key refers to has its selector from the table of the modes. -/
theorem mode_of_ofKey? {selector : String} (h : ofKey? options key = some (.mode selector)) :
    options.modes.get? (name key) = some selector := by
  unfold ofKey? at h
  rcases Option.or_eq_some_iff.mp h with h | ⟨-, h⟩
  · obtain ⟨_, hmode, heq⟩ := Option.map_eq_some_iff.mp h
    rw [hmode, mode.inj heq]
  · rw [← Option.map_or] at h
    simp at h

/-! ## White space behind the `@` -/

/-- The key is `@media` with white space behind it. -/
def isLiteral (key : String) : Bool :=
  (Text.without? "@media" key).any fun rest => rest.toList.head?.any Text.isSpace

theorem literalMedia?_eq_none (h : isLiteral key = false) : literalMedia? key = none := by
  refine Option.bind_eq_none_iff.mpr fun rest hrest => ?_
  rw [isLiteral, hrest, Option.any_some] at h
  simp [h]

/-- Unless it is a media query in full, a key refers to what its name does. -/
theorem ofKey?_of_not_isLiteral (h : isLiteral key = false) : ofKey? options key =
    ((options.modes.get? (name key)).map mode).or ((options.queries.get? (name key)).map media) := by
  rw [ofKey?, literalMedia?_eq_none h]
  rfl

/-- A key that refers to a media query is that query in the `@media` map, and a key that is a query
in the map refers to it or to a mode. It refers to a mode only by the name of one. White space
behind the `@` changes nothing, unless the key is `@media` and white space with it or without it. -/
theorem ofKey?_agrees (options : Options) (rest : String) :
    (∀ query, ofKey? options ("@" ++ rest) = some (.media query) →
        mapQuery? options ("@" ++ rest) = some query) ∧
      (∀ query, mapQuery? options ("@" ++ rest) = some query →
        ofKey? options ("@" ++ rest) = some (.media query) ∨
          ∃ selector, ofKey? options ("@" ++ rest) = some (.mode selector)) ∧
      (∀ selector, ofKey? options ("@" ++ rest) = some (.mode selector) →
        options.modes.get? (Text.trimmedStart rest) = some selector) ∧
      ∀ space, Text.isBlank space = true → isLiteral ("@" ++ rest) = false →
        isLiteral ("@" ++ (space ++ rest)) = false →
          ofKey? options ("@" ++ (space ++ rest)) = ofKey? options ("@" ++ rest) := by
  have hkey := @ofKey?_eq options _ (isAtKey_at rest)
  refine ⟨fun query h => ?_, fun query h => ?_, fun selector h => ?_, fun space hspace h h' => ?_⟩
  · rw [hkey] at h
    rcases Option.or_eq_some_iff.mp h with h | ⟨-, h⟩
    · simp at h
    · obtain ⟨_, hquery, heq⟩ := Option.map_eq_some_iff.mp h
      rw [hquery, media.inj heq]
  · rw [hkey, h]
    cases options.modes.get? (name ("@" ++ rest)) with
    | none => exact Or.inl rfl
    | some selector => exact Or.inr ⟨selector, rfl⟩
  · exact name_append rest ▸ mode_of_ofKey? h
  · rw [ofKey?_of_not_isLiteral h, ofKey?_of_not_isLiteral h', name_append, name_append,
      Text.trimmedStart_append hspace]

/-- A name of a media query and of a mode, with a wide space in front of it. -/
theorem ofKey?_agrees_shared_name :
    let options : Options :=
      ⟨[("phone", "(max-width: 9px)"), ("dark", "(dark)")], [("dark", ".dark")], none⟩
    let key := "@" ++ ("\u2003" ++ "dark")
    (ofKey? options ("@" ++ "phone") = some (.media "(max-width: 9px)") ∧
        mapQuery? options ("@" ++ "phone") = some "(max-width: 9px)") ∧
      (mapQuery? options key = some "(dark)" ∧
        (ofKey? options key = some (.media "(dark)") ∨
          ∃ selector, ofKey? options key = some (.mode selector))) ∧
      (ofKey? options key = some (.mode ".dark") ∧
        options.modes.get? (Text.trimmedStart ("\u2003" ++ "dark")) = some ".dark") ∧
      Text.isBlank "\u2003" = true ∧ isLiteral ("@" ++ "dark") = false ∧ isLiteral key = false ∧
      ofKey? options key = ofKey? options ("@" ++ "dark") := by
  intro options key
  have hphone : ofKey? options ("@" ++ "phone") = some (.media "(max-width: 9px)") := by decide
  have hquery : mapQuery? options key = some "(dark)" := by decide
  have hdark : ofKey? options key = some (.mode ".dark") := by decide
  obtain ⟨-, hmap, hmode, -⟩ := ofKey?_agrees options ("\u2003" ++ "dark")
  obtain ⟨-, -, -, hspace⟩ := ofKey?_agrees options "dark"
  exact ⟨⟨hphone, (ofKey?_agrees options "phone").1 _ hphone⟩, ⟨hquery, hmap _ hquery⟩,
    ⟨hdark, hmode _ hdark⟩, by decide, by decide, by decide,
    hspace "\u2003" (by decide) (by decide) (by decide)⟩

/-- A media query in full is none with white space behind the `@`. -/
example : ofKey? .empty "@media print" = some (.media "print") ∧
    ofKey? .empty "@ media print" = none := by decide

end Target

end NestedStyles
