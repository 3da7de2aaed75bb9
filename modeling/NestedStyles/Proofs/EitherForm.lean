import NestedStyles.Proofs.BareSheet

/-!
# Trees with references in either form

A tree compiles to the same text, or ends with the same error, if the maps in it that stand for
references are given as values (`StyleTree.compile_asRead`), provided that a key tells which of its
maps do. Where a key has a block in one place and such a map in another, a merge tells the two
forms apart (`StyleTree.asRead_of_shared_key`): a block is written over a value, but into a map.
-/

namespace NestedStyles

/-- No key without the mark comes from marking another. -/
theorem Selector.asDescendant_ne {key other : String} (hkey : key ≠ "")
    (hmark : Text.beginsWith "& " key = false) : asDescendant other ≠ key := by
  rintro rfl
  rcases asDescendant_eq other with hempty | ⟨rest, hrest⟩
  · exact hkey hempty
  · rw [hrest, Text.beginsWith, String.toList_append] at hmark
    simp at hmark

/-- The key tells whether a map at it stands for a reference. -/
def Node.isTold (isValue : String → Bool) (key : String) : Node → Bool
  | .leaf _ => true
  | .tree entries => isValue key == (StyleTree.reference? entries).isSome

namespace StyleTree

mutual

/-- The node with all references in it given as values. -/
def asReadNode : Node → Node
  | .leaf value => .leaf value
  | .tree entries =>
    match reference? entries with
    | some value => .leaf value
    | none => .tree (asRead entries)

/-- The tree with all references below its root given as values. -/
def asRead : StyleTree → StyleTree
  | [] => []
  | (key, node) :: rest => (key, asReadNode node) :: asRead rest

end

variable {isValue : String → Bool}

theorem asReadNode_reference {entries : StyleTree} {value : Value}
    (h : reference? entries = some value) : asReadNode (.tree entries) = .leaf value := by
  rw [asReadNode, h]

theorem asReadNode_block {entries : StyleTree} (h : reference? entries = none) :
    asReadNode (.tree entries) = .tree (asRead entries) := by
  rw [asReadNode, h]

theorem keys_asRead (tree : StyleTree) : (asRead tree).keys = tree.keys := by
  induction tree with
  | nil => rfl
  | cons entry rest ih =>
    rw [asRead, Entries.keys_cons, Entries.keys_cons, ih]

theorem get?_asRead (key : String) (tree : StyleTree) :
    (asRead tree).get? key = (tree.get? key).map asReadNode := by
  induction tree with
  | nil => rfl
  | cons entry rest ih =>
    rw [asRead, Entries.get?, Entries.get?, ih]
    split <;> rfl

theorem eq_text_of_asReadNode {node : Node} {s : String} (h : asReadNode node = .leaf (.text s)) :
    node = .leaf (.text s) := by
  cases node with
  | leaf value => exact h
  | tree entries =>
    cases href : reference? entries with
    | none => simp [asReadNode_block href] at h
    | some value =>
      obtain ⟨css, name, rfl⟩ := eq_reference_of_reference? href
      simp [asReadNode_reference href] at h

/-- A map does not come to stand for a reference as those below it are given as values. -/
theorem reference?_asRead {entries : StyleTree} (h : reference? entries = none) :
    reference? (asRead entries) = none := by
  have htext {key : String} {s : String}
      (hget : (asRead entries).get? key = some (.leaf (.text s))) :
      entries.get? key = some (.leaf (.text s)) := by
    rw [get?_asRead] at hget
    obtain ⟨node, hnode, htext⟩ := Option.map_eq_some_iff.mp hget
    rw [hnode, eq_text_of_asReadNode htext]
  rw [← Option.isNone_iff_eq_none, ← Option.isSome_eq_false_iff, Bool.eq_false_iff] at h ⊢
  refine fun hsome => h (isSome_reference?.mpr ?_)
  obtain ⟨⟨css, hvar⟩, hname, hkeys⟩ := isSome_reference?.mp hsome
  refine ⟨⟨css, htext hvar⟩, fun node hnode => ?_, keys_asRead entries ▸ hkeys⟩
  obtain ⟨name, hleaf⟩ := hname (asReadNode node) (by rw [get?_asRead, hnode]; rfl)
  exact ⟨name, eq_text_of_asReadNode hleaf⟩

mutual

theorem isRead_asReadNode : ∀ node : Node, (asReadNode node).isRead = true ∧
    nodeEvery (fun _ node => node.isRead) (asReadNode node) = true
  | .leaf _ => ⟨rfl, rfl⟩
  | .tree entries => by
    cases h : reference? entries with
    | some value =>
      rw [asReadNode_reference h]
      exact ⟨rfl, rfl⟩
    | none =>
      rw [asReadNode_block h]
      exact ⟨Option.isNone_iff_eq_none.mpr (reference?_asRead h), isRead_asRead entries⟩

/-- No map that stands for a reference is left. -/
theorem isRead_asRead : ∀ tree : List (String × Node), isRead (asRead tree) = true
  | [] => rfl
  | (key, node) :: rest => by
    obtain ⟨hself, hbelow⟩ := isRead_asReadNode node
    rw [asRead, isRead, every_cons, hself, hbelow]
    exact isRead_asRead rest

end

mutual

theorem bareNode_asReadNode {key : String} : ∀ {node : Node}, node.isTold isValue key = true →
    nodeEvery (Node.isTold isValue) node = true →
      bareNode isValue key (asReadNode node) = bareNode isValue key node
  | .leaf _, _, _ => rfl
  | .tree entries, hself, hbelow => by
    have hkey : isValue key = (reference? entries).isSome := beq_iff_eq.mp hself
    cases href : reference? entries with
    | some value =>
      rw [href] at hkey
      rw [asReadNode_reference href, bareNode_reference hkey href, bareNode]
    | none =>
      rw [href] at hkey
      rw [asReadNode_block href, bareNode_tree hkey, bareNode_tree hkey, bare_asRead hbelow]

/-- With the references bare the two forms are one. -/
theorem bare_asRead : ∀ {tree : List (String × Node)},
    every (Node.isTold isValue) tree = true → bare isValue (asRead tree) = bare isValue tree
  | [], _ => rfl
  | (key, node) :: rest, h => by
    rw [every_cons, Bool.and_eq_true, Bool.and_eq_true] at h
    obtain ⟨⟨hself, hbelow⟩, hrest⟩ := h
    rw [asRead, bare, bare, bareNode_asReadNode hself hbelow, bare_asRead hrest]

end

/-- A map that stands for no reference is at no key of values. -/
theorem fits_of_isTold {key : String} {node : Node} (hdistinct : node.isDistinct = true)
    (htold : node.isTold isValue key = true) : node.fits isValue key = true := by
  rw [Node.fits, hdistinct, Bool.true_and]
  cases node with
  | leaf value => exact Bool.or_true _
  | tree entries =>
    have hkey : isValue key = (reference? entries).isSome := beq_iff_eq.mp htold
    rw [hkey, Node.isLeaf, Node.value?, Bool.not_or_self]

mutual

theorem fits_asReadNode {key : String} : ∀ {node : Node}, node.isDistinct = true →
    node.isTold isValue key = true → nodeEvery (fun _ node => node.isDistinct) node = true →
    nodeEvery (Node.isTold isValue) node = true →
      (asReadNode node).fits isValue key = true ∧
        nodeEvery (Node.fits isValue) (asReadNode node) = true
  | .leaf _, hdistinct, htold, _, _ => ⟨fits_of_isTold hdistinct htold, rfl⟩
  | .tree entries, hdistinct, htold, hbelow, htoldBelow => by
    have hkey : isValue key = (reference? entries).isSome := beq_iff_eq.mp htold
    cases href : reference? entries with
    | some value =>
      rw [asReadNode_reference href]
      exact ⟨Bool.or_true _, rfl⟩
    | none =>
      rw [href] at hkey
      rw [asReadNode_block href]
      refine ⟨(fits_tree hkey).mpr ?_, every_fits_asRead hbelow htoldBelow⟩
      rw [Entries.Distinct, keys_asRead]
      exact Node.isDistinct_tree.mp hdistinct

theorem every_fits_asRead : ∀ {tree : List (String × Node)},
    every (fun _ node => node.isDistinct) tree = true → every (Node.isTold isValue) tree = true →
      every (Node.fits isValue) (asRead tree) = true
  | [], _, _ => rfl
  | (key, node) :: rest, hdistinct, htold => by
    rw [every_cons, Bool.and_eq_true, Bool.and_eq_true] at hdistinct htold
    obtain ⟨hself, hbelow⟩ := fits_asReadNode hdistinct.1.1 htold.1.1 hdistinct.1.2 htold.1.2
    rw [asRead, every_cons, hself, hbelow, every_fits_asRead hdistinct.2 htold.2]
    rfl

end

section Compile

variable {options : Options} (hflat : options.IsFlat) (hkeys : options.Separates isValue)

include hflat hkeys

/-- A tree compiles to the same text, or ends with the same error, if the maps in it that stand for
references are given as values and the keys tell which maps those are. -/
theorem compile_asRead {tree : StyleTree} (hdistinct : tree.isDistinct = true)
    (htold : every (Node.isTold isValue) tree = true) :
    ((asRead tree).compile options).map Stylesheet.css =
      (tree.compile options).map Stylesheet.css := by
  have hbelow := (isDistinct_iff.mp hdistinct).2
  have hread : every (Node.fits isValue) (asRead tree) = true := every_fits_asRead hbelow htold
  have hfits : every (Node.fits isValue) tree = true :=
    every_imp (fun _ _ h => fits_of_isTold (Bool.and_eq_true_iff.mp h).1
      (Bool.and_eq_true_iff.mp h).2) (every_and hbelow htold)
  -- The two forms differ in depth, so both are taken to a number of steps that is enough for both.
  obtain ⟨steps, hfirst, hsecond⟩ :
      ∃ steps, (asRead tree).atDepth < steps ∧ tree.atDepth < steps :=
    ⟨max (asRead tree).atDepth tree.atDepth + 1, by omega, by omega⟩
  calc ((asRead tree).compile options).map Stylesheet.css
    _ = ((asRead tree).compileWithin options steps [] true).map Stylesheet.css :=
      css_compile_of_steps hflat hfirst
    _ = ((bare isValue (asRead tree)).compileWithin options steps [] true).map Stylesheet.css :=
      (css_compileWithin_bare hkeys steps [] true hread).symm
    _ = ((bare isValue tree).compileWithin options steps [] true).map Stylesheet.css := by
      rw [bare_asRead htold]
    _ = (tree.compileWithin options steps [] true).map Stylesheet.css :=
      css_compileWithin_bare hkeys steps [] true hfits
    _ = (tree.compile options).map Stylesheet.css := (css_compile_of_steps hflat hsecond).symm

end Compile

/-- References at one key are merged below the selector of a mode. As maps they leave the name of
the first with the text of the second, as values the second alone, and the text is the same. -/
theorem compile_asRead_merged :
    ∃ sheet,
      compile ((Options.empty.withMode "dark" ".dark").withAuto "dark" ":root" "(dark)")
          [("card", .tree [("@dark", .tree
              [("color", .tree [("var", .leaf (.text "a")), ("name", .leaf (.text "n"))])])]),
            ("@dark", .tree [("card", .tree [("color", .tree [("var", .leaf (.text "b"))])])])] =
        .ok sheet ∧
      sheet.css = ".dark .card \x7b\n  color: b;\n\x7d\n\n" ++
        "@media (dark) \x7b\n  :root .card \x7b\n    color: b;\n  \x7d\n\x7d" ∧
      (compile ((Options.empty.withMode "dark" ".dark").withAuto "dark" ":root" "(dark)")
          [("card", .tree [("@dark", .tree [("color", .leaf (.reference "a" (some "n")))])]),
            ("@dark", .tree [("card", .tree
              [("color", .leaf (.reference "b" none))])])]).map Stylesheet.css = .ok sheet.css := by
  refine ⟨_, rfl, by decide +kernel, ?_⟩
  exact @compile_asRead (· == "color")
    ((Options.empty.withMode "dark" ".dark").withAuto "dark" ":root" "(dark)")
    ⟨by decide, by decide⟩
    ⟨fun key _ => beq_eq_false_iff_ne.mpr (Selector.asDescendant_ne (by decide) (by decide)),
      by decide, by decide⟩
    [("card", .tree [("@dark", .tree
        [("color", .tree [("var", .leaf (.text "a")), ("name", .leaf (.text "n"))])])]),
      ("@dark", .tree [("card", .tree [("color", .tree [("var", .leaf (.text "b"))])])])]
    (by decide) (by decide)

/-- Where one key has a map that stands for a reference in one place and a block in another, the two
forms differ: the block is merged into the map, which is then a block, and written over the
value. -/
theorem asRead_of_shared_key :
    ¬ ∀ (options : Options) (tree : StyleTree) (maps values : Stylesheet), options.IsFlat →
      tree.isDistinct = true → compile options tree = .ok maps →
      compile options (asRead tree) = .ok values → maps.css = values.css := by
  intro h
  have hsame := h (Options.empty.withQuery "phone" "(max-width: 600px)")
    [("div", .tree [("@phone", .tree [("color", .tree [("var", .leaf (.text "a"))])])]),
      ("@phone", .tree [("div", .tree [("color", .tree [("margin", .leaf (.text "0"))])])])]
    _ _ ⟨by decide, by decide⟩ (by decide) rfl rfl
  exact absurd hsame (by decide +kernel)

end StyleTree

end NestedStyles
