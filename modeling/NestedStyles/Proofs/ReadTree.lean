import NestedStyles.Proofs.Merging
import NestedStyles.Proofs.Numerals
import NestedStyles.Proofs.ReadsAs
import NestedStyles.Proofs.Results
import NestedStyles.Tree.Json

/-!
# Style trees that are read

A JSON value can be read as a style tree exactly if it is an object and every list in it, however
deep and whether or not a later member of the same name replaces it, holds strings and numbers only.
The object of the whole text is always a tree, and the objects below are read as `Json.ReadsAs` says
(`StyleTree.ofText_of_json`). What holds of every node that is read holds everywhere in a tree that
is (`StyleTree.every_ofText`), so no text gives a tree in which a map stands for a reference
(`StyleTree.isRead_ofText`).
-/

namespace NestedStyles

namespace StyleTree

open Json (ReadsAs ItemReadsAs MembersReadAs EachReadAs)

/-- A mismatch has no result. -/
theorem mismatch_ne_ok {α : Type} {expected : String} {value : Json} {a : α} :
    value.mismatch expected ≠ .ok a := by
  unfold Json.mismatch
  cases value.found <;> simp [Except.bind]

/-- What is read inside a list or object is read with less room. -/
theorem exists_of_enter {α : Type} {room : Nat} {inside : Nat → Except Json.Fault α} {a : α}
    (h : enter room inside = .ok a) : ∃ room, inside room = .ok a := by
  cases room with
  | zero => exact absurd h (by simp [enter])
  | succ room => exact ⟨room, h⟩

/-- What is read as an item is a string or a number. -/
theorem of_readItem {room : Nat} {value : Json} {item : Item}
    (h : readItem room value = .ok item) : value.isItem = true ∧ ItemReadsAs value item := by
  unfold readItem at h
  split at h
  · exact Except.ok.inj h ▸ ⟨rfl, .text _⟩
  · exact Except.ok.inj h ▸ ⟨rfl, .number (Json.Numeric.readsAs _)⟩
  · obtain ⟨room, hroom⟩ := exists_of_enter h
    exact absurd hroom mismatch_ne_ok
  · obtain ⟨room, hroom⟩ := exists_of_enter h
    exact absurd hroom mismatch_ne_ok
  · exact absurd h mismatch_ne_ok

/-- Nothing is in an item. -/
theorem itemsEvery_of_isItem {items : List Json} (h : items.all Json.isItem = true) :
    Json.itemsEvery Json.isFlatHere items = true := by
  induction items with
  | nil => rfl
  | cons item rest ih =>
    rw [List.all_cons, Bool.and_eq_true] at h
    rw [Json.itemsEvery, ih h.2, Bool.and_true]
    cases item with
    | text s => rfl
    | number n => rfl
    | _ => exact absurd h.1 (by simp [Json.isItem])

mutual

/-- What is read as a node has flat lists, and it is read as it should be. -/
theorem of_readNode {room : Nat} : ∀ {value : Json} {node : Node},
    readNode room value = .ok node → value.isFlat = true ∧ value.ReadsAs node
  | .null, _, h => by
    rw [readNode] at h
    exact Except.ok.inj h ▸ ⟨rfl, .null⟩
  | .bool b, _, h => by
    rw [readNode] at h
    exact Except.ok.inj h ▸ ⟨rfl, .bool b⟩
  | .number (some n), _, h => by
    rw [readNode] at h
    exact Except.ok.inj h ▸ ⟨rfl, .number n.readsAs⟩
  | .number none, _, h => by
    rw [readNode] at h
    exact absurd h (by simp)
  | .text (some s), _, h => by
    rw [readNode] at h
    exact Except.ok.inj h ▸ ⟨rfl, .text s⟩
  | .text none, _, h => by
    rw [readNode] at h
    exact absurd h (by simp)
  | .list items, _, h => by
    rw [readNode] at h
    obtain ⟨room, hroom⟩ := exists_of_enter h
    obtain ⟨found, hfound, rfl⟩ := Except.exists_of_map_ok hroom
    have hall : items.all Json.isItem = true := List.all_eq_true.mpr fun item hitem => by
      obtain ⟨_, -, hread⟩ := exists_of_mapM_ok hfound hitem
      exact (of_readItem hread).1
    constructor
    · rw [Json.isFlat, Json.every, Json.isFlatHere, hall, itemsEvery_of_isItem hall]
      rfl
    · exact .list ((forall₂_of_mapM_ok hfound).imp fun _ _ hread => (of_readItem hread).2)
  | .object members, _, h => by
    rw [readNode] at h
    obtain ⟨room, hroom⟩ := exists_of_enter h
    obtain ⟨tree, htree, rfl⟩ := Except.exists_of_map_ok hroom
    obtain ⟨hflat, nodes, hnodes, rfl⟩ := of_readMembers htree
    refine ⟨hflat, ?_⟩
    have hread : MembersReadAs members (Entries.ofList nodes) := hnodes.ofList
    change ReadsAs _ (match reference? (Entries.ofList nodes) with
      | some value => .leaf value
      | none => .tree (Entries.ofList nodes))
    cases hreference : reference? (Entries.ofList nodes) with
    | some value =>
      obtain ⟨css, name, rfl, hrefers⟩ := hread.reference?_eq_some_iff.mp hreference
      exact .reference hrefers
    | none =>
      refine .tree (fun css name hrefers => ?_) hread
      have hsome := hread.reference?_eq_some_iff.mpr ⟨css, name, rfl, hrefers⟩
      exact absurd (hreference.symm.trans hsome) (by simp)
  | .broken, _, h => by
    rw [readNode] at h
    exact absurd h (by simp)

/-- Members that are read are read one by one and written over what was read before them. -/
theorem of_readMembers {room : Nat} {before : StyleTree} :
    ∀ {members : List (Option String × Json)} {tree : StyleTree},
      readMembers room before members = .ok tree →
        Json.membersEvery Json.isFlatHere members = true ∧ ∃ nodes, EachReadAs members nodes ∧
          tree = nodes.foldl (fun entries entry => entries.insert entry.1 entry.2) before
  | [], _, h => by
    rw [readMembers] at h
    exact Except.ok.inj h ▸ ⟨rfl, [], .nil, rfl⟩
  | (name, value) :: rest, _, h => by
    rw [readMembers] at h
    obtain ⟨key, hkey, h⟩ := Except.exists_of_bind_ok h
    obtain ⟨node, hnode, h⟩ := Except.exists_of_bind_ok h
    obtain ⟨hflat, hvalue⟩ := of_readNode hnode
    obtain ⟨hrest, nodes, hnodes, rfl⟩ := of_readMembers h
    refine ⟨?_, (key, node) :: nodes, .cons ⟨?_, hvalue⟩ hnodes, rfl⟩
    · rw [Json.membersEvery, hrest, Bool.and_true]
      exact hflat
    · cases name with
      | none => exact absurd hkey (by simp [Json.nameOf])
      | some name => exact congrArg some (Except.ok.inj hkey)

end

/-- What is read as a tree is an object with flat lists, and it is read as it should be. -/
theorem of_ofJson {value : Json} {tree : StyleTree} (h : ofJson value = .ok tree) :
    ∃ members, value = .object members ∧ value.isFlat = true ∧ MembersReadAs members tree := by
  cases value with
  | object members =>
    rw [ofJson] at h
    obtain ⟨room, hroom⟩ := exists_of_enter h
    obtain ⟨hflat, nodes, hnodes, rfl⟩ := of_readMembers hroom
    exact ⟨members, rfl, hflat, hnodes.ofList⟩
  | _ => exact absurd h mismatch_ne_ok

/-! ## What can be read -/

/-- A string or number that JSON has can be read as an item. -/
theorem exists_readItem (room : Nat) {value : Json} (hitem : value.isItem = true)
    (hwhole : value.isWhole = true) (hfits : value.fits = true) :
    ∃ item, readItem room value = .ok item := by
  cases value with
  | text s =>
    obtain ⟨s, rfl⟩ := Option.isSome_iff_exists.mp hwhole
    exact ⟨_, rfl⟩
  | number n =>
    obtain ⟨n, rfl⟩ := Option.isSome_iff_exists.mp hfits
    exact ⟨_, rfl⟩
  | _ => exact absurd hitem (by simp [Json.isItem])

/-- A list of strings and numbers that JSON has can be read. -/
theorem exists_readItems (room : Nat) : ∀ {items : List Json}, items.all Json.isItem = true →
    Json.itemsEvery Json.isWholeHere items = true → Json.itemsEvery Json.fitsHere items = true →
      ∃ found, items.mapM (readItem room) = .ok found
  | [], _, _, _ => ⟨[], rfl⟩
  | item :: rest, hitems, hwhole, hfits => by
    rw [List.all_cons, Bool.and_eq_true] at hitems
    rw [Json.itemsEvery, Bool.and_eq_true] at hwhole hfits
    obtain ⟨first, hfirst⟩ := exists_readItem room hitems.1 hwhole.1 hfits.1
    obtain ⟨others, hothers⟩ := exists_readItems room hitems.2 hwhole.2 hfits.2
    rw [List.mapM_cons, hfirst, hothers]
    exact ⟨_, rfl⟩

mutual

/-- A value that JSON has can be read as a node if its numbers fit, its lists are flat and there is
room for it. -/
theorem exists_readNode : ∀ {room : Nat} {value : Json}, value.isWhole = true →
    value.fits = true → value.isFlat = true → value.depth ≤ room →
      ∃ node, readNode room value = .ok node
  | _, .null, _, _, _, _ => ⟨_, by rw [readNode]⟩
  | _, .bool _, _, _, _, _ => ⟨_, by rw [readNode]⟩
  | _, .number (some _), _, _, _, _ => ⟨_, by rw [readNode]⟩
  | _, .number none, _, hfits, _, _ => absurd hfits (by decide)
  | _, .text (some _), _, _, _, _ => ⟨_, by rw [readNode]⟩
  | _, .text none, hwhole, _, _, _ => absurd hwhole (by decide)
  | 0, .list items, _, _, _, hroom => absurd hroom (by simp [Json.depth])
  | room + 1, .list items, hwhole, hfits, hflat, _ => by
    rw [Json.isWhole, Json.every, Bool.and_eq_true] at hwhole
    rw [Json.fits, Json.every, Bool.and_eq_true] at hfits
    rw [Json.isFlat, Json.every, Bool.and_eq_true] at hflat
    obtain ⟨found, hfound⟩ := exists_readItems room hflat.1 hwhole.2 hfits.2
    rw [readNode, enter, hfound]
    exact ⟨_, rfl⟩
  | 0, .object members, _, _, _, hroom => absurd hroom (by simp [Json.depth])
  | room + 1, .object members, hwhole, hfits, hflat, hroom => by
    rw [Json.isWhole, Json.every, Bool.and_eq_true] at hwhole
    rw [Json.fits, Json.every, Bool.and_eq_true] at hfits
    rw [Json.isFlat, Json.every, Bool.and_eq_true] at hflat
    obtain ⟨tree, htree⟩ := exists_readMembers [] hwhole.1 hwhole.2 hfits.2 hflat.2
      (Nat.le_of_succ_le_succ hroom)
    rw [readNode, enter, htree]
    exact ⟨_, rfl⟩
  | _, .broken, hwhole, _, _, _ => absurd hwhole (by decide)

/-- The members of such an object can be read, whatever was read before them. -/
theorem exists_readMembers {room : Nat} (before : StyleTree) :
    ∀ {members : List (Option String × Json)}, members.all (·.1.isSome) = true →
      Json.membersEvery Json.isWholeHere members = true →
        Json.membersEvery Json.fitsHere members = true →
          Json.membersEvery Json.isFlatHere members = true → Json.membersDepth members ≤ room →
            ∃ tree, readMembers room before members = .ok tree
  | [], _, _, _, _, _ => ⟨before, by rw [readMembers]⟩
  | (name, value) :: rest, hnames, hwhole, hfits, hflat, hroom => by
    rw [List.all_cons, Bool.and_eq_true] at hnames
    rw [Json.membersEvery, Bool.and_eq_true] at hwhole hfits hflat
    obtain ⟨hvalue, hrest⟩ := Nat.max_le.mp hroom
    obtain ⟨key, rfl⟩ := Option.isSome_iff_exists.mp hnames.1
    obtain ⟨node, hnode⟩ := exists_readNode hwhole.1 hfits.1 hflat.1 hvalue
    obtain ⟨tree, htree⟩ := exists_readMembers (before.insert key node) hnames.2 hwhole.2 hfits.2
      hflat.2 hrest
    exact ⟨tree, by rw [readMembers, Json.nameOf, hnode]; exact htree⟩

end

/-- An object that JSON has can be read as a tree if its numbers fit, its lists are flat and it is
not too deep. -/
theorem exists_ofJson {members : List (Option String × Json)}
    (hwhole : (Json.object members).isWhole = true) (hfits : (Json.object members).fits = true)
    (hflat : (Json.object members).isFlat = true)
    (hdepth : (Json.object members).depth ≤ maxNesting) :
    ∃ tree, ofJson (.object members) = .ok tree := by
  rw [Json.isWhole, Json.every, Bool.and_eq_true] at hwhole
  rw [Json.fits, Json.every, Bool.and_eq_true] at hfits
  rw [Json.isFlat, Json.every, Bool.and_eq_true] at hflat
  exact exists_readMembers [] hwhole.1 hwhole.2 hfits.2 hflat.2 (Nat.le_of_succ_le_succ hdepth)

/-! ## What holds of every node that is read -/

section Every

variable {p : Node → Bool}

mutual

theorem every_of_readNode
    (hp : ∀ room value node, readNode room value = .ok node → p node = true)
    {room : Nat} : ∀ {value : Json} {node : Node},
    readNode room value = .ok node → nodeEvery (fun _ node => p node) node = true
  | .null, _, h => by
    rw [readNode] at h
    exact Except.ok.inj h ▸ rfl
  | .bool b, _, h => by
    rw [readNode] at h
    exact Except.ok.inj h ▸ rfl
  | .number (some n), _, h => by
    rw [readNode] at h
    exact Except.ok.inj h ▸ rfl
  | .number none, _, h => by
    rw [readNode] at h
    exact absurd h (by simp)
  | .text (some s), _, h => by
    rw [readNode] at h
    exact Except.ok.inj h ▸ rfl
  | .text none, _, h => by
    rw [readNode] at h
    exact absurd h (by simp)
  | .list items, _, h => by
    rw [readNode] at h
    obtain ⟨room, hroom⟩ := exists_of_enter h
    obtain ⟨read, -, rfl⟩ := Except.exists_of_map_ok hroom
    rfl
  | .object members, _, h => by
    rw [readNode] at h
    obtain ⟨room, hroom⟩ := exists_of_enter h
    obtain ⟨tree, htree, rfl⟩ := Except.exists_of_map_ok hroom
    cases hreference : reference? tree with
    | some value => rfl
    | none => exact every_of_readMembers hp rfl htree
  | .broken, _, h => by
    rw [readNode] at h
    exact absurd h (by simp)

/-- What holds of every node that is read holds of all that are read from members and all below
them. -/
theorem every_of_readMembers
    (hp : ∀ room value node, readNode room value = .ok node → p node = true)
    {room : Nat} {before : StyleTree}
    (hbefore : every (fun _ node => p node) before = true) :
    ∀ {members : List (Option String × Json)} {tree : StyleTree},
      readMembers room before members = .ok tree → every (fun _ node => p node) tree = true
  | [], _, h => by
    rw [readMembers] at h
    exact Except.ok.inj h ▸ hbefore
  | (name, value) :: rest, _, h => by
    rw [readMembers] at h
    obtain ⟨key, -, h⟩ := Except.exists_of_bind_ok h
    obtain ⟨node, hnode, h⟩ := Except.exists_of_bind_ok h
    exact every_of_readMembers hp
      (every_upsert hbefore fun _ _ => ⟨hp _ _ _ hnode, every_of_readNode hp hnode⟩) h

end

/-- What holds of every node that is read holds everywhere in a tree that is. -/
theorem every_ofText
    (hp : ∀ room value node, readNode room value = .ok node → p node = true)
    {text : String} {tree : StyleTree} (h : ofText text = .ok tree) :
    every (fun _ node => p node) tree = true := by
  obtain ⟨read, hread, h⟩ := Except.exists_of_bind_ok h
  split at h
  · obtain rfl := Except.ok.inj h
    unfold ofJson at hread
    split at hread
    · obtain ⟨room, hroom⟩ := exists_of_enter hread
      exact every_of_readMembers hp rfl hroom
    · exact absurd hread mismatch_ne_ok
  · exact absurd h (by simp)

end Every

/-- A map that stands for a reference is read as the reference. -/
theorem isRead_of_readNode {room : Nat} {value : Json} {node : Node}
    (h : readNode room value = .ok node) : node.isRead = true := by
  cases node with
  | leaf value => rfl
  | tree entries =>
    obtain ⟨-, hread⟩ := of_readNode h
    cases hread with
    | tree hrefers htree =>
      refine Option.isNone_iff_eq_none.mpr (Option.eq_none_iff_forall_ne_some.mpr ?_)
      intro value hvalue
      obtain ⟨css, name, -, hname⟩ := htree.reference?_eq_some_iff.mp hvalue
      exact hrefers css name hname

/-- In a tree that is read no map stands for a reference. -/
theorem isRead_ofText {text : String} {tree : StyleTree} (h : ofText text = .ok tree) :
    tree.isRead = true :=
  every_ofText (fun _ _ _ => isRead_of_readNode) h

/-- In a tree that is read the leaves are those that are given as values. -/
theorem isLeaf_iff_of_isRead {node : Node} (h : node.isRead = true) :
    node.isLeaf = true ↔ ∃ value, node = .leaf value := by
  cases node with
  | leaf value => exact ⟨fun _ => ⟨value, rfl⟩, fun _ => rfl⟩
  | tree entries =>
    have hnone : reference? entries = none := Option.isNone_iff_eq_none.mp h
    simp [Node.isLeaf, Node.value?, hnone]

/-! ## The text of a value -/

/-- The text of a value that is no deeper than the reader goes and whose numbers fit gives a tree
exactly if the value is an object with flat lists. The tree has an entry for each name of the object
at its first place, with what the last value of the name is read as, and its leaves are those that
are given as values. Numbers fit up to the third largest double at least. -/
theorem ofText_of_json {text : String} {value : Json}
    (htext : Json.Token.ofChars text.toList = value.tokens) (hwhole : value.isWhole = true)
    (hfits : value.fits = true) (hdepth : value.depth ≤ 127) :
    ((∃ tree, ofText text = .ok tree) ↔
        (∃ members, value = .object members) ∧ value.isFlat = true) ∧
      (∀ tree, ofText text = .ok tree →
        (∃ members, value = .object members ∧ MembersReadAs members tree) ∧
          ∀ path node, path ≠ [] → tree.node? path = some node →
            (node.isLeaf = true ↔ ∃ leaf, node = .leaf leaf)) ∧
      ∀ numeral : Json.Numeral, numeral.magnitude ≤ Number.thirdLargest →
        (Json.number numeral.read?).fits = true := by
  have hread : ofText text = ofJson value :=
    Json.Document.read_of_tokens ofJson htext (Json.isIntact_of_isWhole value hwhole)
  rw [hread]
  refine ⟨⟨?_, ?_⟩, fun tree htree => ⟨?_, fun path node hpath hnode => ?_⟩, fun numeral h =>
    Option.isSome_iff_exists.mpr (Json.Numeral.exists_read? h)⟩
  · rintro ⟨tree, htree⟩
    obtain ⟨members, hmembers, hflat, -⟩ := of_ofJson htree
    exact ⟨⟨members, hmembers⟩, hflat⟩
  · rintro ⟨⟨members, rfl⟩, hflat⟩
    exact exists_ofJson hwhole hfits hflat hdepth
  · obtain ⟨members, hmembers, -, htree⟩ := of_ofJson htree
    exact ⟨members, hmembers, htree⟩
  · obtain ⟨above, key, rfl⟩ := (List.eq_nil_or_concat path).resolve_left hpath
    rw [List.concat_eq_append] at hnode
    exact isLeaf_iff_of_isRead (every_of_node? (isRead_ofText (hread.trans htree)) hnode).1

/-- Members with repeated names: texts of the whole object that do not make it a reference, a list
that an object replaces, and a number of that object without which it is a reference. -/
def repeatedMembers : List (Option String × Json) :=
  [(some "var", .text (some "--x")),
    (some "p", .object
      [(some "color", .list [.text (some "1px"), .number (some (.unsigned 2))]),
        (some "color", .object [(some "name", .number (some (.signed (-1)))),
          (some "var", .text (some "--x")), (some "name", .text (some "x"))])]),
    (some "var", .text (some "--y"))]

/-- A text of the object with these members. -/
def repeatedText : String :=
  "\x7b\"var\": \"--x\", \"p\": \x7b\"color\": [\"1px\", 2], \"color\": \x7b\"name\": -1, " ++
    "\"var\": \"--x\", \"name\": \"x\"\x7d\x7d, \"var\": \"--y\"\x7d"

theorem ofText_of_json_repeated : ∃ tree, ofText repeatedText = .ok tree ∧
    tree.keys = ["var", "p"] ∧ MembersReadAs repeatedMembers tree := by
  have htext : Json.Token.ofChars repeatedText.toList = (Json.object repeatedMembers).tokens := by
    with_unfolding_all rfl
  obtain ⟨hreads, hread, -⟩ := ofText_of_json htext (by decide) (by decide) (by decide)
  obtain ⟨tree, htree⟩ := hreads.mpr ⟨⟨_, rfl⟩, by decide⟩
  obtain ⟨⟨members, hmembers, hmembersread⟩, -⟩ := hread tree htree
  obtain rfl := Json.object.inj hmembers
  refine ⟨tree, htree, ?_, hmembersread⟩
  cases hmembersread with
  | mk hkeys hnodes => exact hkeys.trans (by decide)

end StyleTree

end NestedStyles
