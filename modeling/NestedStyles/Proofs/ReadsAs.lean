import Mathlib.Data.List.Forall2
import NestedStyles.Proofs.JsonText
import NestedStyles.Proofs.Lookup

/-!
# What a JSON value is read as

`Json.ReadsAs` relates a value to the node that it should be read as. An object has one entry for
each of its names (`Json.MembersReadAs`), where the name first stands and with what its last value
is read as, and it is given as the value of a reference if its last members make it one
(`Json.RefersTo`). This is what writing the nodes of the members one after another leaves
(`Json.EachReadAs.ofList`), and the tree that it leaves stands for a reference exactly if the object
does (`Json.MembersReadAs.reference?_eq_some_iff`).
-/

namespace NestedStyles

namespace Json

/-! ## Conditions on JSON values -/

mutual

/-- The condition holds of a value and of every value in it, at any depth. -/
def every (p : Json → Bool) : Json → Bool
  | .list items => p (.list items) && itemsEvery p items
  | .object members => p (.object members) && membersEvery p members
  | value => p value

/-- The condition holds of all items and of every value in them. -/
def itemsEvery (p : Json → Bool) : List Json → Bool
  | [] => true
  | item :: rest => item.every p && itemsEvery p rest

/-- The condition holds of the values of all members and of every value in them. -/
def membersEvery (p : Json → Bool) : List (Option String × Json) → Bool
  | [] => true
  | (_, value) :: rest => value.every p && membersEvery p rest

end

mutual

/-- The largest number of lists and objects inside each other. -/
def depth : Json → Nat
  | .list items => itemsDepth items + 1
  | .object members => membersDepth members + 1
  | _ => 0

/-- The largest depth of an item. -/
def itemsDepth : List Json → Nat
  | [] => 0
  | item :: rest => max item.depth (itemsDepth rest)

/-- The largest depth of the value of a member. -/
def membersDepth : List (Option String × Json) → Nat
  | [] => 0
  | (_, value) :: rest => max value.depth (membersDepth rest)

end

/-- Not broken off, with all characters of its own string or names. -/
def isWholeHere : Json → Bool
  | .text s => s.isSome
  | .object members => members.all (·.1.isSome)
  | .broken => false
  | _ => true

/-- A value that JSON has: nothing in it is broken off, no string and no name has a half of a
surrogate pair. -/
def isWhole (value : Json) : Bool := value.every isWholeHere

/-- A number that is in range, or another value. -/
def fitsHere : Json → Bool
  | .number n => n.isSome
  | _ => true

/-- All numbers in the value fit a double. -/
def fits (value : Json) : Bool := value.every fitsHere

/-- A string or a number. -/
def isItem : Json → Bool
  | .text _ => true
  | .number _ => true
  | _ => false

/-- A list of strings and numbers, or a value that is no list. -/
def isFlatHere : Json → Bool
  | .list items => items.all isItem
  | _ => true

/-- Every list in the value holds strings and numbers only. -/
def isFlat (value : Json) : Bool := value.every isFlatHere

mutual

theorem isIntact_of_isWhole : ∀ value : Json, value.isWhole = true → value.isIntact = true
  | .null, _ => rfl
  | .bool _, _ => rfl
  | .number .., _ => rfl
  | .text _, _ => rfl
  | .list items, h => by
    rw [isWhole, every, Bool.and_eq_true] at h
    exact itemsIntact_of_isWhole items h.2
  | .object members, h => by
    rw [isWhole, every, Bool.and_eq_true] at h
    exact membersIntact_of_isWhole members h.2
  | .broken, h => absurd h (by decide)

theorem itemsIntact_of_isWhole : ∀ items : List Json, itemsEvery isWholeHere items = true →
    itemsIntact items = true
  | [], _ => rfl
  | item :: rest, h => by
    rw [itemsEvery, Bool.and_eq_true] at h
    rw [itemsIntact, isIntact_of_isWhole item h.1, itemsIntact_of_isWhole rest h.2]
    rfl

/-- What is not broken off anywhere is intact. -/
theorem membersIntact_of_isWhole : ∀ members : List (Option String × Json),
    membersEvery isWholeHere members = true → membersIntact members = true
  | [], _ => rfl
  | (_, value) :: rest, h => by
    rw [membersEvery, Bool.and_eq_true] at h
    rw [membersIntact, isIntact_of_isWhole value h.1, membersIntact_of_isWhole rest h.2]
    rfl

end

/-! ## What a value is read as -/

/-- The members with a name, in order. -/
def named (members : List (Option String × Json)) : Entries Json :=
  members.filterMap fun member => member.1.map (·, member.2)

/-- The names of the members in order, repeated ones included. -/
def names (members : List (Option String × Json)) : List String := (named members).keys

/-- The value of the last member of a name. -/
def last? (name : String) (members : List (Option String × Json)) : Option Json :=
  Entries.get? name (named members).reverse

/-- The last members are a string `var`, at most a string `name` and nothing else. -/
def RefersTo (css : String) (name : Option String) (members : List (Option String × Json)) : Prop :=
  last? "var" members = some (.text (some css)) ∧
    last? "name" members = name.map (fun text => .text (some text)) ∧
    ∀ key ∈ names members, key = "var" ∨ key = "name"

/-- What a number is read as: an integer as the double nearest to it, and a double as it is. -/
inductive NumberReadsAs : Numeric → Number → Prop
  | unsigned (n : UInt64) : NumberReadsAs (.unsigned n) (.ofInt n.toNat)
  | signed (n : Int64) : NumberReadsAs (.signed n) (.ofInt n.toInt)
  | float (n : Number) (hn : n.isFinite = true) : NumberReadsAs (.float n hn) n

/-- What an item of a list is read as. -/
inductive ItemReadsAs : Json → Item → Prop
  | text (s : String) : ItemReadsAs (.text (some s)) (.text s)
  | number {n : Numeric} {found : Number} (hnumber : NumberReadsAs n found) :
    ItemReadsAs (.number (some n)) (.number found)

mutual

/-- What a value below the top is read as. -/
inductive ReadsAs : Json → Node → Prop
  | null : ReadsAs .null (.leaf .null)
  | bool (b : Bool) : ReadsAs (.bool b) (.leaf (.bool b))
  | number {n : Numeric} {found : Number} (hnumber : NumberReadsAs n found) :
    ReadsAs (.number (some n)) (.leaf (.number found))
  | text (s : String) : ReadsAs (.text (some s)) (.leaf (.text s))
  | list {items : List Json} {found : List Item} (hitems : List.Forall₂ ItemReadsAs items found) :
    ReadsAs (.list items) (.leaf (.list found))
  | reference {members : List (Option String × Json)} {css : String} {name : Option String}
    (hrefers : RefersTo css name members) : ReadsAs (.object members) (.leaf (.reference css name))
  | tree {members : List (Option String × Json)} {tree : StyleTree}
    (hrefers : ∀ css name, ¬ RefersTo css name members) (htree : MembersReadAs members tree) :
    ReadsAs (.object members) (.tree tree)

/-- What the members of an object are read as: an entry for each name, where it first stands, with
what its last value is read as. -/
inductive MembersReadAs : List (Option String × Json) → StyleTree → Prop
  | mk {members : List (Option String × Json)} {tree : StyleTree}
    (hkeys : Entries.keys tree = (names members).eraseDups)
    (hnodes : ∀ name value node, last? name members = some value →
      Entries.get? name tree = some node → ReadsAs value node) : MembersReadAs members tree

end

theorem Numeric.readsAs (n : Numeric) : NumberReadsAs n n.number := by
  cases n with
  | unsigned n => exact .unsigned n
  | signed n => exact .signed n
  | float n hn => exact .float n hn

/-! ## Members in order -/

section Members

variable {members : List (Option String × Json)} {nodes : Entries Node}

/-- The nodes are what the members are read as, one by one. -/
def EachReadAs (members : List (Option String × Json)) (nodes : Entries Node) : Prop :=
  List.Forall₂ (fun member entry => member.1 = some entry.1 ∧ member.2.ReadsAs entry.2)
    members nodes

theorem EachReadAs.named (h : EachReadAs members nodes) :
    List.Forall₂ (fun member entry => member.1 = entry.1 ∧ member.2.ReadsAs entry.2)
      (Json.named members) nodes := by
  induction h with
  | nil => exact .nil
  | cons hfirst _ ih =>
    rw [Json.named, List.filterMap_cons, hfirst.1]
    exact .cons ⟨rfl, hfirst.2⟩ ih

theorem EachReadAs.keys (h : EachReadAs members nodes) : nodes.keys = names members := by
  have hkeys : List.Forall₂ (· = ·) (names members) nodes.keys :=
    List.forall₂_map_left_iff.mpr (List.forall₂_map_right_iff.mpr (h.named.imp fun _ _ hr => hr.1))
  exact (List.forall₂_eq_eq_eq ▸ hkeys : names members = nodes.keys).symm

/-- The last node of a name is what its last value is read as. -/
theorem EachReadAs.last (h : EachReadAs members nodes) {name : String} {value : Json} {node : Node}
    (hvalue : last? name members = some value)
    (hnode : Entries.get? name nodes.reverse = some node) : value.ReadsAs node := by
  have hreverse := List.forall₂_reverse_iff.mpr h.named
  rw [last?] at hvalue
  generalize (Json.named members).reverse = front at hreverse hvalue
  generalize nodes.reverse = back at hreverse hnode
  induction hreverse with
  | nil => exact absurd hvalue (by simp)
  | @cons member entry _ _ hfirst _ ih =>
    obtain ⟨key, inner⟩ := member
    obtain ⟨key', found⟩ := entry
    obtain ⟨rfl, hread⟩ := hfirst
    rw [Entries.get?] at hvalue hnode
    split at hvalue
    · next hkey =>
      rw [if_pos hkey] at hnode
      exact Option.some.inj hvalue ▸ Option.some.inj hnode ▸ hread
    · next hkey =>
      rw [if_neg hkey] at hnode
      exact ih hvalue hnode

/-- Writing the nodes one after another leaves what the object is read as. -/
theorem EachReadAs.ofList (h : EachReadAs members nodes) :
    MembersReadAs members (Entries.ofList nodes) := by
  refine .mk ?_ fun name value node hvalue hnode => ?_
  · rw [Entries.keys_ofList, h.keys]
  · rw [Entries.get?_ofList] at hnode
    exact h.last hvalue hnode

end Members

/-! ## References -/

section References

variable {members : List (Option String × Json)} {tree : StyleTree}

theorem mem_names_iff {name : String} :
    name ∈ names members ↔ ∃ value, last? name members = some value := by
  rw [← Option.isSome_iff_exists, last?, Entries.get?_isSome, Entries.keys, List.map_reverse,
    List.mem_reverse]
  rfl

/-- A name stands in an object exactly if it stands in what the object is read as. -/
theorem MembersReadAs.mem_keys_iff (h : MembersReadAs members tree) {name : String} :
    name ∈ tree.keys ↔ name ∈ names members := by
  obtain ⟨hkeys, -⟩ := h
  rw [hkeys, List.mem_eraseDups]

/-- A value is read as a text exactly if it is one. -/
theorem readsAs_text_iff {value : Json} {s : String} :
    value.ReadsAs (.leaf (.text s)) ↔ value = .text (some s) := by
  constructor
  · intro h
    cases h
    rfl
  · rintro rfl
    exact .text s

/-- The last value of a name is a text exactly if the name has this text in the tree. -/
theorem MembersReadAs.get?_text_iff (h : MembersReadAs members tree) {name s : String} :
    tree.get? name = some (.leaf (.text s)) ↔ last? name members = some (.text (some s)) := by
  have hmem : name ∈ tree.keys ↔ name ∈ names members := h.mem_keys_iff
  rw [← Entries.get?_isSome, mem_names_iff, Option.isSome_iff_exists] at hmem
  obtain ⟨-, hnodes⟩ := h
  constructor
  · intro hnode
    obtain ⟨value, hvalue⟩ := hmem.mp ⟨_, hnode⟩
    rw [hvalue, readsAs_text_iff.mp (hnodes name value _ hvalue hnode)]
  · intro hvalue
    obtain ⟨node, hnode⟩ := hmem.mpr ⟨_, hvalue⟩
    rw [hnode]
    cases hnodes name _ node hvalue hnode
    rfl

/-- An object is read as a tree that stands for a reference exactly if its last members make it
one. -/
theorem MembersReadAs.reference?_eq_some_iff (h : MembersReadAs members tree) {value : Value} :
    tree.reference? = some value ↔
      ∃ css name, value = .reference css name ∧ RefersTo css name members := by
  have hname (name : Option String) :
      tree.get? "name" = name.map (fun text => .leaf (.text text)) ↔
        last? "name" members = name.map (fun text => .text (some text)) := by
    cases name with
    | none =>
      rw [Option.map_none, Option.map_none, Entries.get?_eq_none_iff, h.mem_keys_iff, mem_names_iff,
        not_exists, Option.eq_none_iff_forall_ne_some]
    | some name => exact h.get?_text_iff
  rw [StyleTree.reference?_eq_some_iff]
  simp only [RefersTo, h.get?_text_iff, hname, h.mem_keys_iff]

end References

end Json

end NestedStyles
