import NestedStyles.Json.Shape

/-!
# The texts of a JSON value

A text stands for a JSON value if its tokens are those of the value: what the value holds, in order,
with a comma between two values and a name and a colon in front of each member. White space and the
spelling of strings and numbers are left to the tokens. A text that stands for a value is read as
that value to its end, with all members in the order of the text (`Document.ofText_of_tokens`).
-/

namespace NestedStyles.Json

mutual

/-- The tokens that a value is written with. -/
def tokens : Json → List Token
  | .list [] => [.openList, .closeList]
  | .list (item :: rest) => .openList :: (item.tokens ++ tokensBehindItem rest)
  | .object [] => [.openObject, .closeObject]
  | .object ((name, value) :: rest) =>
    .openObject :: .scalar (.text name) :: .colon :: (value.tokens ++ tokensBehindMember rest)
  | .broken => [.bad]
  | value => [.scalar value]

/-- The tokens behind an item of a list, to the end of the list. -/
def tokensBehindItem : List Json → List Token
  | [] => [.closeList]
  | item :: rest => .comma :: (item.tokens ++ tokensBehindItem rest)

/-- The tokens behind a member of an object, to the end of the object. -/
def tokensBehindMember : List (Option String × Json) → List Token
  | [] => [.closeObject]
  | (name, value) :: rest =>
    .comma :: .scalar (.text name) :: .colon :: (value.tokens ++ tokensBehindMember rest)

end

namespace State

variable (first : Bool) (frames : List Frame)

theorem next?_openList : (valueDue first frames).next? .openList =
    some (.valueDue true (.list [] :: frames)) := by
  cases first <;> rcases frames with _ | ⟨_ | _, _⟩ <;> rfl

theorem next?_openObject : (valueDue first frames).next? .openObject =
    some (.nameDue true [] frames) := by
  cases first <;> rcases frames with _ | ⟨_ | _, _⟩ <;> rfl

theorem next?_scalar (value : Json) : (valueDue first frames).next? (.scalar value) =
    some (.behind value frames) := by
  cases first <;> rcases frames with _ | ⟨_ | _, _⟩ <;> rfl

theorem next?_name (before : List (Option String × Json)) (name : Option String) :
    (nameDue first before frames).next? (.scalar (.text name)) =
      some (.colonDue before name frames) := by
  cases first <;> rfl

end State

namespace Document

theorem ofTokens_cons {state next : State} {token : Token} (h : state.next? token = some next)
    (rest : List Token) : ofTokens state (token :: rest) = ofTokens next rest := by
  rw [ofTokens, h]

/-- A member up to its value. -/
theorem ofTokens_name (first : Bool) (before : List (Option String × Json)) (name : Option String)
    (frames : List Frame) (rest : List Token) :
    ofTokens (.nameDue first before frames) (.scalar (.text name) :: .colon :: rest) =
      ofTokens (.valueDue false (.object before name :: frames)) rest := by
  rw [ofTokens_cons (State.next?_name first frames before name)]
  exact ofTokens_cons rfl rest

mutual

/-- A value that is due is read to its end, whatever is open and whatever follows. -/
theorem ofTokens_tokens (first : Bool) (frames : List Frame) (rest : List Token) :
    ∀ value : Json, value.isIntact = true →
      ofTokens (.valueDue first frames) (value.tokens ++ rest) =
        ofTokens (.behind value frames) rest
  | .null, _ => ofTokens_cons (State.next?_scalar first frames _) rest
  | .bool _, _ => ofTokens_cons (State.next?_scalar first frames _) rest
  | .number .., _ => ofTokens_cons (State.next?_scalar first frames _) rest
  | .text _, _ => ofTokens_cons (State.next?_scalar first frames _) rest
  | .list [], _ => by
    rw [tokens, List.cons_append, ofTokens_cons (State.next?_openList first frames)]
    exact ofTokens_cons rfl rest
  | .list (item :: items), h => by
    rw [isIntact, itemsIntact, Bool.and_eq_true] at h
    rw [tokens, List.cons_append, List.append_assoc,
      ofTokens_cons (State.next?_openList first frames), ofTokens_tokens _ _ _ item h.1,
      ofTokens_behindItem _ _ _ _ items h.2]
    rfl
  | .object [], _ => by
    rw [tokens, List.cons_append, ofTokens_cons (State.next?_openObject first frames)]
    exact ofTokens_cons rfl rest
  | .object ((name, value) :: members), h => by
    rw [isIntact, membersIntact, Bool.and_eq_true] at h
    rw [tokens, List.cons_append, ofTokens_cons (State.next?_openObject first frames),
      List.cons_append, List.cons_append, List.append_assoc, ofTokens_name,
      ofTokens_tokens _ _ _ value h.1, ofTokens_behindMember _ _ _ _ _ members h.2]
    rfl
  | .broken, h => absurd h (by simp [isIntact])

/-- Behind an item the rest of its list is read. -/
theorem ofTokens_behindItem (before : List Json) (frames : List Frame) (rest : List Token)
    (item : Json) : ∀ items : List Json, itemsIntact items = true →
      ofTokens (.behind item (.list before :: frames)) (tokensBehindItem items ++ rest) =
        ofTokens (.behind (.list ((item :: before).reverse ++ items)) frames) rest
  | [], _ => by
    rw [tokensBehindItem, List.append_nil]
    exact ofTokens_cons rfl rest
  | next :: items, h => by
    rw [itemsIntact, Bool.and_eq_true] at h
    rw [tokensBehindItem, List.cons_append, List.append_assoc,
      @ofTokens_cons (.behind item (.list before :: frames)) _ _ rfl,
      ofTokens_tokens _ _ _ next h.1, ofTokens_behindItem _ _ _ _ items h.2, List.reverse_cons,
      List.append_assoc, List.singleton_append]

/-- Behind a member the rest of its object is read. -/
theorem ofTokens_behindMember (before : List (Option String × Json)) (name : Option String)
    (frames : List Frame) (rest : List Token) (value : Json) :
    ∀ members : List (Option String × Json), membersIntact members = true →
      ofTokens (.behind value (.object before name :: frames))
          (tokensBehindMember members ++ rest) =
        ofTokens (.behind (.object (((name, value) :: before).reverse ++ members)) frames) rest
  | [], _ => by
    rw [tokensBehindMember, List.append_nil]
    exact ofTokens_cons rfl rest
  | (next, inner) :: members, h => by
    rw [membersIntact, Bool.and_eq_true] at h
    rw [tokensBehindMember, List.cons_append,
      @ofTokens_cons (.behind value (.object before name :: frames)) _ _ rfl, List.cons_append,
      List.cons_append, List.append_assoc, ofTokens_name, ofTokens_tokens _ _ _ inner h.1,
      ofTokens_behindMember _ _ _ _ _ members h.2, List.reverse_cons, List.append_assoc,
      List.singleton_append]

end

/-- A text that stands for a value is read as that value, to its end. -/
theorem ofText_of_tokens {text : String} {value : Json}
    (htext : Token.ofChars text.toList = value.tokens) (hvalue : value.isIntact = true) :
    ofText text = ⟨value, true⟩ := by
  have hread := ofTokens_tokens false [] [] value hvalue
  rw [List.append_nil] at hread
  rw [ofText, htext, hread]
  rfl

/-- Of a text that stands for a value nothing is left behind it, whatever the value is read as. -/
theorem read_of_tokens {α : Type} (read : Json → Except Fault α) {text : String} {value : Json}
    (htext : Token.ofChars text.toList = value.tokens) (hvalue : value.isIntact = true) :
    Document.read read text = read value := by
  rw [Document.read, ofText_of_tokens htext hvalue]
  cases read value <;> rfl

end Document

end NestedStyles.Json
