/-!
# Named entries in order

A table is a list of entries in the order in which their names were first written. Writing a name
again replaces its value where it stands. `Entries.get?` is the view of a table as a partial
function; `get?_upsert` and `keys_upsert` say what writing does to it and to the order.
-/

namespace NestedStyles

universe u

/-- Named values in the order in which the names were first written. -/
abbrev Entries (α : Type u) := List (String × α)

namespace Entries

variable {α : Type u}

/-- The names, in order. -/
def keys (entries : Entries α) : List String := entries.map Prod.fst

/-- The value of a name. -/
def get? (name : String) : Entries α → Option α
  | [] => none
  | (k, v) :: rest => if k = name then some v else get? name rest

/-- Writes the value that `change` makes of the old one, in place; a new name goes to the end. -/
def upsert (name : String) (change : Option α → α) : Entries α → Entries α
  | [] => [(name, change none)]
  | (k, v) :: rest =>
    if k = name then (k, change (some v)) :: rest else (k, v) :: upsert name change rest

/-- Writes a value, in place if the name is there. -/
def insert (name : String) (value : α) (entries : Entries α) : Entries α :=
  entries.upsert name fun _ => value

/-- Writes a value unless the name is there. -/
def insertNew (name : String) (value : α) (entries : Entries α) : Entries α :=
  entries.upsert name fun old => old.getD value

/-- Takes a name out and keeps the order of the others. -/
def remove (name : String) (entries : Entries α) : Entries α :=
  entries.filter fun entry => entry.1 != name

/-- The table that writing the entries one after another leaves. -/
def ofList (writes : List (String × α)) : Entries α :=
  writes.foldl (fun entries (name, value) => entries.insert name value) []

/-- No name stands twice. -/
def Distinct (entries : Entries α) : Prop := (keys entries).Nodup

@[simp] theorem get?_nil (name : String) : get? name ([] : Entries α) = none := rfl

@[simp] theorem keys_nil : keys ([] : Entries α) = [] := rfl

@[simp] theorem keys_cons (name : String) (value : α) (entries : Entries α) :
    keys ((name, value) :: entries) = name :: keys entries := rfl

/-- Writing a name changes its value and no other. -/
theorem get?_upsert (name other : String) (change : Option α → α) (entries : Entries α) :
    get? other (entries.upsert name change) =
      if other = name then some (change (get? name entries)) else get? other entries := by
  induction entries with
  | nil => simp [upsert, get?, eq_comm]
  | cons entry rest ih =>
    obtain ⟨k, v⟩ := entry
    by_cases hk : k = name
    · subst hk
      by_cases hother : other = k
      · simp [upsert, get?, hother]
      · simp [upsert, get?, hother, Ne.symm hother]
    · simp only [upsert, hk, if_false, get?, ih]
      by_cases hother : k = other
      · simp [hother, hother ▸ hk]
      · simp [hother]

/-- Writing a name leaves the order as it is and adds a new name at the end. -/
theorem keys_upsert (name : String) (change : Option α → α) (entries : Entries α) :
    keys (entries.upsert name change) =
      if name ∈ keys entries then keys entries else keys entries ++ [name] := by
  induction entries with
  | nil => simp [upsert, keys]
  | cons entry rest ih =>
    obtain ⟨k, v⟩ := entry
    by_cases hk : k = name
    · simp [upsert, hk]
    · simp only [upsert, hk, if_false, keys_cons, ih, List.mem_cons, Ne.symm hk, false_or]
      by_cases hmem : name ∈ keys rest
      · simp [hmem]
      · simp [hmem]

/-- A name has a value exactly if it stands in the table. -/
theorem get?_isSome (name : String) (entries : Entries α) :
    (get? name entries).isSome = true ↔ name ∈ keys entries := by
  induction entries with
  | nil => simp
  | cons entry rest ih =>
    obtain ⟨k, v⟩ := entry
    by_cases hk : k = name
    · simp [get?, hk]
    · simp [get?, hk, ih, Ne.symm hk]

/-- Writing keeps the names distinct. -/
theorem Distinct.upsert {entries : Entries α} (h : entries.Distinct) (name : String)
    (change : Option α → α) : (entries.upsert name change).Distinct := by
  unfold Distinct at *
  rw [keys_upsert]
  split
  · exact h
  · next hn =>
    rw [List.nodup_append]
    exact ⟨h, by simp, by grind⟩

end Entries

end NestedStyles
