import NestedStyles.Entries

/-!
# Many writes to a table

A run of writes changes the value of a name by the writes of that name alone
(`get?_foldl_upsert`), and new names stand behind the old ones in the order in which they were
first written (`keys_foldl_upsert`). A table with distinct names is given by its names in order and
its values (`Distinct.eq_of_view`), so the two together determine what a run of writes leaves.
-/

namespace NestedStyles.Entries

universe u v

variable {α : Type u} {β : Type v}

/-- Repetitions may be dropped before elements are. -/
theorem eraseDups_filter (p : String → Bool) : ∀ names : List String,
    (names.filter p).eraseDups = names.eraseDups.filter p
  | [] => rfl
  | name :: names => by
    rw [List.eraseDups_cons, List.filter_cons, List.filter_cons,
      ← eraseDups_filter p (names.filter fun n => !n == name), List.filter_filter]
    by_cases h : p name = true
    · rw [if_pos h, if_pos h, List.eraseDups_cons, List.filter_filter]
      congr 2
      exact List.filter_congr fun n _ => Bool.and_comm _ _
    · rw [if_neg h, if_neg h]
      congr 1
      refine List.filter_congr fun n _ => ?_
      by_cases hn : n = name
      · rw [hn, Bool.eq_false_iff.mpr h, Bool.false_and]
      · simp [hn]
termination_by names => names.length
decreasing_by exact Nat.lt_succ_of_le (List.length_filter_le _ _)

/-- Of names behind others those are left that do not stand before. -/
theorem eraseDups_append (front back : List String) : (front ++ back).eraseDups =
    front.eraseDups ++ back.eraseDups.filter (· ∉ front.eraseDups) := by
  rw [List.eraseDups_append, List.removeAll, eraseDups_filter]
  congr 1
  exact List.filter_congr fun name _ => by simp

/-- Distinct names may be renamed to distinct ones before repetitions are dropped. -/
theorem eraseDups_map {f : String → String} (hf : ∀ a b, f a = f b → a = b) :
    ∀ names : List String, (names.map f).eraseDups = names.eraseDups.map f
  | [] => rfl
  | name :: names => by
    have hfilter : (names.map f).filter (fun n => !n == f name) =
        (names.filter fun n => !n == name).map f := by
      rw [List.filter_map]
      congr 1
      refine List.filter_congr fun n _ => ?_
      by_cases hn : n = name
      · simp [hn]
      · have hfn : f n ≠ f name := fun h => hn (hf _ _ h)
        rw [Function.comp_apply, beq_false_of_ne hfn, beq_false_of_ne hn]
    rw [List.map_cons, List.eraseDups_cons, List.eraseDups_cons, List.map_cons, hfilter,
      eraseDups_map hf (names.filter fun n => !n == name)]
termination_by names => names.length
decreasing_by exact Nat.lt_succ_of_le (List.length_filter_le _ _)

/-- No name is left twice. -/
theorem nodup_eraseDups : ∀ names : List String, names.eraseDups.Nodup
  | [] => List.nodup_nil
  | name :: names => by
    rw [List.eraseDups_cons, List.nodup_cons]
    refine ⟨fun hmem => ?_, nodup_eraseDups (names.filter fun n => !n == name)⟩
    have hne := (List.mem_filter.mp (List.mem_eraseDups.mp hmem)).2
    exact absurd hne (by simp)
termination_by names => names.length
decreasing_by exact Nat.lt_succ_of_le (List.length_filter_le _ _)

theorem distinct_nil : Distinct ([] : Entries α) := List.nodup_nil

section Writes

variable (name : β → String) (change : β → Option α → α)

/-- Only the writes of a name change its value. -/
theorem get?_foldl_upsert (n : String) (writes : List β) (entries : Entries α) :
    get? n (writes.foldl (fun e w => e.upsert (name w) (change w)) entries) =
      (writes.filter (name · = n)).foldl (fun old w => some (change w old)) (get? n entries) := by
  induction writes generalizing entries with
  | nil => rfl
  | cons w rest ih =>
    rw [List.foldl_cons, ih, get?_upsert]
    by_cases h : name w = n
    · simp [h]
    · simp [h, Ne.symm h]

theorem Distinct.foldl_upsert (writes : List β) {entries : Entries α} (h : entries.Distinct) :
    (writes.foldl (fun e w => e.upsert (name w) (change w)) entries).Distinct := by
  induction writes generalizing entries with
  | nil => exact h
  | cons w rest ih => exact ih (h.upsert _ _)

/-- New names stand behind the old ones, in the order of their first write. -/
theorem keys_foldl_upsert (writes : List β) (entries : Entries α) :
    keys (writes.foldl (fun e w => e.upsert (name w) (change w)) entries) =
      keys entries ++ ((writes.map name).removeAll (keys entries)).eraseDups := by
  induction writes generalizing entries with
  | nil => simp [List.removeAll]
  | cons w rest ih =>
    rw [List.foldl_cons, ih, keys_upsert]
    by_cases hw : name w ∈ keys entries
    · simp [hw, List.removeAll]
    · have hrest : (rest.map name).removeAll (keys entries ++ [name w]) =
          ((rest.map name).removeAll (keys entries)).filter fun n => !n == name w := by
        rw [List.removeAll, List.removeAll, List.filter_filter]
        exact List.filter_congr fun n _ => by simp [Bool.and_comm, Bool.beq_eq_decide_eq]
      have hfirst : (name w :: rest.map name).removeAll (keys entries) =
          name w :: (rest.map name).removeAll (keys entries) := by
        simp [List.removeAll, hw]
      rw [if_neg hw, List.map_cons, hfirst, hrest, List.eraseDups_cons, List.append_assoc]
      rfl

/-- Names written to an empty table stand in the order of their first write. -/
theorem keys_foldl_upsert_nil (writes : List β) :
    keys (writes.foldl (fun e w => e.upsert (name w) (change w)) []) =
      (writes.map name).eraseDups := by
  rw [keys_foldl_upsert, keys_nil, List.nil_append, List.removeAll_nil]

end Writes

/-- A name has no value exactly if it does not stand in the table. -/
theorem get?_eq_none_iff {name : String} {entries : Entries α} :
    get? name entries = none ↔ name ∉ keys entries := by
  rw [← get?_isSome, Bool.not_eq_true, Option.isSome_eq_false_iff, Option.isNone_iff_eq_none]

/-- A name in the table has the value of an entry of that name. -/
theorem mem_of_get? {name : String} {value : α} :
    ∀ {entries : Entries α}, get? name entries = some value → (name, value) ∈ entries
  | (k, v) :: rest, h => by
    simp only [get?] at h
    split at h
    · next hk => simp_all
    · exact List.mem_cons_of_mem _ (mem_of_get? h)

/-- A new name stands at the end. -/
theorem upsert_of_not_mem {name : String} {change : Option α → α} :
    ∀ {entries : Entries α}, name ∉ keys entries →
      entries.upsert name change = entries ++ [(name, change none)]
  | [], _ => rfl
  | (k, v) :: rest, h => by
    obtain ⟨hk, hrest⟩ := not_or.mp (mt List.mem_cons.mpr h)
    rw [upsert, if_neg (Ne.symm hk), upsert_of_not_mem hrest]
    rfl

/-- A value that is written to a new name may be written to any. -/
theorem insert_eq_insertNew {name : String} {entries : Entries α} (h : get? name entries = none)
    (value : α) : entries.insert name value = entries.insertNew name value := by
  rw [get?_eq_none_iff] at h
  rw [insert, insertNew, upsert_of_not_mem h, upsert_of_not_mem h, Option.getD_none]

/-- A name that is there is not written again. -/
theorem insertNew_of_get? {name : String} {old : α} :
    ∀ {entries : Entries α}, get? name entries = some old → ∀ value : α,
      entries.insertNew name value = entries
  | (k, v) :: rest, h, value => by
    rw [get?] at h
    rw [insertNew, upsert]
    split
    · rfl
    · next hk =>
      rw [if_neg hk] at h
      exact congrArg ((k, v) :: ·) (insertNew_of_get? h value)

/-- Values that are only written to new names leave the old ones, and of several for one name the
first one stands. -/
theorem get?_foldl_insertNew (n : String) (writes entries : Entries α) :
    get? n (writes.foldl (fun e w => e.insertNew w.1 w.2) entries) =
      (get? n entries).or (get? n writes) := by
  induction writes generalizing entries with
  | nil => exact (Option.or_none).symm
  | cons w rest ih =>
    obtain ⟨k, v⟩ := w
    rw [List.foldl_cons, ih, insertNew, get?_upsert, get?]
    by_cases h : n = k
    · subst h
      cases get? n entries <;> simp
    · simp [h, Ne.symm h]

/-- An entry of a table that a name was written to is old, or it is the one that was written. -/
theorem mem_upsert {name key : String} {change : Option α → α} {value : α} :
    ∀ {entries : Entries α}, (key, value) ∈ entries.upsert name change →
      (key, value) ∈ entries ∨
        key = name ∧ ∃ old, value = change old ∧ ∀ o, old = some o → (name, o) ∈ entries
  | [], h => by
    obtain ⟨rfl, rfl⟩ := Prod.mk.inj (List.mem_singleton.mp h)
    exact Or.inr ⟨rfl, none, rfl, by simp⟩
  | (k, v) :: rest, h => by
    rw [upsert] at h
    split at h
    · next hk =>
      subst hk
      rcases List.mem_cons.mp h with h | h
      · obtain ⟨rfl, rfl⟩ := Prod.mk.inj h
        exact Or.inr ⟨rfl, some v, rfl, by simp⟩
      · exact Or.inl (List.mem_cons_of_mem _ h)
    · rcases List.mem_cons.mp h with h | h
      · exact Or.inl (h ▸ List.mem_cons_self)
      · rcases mem_upsert h with h | ⟨rfl, old, rfl, hold⟩
        · exact Or.inl (List.mem_cons_of_mem _ h)
        · exact Or.inr ⟨rfl, old, rfl, fun o ho => List.mem_cons_of_mem _ (hold o ho)⟩

/-- What a table holds has been written to it. -/
theorem mem_ofList {key : String} {value : α} {writes : List (String × α)}
    (h : (key, value) ∈ ofList writes) : (key, value) ∈ writes := by
  have hfold : ∀ (writes : List (String × α)) (start : Entries α),
      (key, value) ∈ writes.foldl (fun entries write => entries.insert write.1 write.2) start →
        (key, value) ∈ start ∨ (key, value) ∈ writes := by
    intro writes
    induction writes with
    | nil => exact fun start h => Or.inl h
    | cons write rest ih =>
      intro start h
      obtain ⟨name, other⟩ := write
      rcases ih _ h with h | h
      · rcases mem_upsert h with h | ⟨rfl, -, rfl, -⟩
        · exact Or.inl h
        · exact Or.inr List.mem_cons_self
      · exact Or.inr (List.mem_cons_of_mem _ h)
  exact (hfold writes [] h).resolve_left (by simp)

theorem get?_append (name : String) (front back : Entries α) :
    get? name (front ++ back) = (get? name front).or (get? name back) := by
  induction front with
  | nil => rfl
  | cons entry rest ih =>
    obtain ⟨k, v⟩ := entry
    rw [List.cons_append, get?, get?, ih]
    split <;> rfl

/-- The last write of a name gives its value. -/
theorem get?_foldl_insert (name : String) (writes entries : Entries α) :
    get? name (writes.foldl (fun e w => e.insert w.1 w.2) entries) =
      (get? name writes.reverse).or (get? name entries) := by
  induction writes generalizing entries with
  | nil => rfl
  | cons write rest ih =>
    obtain ⟨k, v⟩ := write
    rw [List.foldl_cons, ih, insert, get?_upsert, List.reverse_cons, get?_append, Option.or_assoc]
    by_cases h : name = k
    · simp [h, get?]
    · simp [h, Ne.symm h, get?]

theorem get?_ofList (name : String) (writes : List (String × α)) :
    get? name (ofList writes) = get? name writes.reverse :=
  (get?_foldl_insert name writes []).trans Option.or_none

theorem keys_ofList (writes : List (String × α)) :
    keys (ofList writes) = (keys writes).eraseDups :=
  keys_foldl_upsert_nil Prod.fst (fun write _ => write.2) writes

theorem distinct_ofList (writes : List (String × α)) : (ofList writes).Distinct :=
  distinct_nil.foldl_upsert Prod.fst (fun write _ => write.2) writes

/-- Writes of distinct names leave the entries as they are written. -/
theorem ofList_of_distinct {writes : Entries α} (h : writes.Distinct) : ofList writes = writes := by
  have hfold : ∀ (writes entries : Entries α), Distinct (entries ++ writes) →
      writes.foldl (fun entries write => entries.insert write.1 write.2) entries =
        entries ++ writes := by
    intro writes
    induction writes with
    | nil => exact fun entries _ => (List.append_nil entries).symm
    | cons write rest ih =>
      intro entries hentries
      obtain ⟨name, value⟩ := write
      have hname : name ∉ keys entries := by
        unfold Distinct keys at hentries
        rw [List.map_append, List.map_cons, List.nodup_append] at hentries
        exact fun hmem => hentries.2.2 name hmem name (by simp) rfl
      change rest.foldl _ (entries.upsert name fun _ => value) = _
      rw [upsert_of_not_mem hname, ih _ (by simpa using hentries)]
      simp
  exact hfold writes [] h

/-- Writing commutes with a change of the values that the written value keeps up with. -/
theorem upsert_map {γ : Type v} (name : String) (f : String → α → γ) (change : Option α → α)
    (change' : Option γ → γ) (entries : Entries α)
    (h : ∀ old : Option α, (∀ o, old = some o → (name, o) ∈ entries) →
      change' (old.map (f name)) = f name (change old)) :
    upsert name change' (entries.map fun entry => (entry.1, f entry.1 entry.2)) =
      (entries.upsert name change).map fun entry => (entry.1, f entry.1 entry.2) := by
  induction entries with
  | nil =>
    rw [List.map_nil, upsert, upsert, ← Option.map_none (f := f name), h none (by simp)]
    rfl
  | cons entry rest ih =>
    obtain ⟨k, v⟩ := entry
    rw [List.map_cons, upsert, upsert]
    split
    · next hk =>
      subst hk
      rw [List.map_cons, ← h (some v) (by simp)]
      rfl
    · rw [List.map_cons, ih fun old hold => h old fun o ho => List.mem_cons_of_mem _ (hold o ho)]

/-- With distinct names every entry is seen. -/
theorem Distinct.get?_of_mem {name : String} {value : α} :
    ∀ {entries : Entries α}, entries.Distinct → (name, value) ∈ entries →
      get? name entries = some value
  | (k, v) :: rest, hd, h => by
    obtain ⟨hk, hrest⟩ := List.nodup_cons.mp hd
    rcases List.mem_cons.mp h with h | h
    · obtain ⟨rfl, rfl⟩ := Prod.mk.inj h
      simp [get?]
    · have hne : k ≠ name := by
        rintro rfl
        exact hk (List.mem_map.mpr ⟨_, h, rfl⟩)
      rw [get?, if_neg hne]
      exact Distinct.get?_of_mem hrest h

/-- Two tables with the same names in the same order and the same values are equal. -/
theorem Distinct.eq_of_view {a b : Entries α} (ha : a.Distinct) (hkeys : keys a = keys b)
    (hget : ∀ name, get? name a = get? name b) : a = b := by
  induction a generalizing b with
  | nil => simpa [keys] using hkeys
  | cons entry a ih =>
    obtain ⟨k, v⟩ := entry
    cases b with
    | nil => simp [keys] at hkeys
    | cons entry' b =>
      obtain ⟨k', v'⟩ := entry'
      obtain ⟨hk, ha⟩ := List.nodup_cons.mp ha
      simp only [keys_cons, List.cons.injEq] at hkeys
      obtain ⟨rfl, hkeys⟩ := hkeys
      obtain rfl : v = v' := by simpa [get?] using hget k
      rw [ih ha hkeys fun name => ?_]
      by_cases hname : k = name
      · rw [← hname, get?_eq_none_iff.mpr hk, get?_eq_none_iff.mpr (hkeys ▸ hk)]
      · simpa [get?, hname] using hget name

/-- Two tables with the same values have the same entries. -/
theorem Distinct.perm_of_view {a b : Entries α} (ha : a.Distinct) (hb : b.Distinct)
    (hget : ∀ name, get? name a = get? name b) : a.Perm b := by
  have hentries {entries : Entries α} (h : entries.Distinct) : entries.Nodup :=
    List.Pairwise.of_map Prod.fst (fun _ _ hne heq => hne (congrArg Prod.fst heq)) h
  refine (List.perm_ext_iff_of_nodup (hentries ha) (hentries hb)).mpr fun ⟨name, value⟩ => ?_
  constructor
  · intro h
    exact mem_of_get? ((hget name).symm.trans (ha.get?_of_mem h))
  · intro h
    exact mem_of_get? ((hget name).trans (hb.get?_of_mem h))

/-! ## The last writes -/

/-- The writes that no later one of the same name takes back. -/
def lasts : List (String × α) → Entries α
  | [] => []
  | (name, value) :: rest => if name ∈ keys rest then lasts rest else (name, value) :: lasts rest

theorem mem_keys_lasts {name : String} {writes : List (String × α)} :
    name ∈ keys (lasts writes) ↔ name ∈ keys writes := by
  induction writes with
  | nil => rfl
  | cons write rest ih =>
    obtain ⟨k, v⟩ := write
    rw [lasts, keys_cons, List.mem_cons]
    split
    · next hk =>
      rw [ih]
      exact ⟨Or.inr, fun h => h.elim (· ▸ hk) id⟩
    · rw [keys_cons, List.mem_cons, ih]

theorem distinct_lasts : ∀ writes : List (String × α), (lasts writes).Distinct
  | [] => distinct_nil
  | (name, value) :: rest => by
    rw [lasts]
    split
    · exact distinct_lasts rest
    · next hname => exact List.nodup_cons.mpr ⟨mt mem_keys_lasts.mp hname, distinct_lasts rest⟩

theorem get?_lasts (name : String) (writes : List (String × α)) :
    get? name (lasts writes) = get? name writes.reverse := by
  induction writes with
  | nil => rfl
  | cons write rest ih =>
    obtain ⟨k, v⟩ := write
    rw [lasts, List.reverse_cons, get?_append, ← ih]
    split
    · next hk =>
      by_cases h : k = name
      · obtain ⟨value, hvalue⟩ :=
          Option.isSome_iff_exists.mp ((get?_isSome _ _).mpr (mem_keys_lasts.mpr (h ▸ hk)))
        rw [hvalue, Option.some_or]
      · simp [get?, h]
    · next hk =>
      by_cases h : k = name
      · have hnone : get? name (lasts rest) = none :=
          get?_eq_none_iff.mpr fun hmem => hk (h ▸ mem_keys_lasts.mp hmem)
        rw [hnone, get?, if_pos h, Option.none_or, get?, if_pos h]
      · simp [get?, h]

/-- A run of writes leaves the last write of each name. -/
theorem perm_lasts (writes : List (String × α)) : (ofList writes).Perm (lasts writes) :=
  (distinct_ofList writes).perm_of_view (distinct_lasts writes) fun name =>
    (get?_ofList name writes).trans (get?_lasts name writes).symm

/-- The view of a table whose values are given by a function of the name. -/
theorem get?_map_pair (value : String → α) (name : String) (names : List String) :
    get? name (names.map fun n => (n, value n)) =
      if name ∈ names then some (value name) else none := by
  induction names with
  | nil => rfl
  | cons n names ih =>
    simp only [List.map_cons, get?, ih, List.mem_cons]
    by_cases h : n = name
    · simp [h]
    · simp [h, Ne.symm h]

@[simp] theorem keys_map_pair (value : String → α) (names : List String) :
    keys (names.map fun n => (n, value n)) = names := by
  simp [keys, Function.comp_def]

end NestedStyles.Entries
