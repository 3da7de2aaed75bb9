import Mathlib.Data.List.Pairwise
import NestedStyles.Options.Config

/-!
# The order of the shorthands

A shorthand stands at a position: at a place in its variant, which stands at a place in its group,
which stands at a place among the groups. Positions are ordered by group, variant and entry, and
`Config.entries` lists the shorthands in this order (`Config.map_placed`, `Config.mem_placed_iff`,
`Config.placed_pairwise`). So the value of a name in a list of what the shorthands give is the one
that is given at the first position (`Config.get?_derived_eq_some_iff`), and the names stand in the
order of their first positions (`Config.inOrder_newNames`).
-/

namespace NestedStyles

/-- Where a shorthand stands: its group, its variant in the group and its entry in the variant. -/
structure Position where
  group : ℕ
  variant : ℕ
  entry : ℕ

/-- An earlier group, or an earlier variant of the group, or an earlier entry of the variant. -/
def Position.Before (p q : Position) : Prop :=
  p.group < q.group ∨ p.group = q.group ∧
    (p.variant < q.variant ∨ p.variant = q.variant ∧ p.entry < q.entry)

theorem Position.Before.asymm {p q : Position} (h : p.Before q) : ¬ q.Before p := by
  unfold Position.Before at *
  omega

namespace Config

variable {α : Type}

/-! ## Shorthands and their positions -/

/-- A shorthand of a variant stands at a position. -/
def StandsAt (config : Config) (position : Position) (variant : String) (shorthand : Shorthand) :
    Prop :=
  ∃ group variants entries, config.shorthands[position.group]? = some (group, variants) ∧
    variants[position.variant]? = some (variant, entries) ∧
      entries[position.entry]? = some shorthand

/-- The shorthand at a position gives the name of its variant a value. -/
def Gives (part : Shorthand → Option α) (config : Config) (position : Position) (name : String)
    (value : α) : Prop :=
  ∃ shorthand, config.StandsAt position name shorthand ∧ part shorthand = some value

/-- No shorthand before the position gives the name a value. -/
def GivesFirst (part : Shorthand → Option α) (config : Config) (position : Position)
    (name : String) (value : α) : Prop :=
  config.Gives part position name value ∧
    ∀ other found, config.Gives part other name found → ¬ other.Before position

/-- The shorthands of a configuration with their positions, groups and variants. -/
def placed (config : Config) : List (Position × String × String × Shorthand) :=
  config.shorthands.zipIdx.flatMap fun ((group, variants), i) =>
    variants.zipIdx.flatMap fun ((variant, entries), j) =>
      entries.zipIdx.map fun (shorthand, k) => (⟨i, j, k⟩, group, variant, shorthand)

section Places

variable {β γ : Type} (list : List β)

theorem flatMap_zipIdx {f : β × ℕ → List γ} {g : β → List γ} (h : ∀ b i, f (b, i) = g b) :
    list.zipIdx.flatMap f = list.flatMap g := by
  have hf : f = g ∘ Prod.fst := funext fun (b, i) => h b i
  rw [hf, Function.comp_def, ← List.flatMap_map, List.zipIdx_map_fst]

theorem map_zipIdx {f : β × ℕ → γ} {g : β → γ} (h : ∀ b i, f (b, i) = g b) :
    list.zipIdx.map f = list.map g := by
  have hf : f = g ∘ Prod.fst := funext fun (b, i) => h b i
  rw [hf, ← List.map_map, List.zipIdx_map_fst]

theorem zipIdx_pairwise : list.zipIdx.Pairwise fun a b => a.2 < b.2 := by
  have h : (list.zipIdx.map Prod.snd).Pairwise (· < ·) :=
    List.zipIdx_map_snd 0 list ▸ List.pairwise_lt_range'
  exact List.pairwise_map.mp h

end Places

/-- The shorthands are listed by their groups, variants and entries. -/
theorem map_placed (config : Config) : config.placed.map Prod.snd = config.entries := by
  rw [placed, entries, List.map_flatMap]
  refine flatMap_zipIdx _ fun (group, variants) i => ?_
  rw [List.map_flatMap]
  refine flatMap_zipIdx _ fun (variant, entries) j => ?_
  rw [List.map_map]
  exact map_zipIdx entries fun shorthand k => rfl

theorem mem_placed_iff {config : Config} {position : Position} {variant : String}
    {shorthand : Shorthand} : (∃ group, (position, group, variant, shorthand) ∈ config.placed) ↔
      config.StandsAt position variant shorthand := by
  obtain ⟨i, j, k⟩ := position
  simp only [placed, StandsAt, List.mem_flatMap, List.mem_map, Prod.exists, Prod.mk.injEq,
    List.mk_mem_zipIdx_iff_getElem?, Position.mk.injEq]
  constructor
  · rintro ⟨_, group, variants, _, hgroup, _, entries, _, hvariant, _, _, hentry, ⟨rfl, rfl, rfl⟩,
      rfl, rfl, rfl⟩
    exact ⟨group, variants, entries, hgroup, hvariant, hentry⟩
  · rintro ⟨group, variants, entries, hgroup, hvariant, hentry⟩
    exact ⟨group, group, variants, i, hgroup, variant, entries, j, hvariant, shorthand, k, hentry,
      ⟨rfl, rfl, rfl⟩, rfl, rfl, rfl⟩

theorem placed_pairwise (config : Config) :
    config.placed.Pairwise fun a b => a.1.Before b.1 := by
  refine List.pairwise_flatMap.mpr ⟨fun (group, i) _ => ?_, (zipIdx_pairwise _).imp ?_⟩
  · refine List.pairwise_flatMap.mpr ⟨fun (variant, j) _ => ?_, (zipIdx_pairwise _).imp ?_⟩
    · exact List.pairwise_map.mpr ((zipIdx_pairwise _).imp fun h => .inr ⟨rfl, .inr ⟨rfl, h⟩⟩)
    · intro first second hless a ha b hb
      obtain ⟨_, _, rfl⟩ := List.mem_map.mp ha
      obtain ⟨_, _, rfl⟩ := List.mem_map.mp hb
      exact .inr ⟨rfl, .inl hless⟩
  · intro first second hless a ha b hb
    obtain ⟨_, _, ha⟩ := List.mem_flatMap.mp ha
    obtain ⟨_, _, rfl⟩ := List.mem_map.mp ha
    obtain ⟨_, _, hb⟩ := List.mem_flatMap.mp hb
    obtain ⟨_, _, rfl⟩ := List.mem_map.mp hb
    exact .inl hless

/-- What holds of the shorthands in the list holds of those at all positions. -/
theorem forall_entries_iff {config : Config} {p : Shorthand → Prop} :
    (∀ entry ∈ config.entries, p entry.2.2) ↔
      ∀ position variant shorthand, config.StandsAt position variant shorthand → p shorthand := by
  constructor
  · intro h position variant shorthand hstands
    obtain ⟨group, hmem⟩ := mem_placed_iff.mpr hstands
    exact h _ (map_placed config ▸ List.mem_map_of_mem hmem)
  · intro h entry hentry
    rw [← map_placed] at hentry
    obtain ⟨⟨position, group, variant, shorthand⟩, hmem, rfl⟩ := List.mem_map.mp hentry
    exact h position variant shorthand (mem_placed_iff.mp ⟨group, hmem⟩)

/-! ## What is given first -/

section First

variable {given : List (Position × String × α)}

/-- A value stands in a list, and no other value of its name has an earlier position. -/
def IsFirst (given : List (Position × String × α)) (position : Position) (name : String)
    (value : α) : Prop :=
  (position, name, value) ∈ given ∧
    ∀ other found, (other, name, found) ∈ given → ¬ other.Before position

variable {position : Position} {name other : String} {value found : α}

/-- The value in front is the first of its name. -/
theorem isFirst_cons_self (h : ∀ entry ∈ given, position.Before entry.1) :
    IsFirst ((position, name, value) :: given) position name value := by
  refine ⟨List.mem_cons_self, fun later found hmem hbefore => ?_⟩
  rcases List.mem_cons.mp hmem with heq | hmem
  · obtain ⟨rfl, -⟩ := Prod.mk.inj heq
    exact hbefore.asymm hbefore
  · exact (h _ hmem).asymm hbefore

theorem isFirst_cons_of_ne (hname : other ≠ name) {later : Position} :
    IsFirst ((position, name, value) :: given) later other found ↔
      IsFirst given later other found := by
  simp [IsFirst, hname]

/-- The value of a name is the one that is given first. -/
theorem get?_eq_some_iff (hordered : given.Pairwise fun a b => a.1.Before b.1) :
    Entries.get? name (given.map Prod.snd) = some value ↔
      ∃ position, IsFirst given position name value := by
  induction given with
  | nil => simp [IsFirst]
  | cons entry given ih =>
    obtain ⟨position, other, found⟩ := entry
    obtain ⟨hbefore, hordered⟩ := List.pairwise_cons.mp hordered
    rw [List.map_cons, Entries.get?]
    by_cases hname : other = name
    · subst hname
      have hfirst : IsFirst ((position, other, found) :: given) position other found :=
        isFirst_cons_self hbefore
      rw [if_pos rfl, Option.some.injEq]
      constructor
      · rintro rfl
        exact ⟨position, hfirst⟩
      · rintro ⟨later, hmem, hnone⟩
        rcases List.mem_cons.mp hmem with heq | hmem
        · exact (Prod.mk.inj (Prod.mk.inj heq).2).2.symm
        · exact absurd (hbefore _ hmem) (hnone position found List.mem_cons_self)
    · rw [if_neg hname, ih hordered]
      exact exists_congr fun _ => (isFirst_cons_of_ne (Ne.symm hname)).symm

/-! ### Names that are new -/

/-- The names that are not among the old ones, each once. -/
def newNames (names old : List String) : List String := (names.removeAll old).eraseDups

theorem mem_newNames {names old : List String} {name : String} :
    name ∈ newNames names old ↔ name ∈ names ∧ name ∉ old := by
  rw [newNames, List.mem_eraseDups, List.removeAll, List.mem_filter]
  simp

theorem newNames_cons_of_mem {names old : List String} (hname : name ∈ old) :
    newNames (name :: names) old = newNames names old := by
  rw [newNames, List.cons_removeAll, if_neg (by simpa using hname), newNames]

theorem newNames_cons_of_not_mem {names old : List String} (hname : name ∉ old) :
    newNames (name :: names) old = name :: newNames names (name :: old) := by
  have hrest : (names.removeAll old).filter (fun n => !n == name) =
      names.removeAll (name :: old) := by
    rw [List.removeAll, List.removeAll, List.filter_filter]
    exact List.filter_congr fun n _ => by simp [Bool.beq_eq_decide_eq]
  rw [newNames, List.cons_removeAll, if_pos (by simpa using hname), List.eraseDups_cons, hrest,
    newNames]

/-- The names stand in the order in which they are given first. -/
def InOrder (given : List (Position × String × α)) (names : List String) : Prop :=
  names.Pairwise fun a b =>
    ∃ p q v w, IsFirst given p a v ∧ IsFirst given q b w ∧ p.Before q

/-- A value in front leaves the order of the other names. -/
theorem InOrder.behind {names : List String} (h : InOrder given names) (hname : name ∉ names) :
    InOrder ((position, name, value) :: given) names := by
  have hne {a : String} (ha : a ∈ names) : a ≠ name := ne_of_mem_of_not_mem ha hname
  refine List.Pairwise.imp_of_mem (fun ha hb ⟨p, q, v, w, hp, hq, hpq⟩ => ?_) h
  exact ⟨p, q, v, w, (isFirst_cons_of_ne (hne ha)).mpr hp,
    (isFirst_cons_of_ne (hne hb)).mpr hq, hpq⟩

/-- Of names that are given the new ones stand in the order of their first positions. -/
theorem inOrder_newNames (hordered : given.Pairwise fun a b => a.1.Before b.1)
    (old : List String) : InOrder given (newNames (Entries.keys (given.map Prod.snd)) old) := by
  induction given generalizing old with
  | nil => exact .nil
  | cons entry given ih =>
    obtain ⟨position, name, value⟩ := entry
    obtain ⟨hbefore, hordered⟩ := List.pairwise_cons.mp hordered
    have hothers (old : List String) (hname : name ∈ old) :
        InOrder ((position, name, value) :: given)
          (newNames (Entries.keys (given.map Prod.snd)) old) :=
      (ih hordered old).behind fun hmem => (mem_newNames.mp hmem).2 hname
    rw [List.map_cons, Entries.keys_cons]
    by_cases hname : name ∈ old
    · rw [newNames_cons_of_mem hname]
      exact hothers old hname
    · rw [newNames_cons_of_not_mem hname]
      refine List.pairwise_cons.mpr ⟨fun other hother => ?_, hothers _ List.mem_cons_self⟩
      obtain ⟨hmem, hold⟩ := mem_newNames.mp hother
      obtain ⟨found, hfound⟩ := Option.isSome_iff_exists.mp ((Entries.get?_isSome _ _).mpr hmem)
      obtain ⟨later, hlater⟩ := (get?_eq_some_iff hordered).mp hfound
      have hne : other ≠ name := fun h => hold (h ▸ List.mem_cons_self)
      exact ⟨position, later, value, found, isFirst_cons_self hbefore,
        (isFirst_cons_of_ne hne).mpr hlater, hbefore _ hlater.1⟩

end First

/-! ## What the shorthands give -/

section Given

variable (part : Shorthand → Option α) (config : Config)

/-- A part of the shorthands that have it, each under its variant, in their order. -/
def derived : Entries α :=
  config.entries.filterMap fun (_, variant, shorthand) => (part shorthand).map (variant, ·)

/-- What the shorthands give, with their positions. -/
def given : List (Position × String × α) :=
  config.placed.filterMap fun (position, _, variant, shorthand) =>
    (part shorthand).map (position, variant, ·)

theorem map_given : (config.given part).map Prod.snd = config.derived part := by
  rw [given, derived, ← map_placed, List.filterMap_map, List.map_filterMap]
  congr 1
  funext ⟨position, group, variant, shorthand⟩
  simp only [Function.comp_apply, Option.map_map]
  rfl

theorem given_pairwise : (config.given part).Pairwise fun a b => a.1.Before b.1 := by
  refine List.pairwise_filterMap.mpr ((placed_pairwise config).imp fun hbefore a ha b hb => ?_)
  obtain ⟨_, _, rfl⟩ := Option.map_eq_some_iff.mp ha
  obtain ⟨_, _, rfl⟩ := Option.map_eq_some_iff.mp hb
  exact hbefore

variable {part config} {position : Position} {name : String} {value : α}

theorem mem_given_iff :
    (position, name, value) ∈ config.given part ↔ config.Gives part position name value := by
  simp only [given, Gives, ← mem_placed_iff, List.mem_filterMap, Option.map_eq_some_iff,
    Prod.exists, Prod.mk.injEq]
  constructor
  · rintro ⟨_, group, _, shorthand, hplaced, _, hpart, rfl, rfl, rfl⟩
    exact ⟨shorthand, ⟨group, hplaced⟩, hpart⟩
  · rintro ⟨shorthand, ⟨group, hplaced⟩, hpart⟩
    exact ⟨position, group, name, shorthand, hplaced, value, hpart, rfl, rfl, rfl⟩

theorem isFirst_given_iff : IsFirst (config.given part) position name value ↔
    config.GivesFirst part position name value := by
  simp only [IsFirst, GivesFirst, mem_given_iff]

/-- A name has the value that is given to it first. -/
theorem get?_derived_eq_some_iff : (config.derived part).get? name = some value ↔
    ∃ position, config.GivesFirst part position name value := by
  rw [← map_given, get?_eq_some_iff (given_pairwise part config)]
  exact exists_congr fun _ => isFirst_given_iff

/-- The names are those that some shorthand gives a value. -/
theorem mem_keys_derived_iff : name ∈ (config.derived part).keys ↔
    ∃ position value, config.Gives part position name value := by
  rw [← map_given, Entries.keys, List.map_map, List.mem_map]
  simp [mem_given_iff]

end Given

end Config

end NestedStyles
