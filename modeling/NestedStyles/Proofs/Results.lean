import Mathlib.Data.List.Forall2

/-!
# Results of runs that may fail

A row of runs fails with the error of one of them, and otherwise its results are those of its runs
in order. What changes the results one by one may change them at the end.
-/

namespace NestedStyles

/-! ## One run -/

/-- What has a result when it is changed has one before. -/
theorem Except.exists_of_map_ok {ε α β : Type} {result : Except ε α} {f : α → β} {b : β}
    (h : result.map f = .ok b) : ∃ a, result = .ok a ∧ f a = b := by
  cases result with
  | error e => exact absurd h (by simp [Except.map])
  | ok a => exact ⟨a, rfl, Except.ok.inj h⟩

/-- What fails when its result is changed fails before. -/
theorem Except.eq_error_of_map {ε α β : Type} {result : Except ε α} {f : α → β} {e : ε}
    (h : result.map f = .error e) : result = .error e := by
  cases result with
  | error other => exact congrArg Except.error (Except.error.inj h)
  | ok a => exact absurd h (by simp [Except.map])

/-- What has a result has one before each step. -/
theorem Except.exists_of_bind_ok {ε α β : Type} {result : Except ε α} {next : α → Except ε β}
    {b : β} (h : result >>= next = .ok b) : ∃ a, result = .ok a ∧ next a = .ok b := by
  cases result with
  | error e => exact absurd h (by simp [bind, Except.bind])
  | ok a => exact ⟨a, rfl, h⟩

/-- What holds of every result with the given view holds of the result that has it. -/
theorem Except.exists_of_toOption_map {ε α β : Type} {result : Except ε α} {f : α → β} {b : β}
    {p : α → Prop} (h : (result.map f).toOption = some b)
    (hp : ∀ a, result = .ok a → f a = b → p a) : ∃ a, result = .ok a ∧ f a = b ∧ p a := by
  cases result with
  | error e => exact absurd h (by simp [Except.map, Except.toOption])
  | ok a => exact ⟨a, rfl, Option.some.inj h, hp a rfl (Option.some.inj h)⟩

/-! ## A row of runs -/

section Row

variable {ε α β : Type}

theorem mapM_congr {f g : α → Except ε β} {list : List α}
    (h : ∀ a ∈ list, f a = g a) : list.mapM f = list.mapM g := by
  induction list with
  | nil => rfl
  | cons a rest ih =>
    rw [List.mapM_cons, List.mapM_cons, h a (by simp), ih fun b hb => h b (by simp [hb])]

/-- Results may be changed one by one or all at the end. -/
theorem mapM_map_right {γ : Type} (f : α → Except ε β) (g : β → γ) (list : List α) :
    (list.mapM fun a => (f a).map g) = (list.mapM f).map (List.map g) := by
  induction list with
  | nil => rfl
  | cons a rest ih =>
    rw [List.mapM_cons, List.mapM_cons, ih]
    cases f a with
    | error e => rfl
    | ok b => cases rest.mapM f <;> rfl

/-- The results of a row are those of its runs, one by one. -/
theorem forall₂_of_mapM_ok {f : α → Except ε β} {list : List α} {results : List β}
    (h : list.mapM f = .ok results) : List.Forall₂ (fun a b => f a = .ok b) list results := by
  induction list generalizing results with
  | nil =>
    obtain rfl := Except.ok.inj h
    exact .nil
  | cons a rest ih =>
    rw [List.mapM_cons] at h
    obtain ⟨b, hfirst, h⟩ := Except.exists_of_bind_ok h
    obtain ⟨others, hrest, rfl⟩ :=
      @Except.exists_of_map_ok _ _ _ (rest.mapM f) (b :: ·) results h
    exact .cons hfirst (ih hrest)

/-- What is among the results of a row is the result of one of the row. -/
theorem exists_of_mem_mapM {f : α → Except ε β} {list : List α} {results : List β}
    (h : list.mapM f = .ok results) {b : β} (hb : b ∈ results) : ∃ a ∈ list, f a = .ok b := by
  have hall := forall₂_of_mapM_ok h
  clear h
  induction hall with
  | nil => simp at hb
  | @cons a _ _ _ hfirst _ ih =>
    rcases List.mem_cons.mp hb with rfl | hb
    · exact ⟨a, by simp, hfirst⟩
    · obtain ⟨other, hother, hresult⟩ := ih hb
      exact ⟨other, by simp [hother], hresult⟩

/-- Each of a row has its result among the results. -/
theorem exists_of_mapM_ok {f : α → Except ε β} {list : List α} {results : List β}
    (h : list.mapM f = .ok results) {a : α} (ha : a ∈ list) : ∃ b ∈ results, f a = .ok b := by
  have hall := forall₂_of_mapM_ok h
  clear h
  induction hall with
  | nil => simp at ha
  | @cons _ b _ _ hfirst _ ih =>
    rcases List.mem_cons.mp ha with rfl | ha
    · exact ⟨b, by simp, hfirst⟩
    · obtain ⟨other, hother, hresult⟩ := ih ha
      exact ⟨other, by simp [hother], hresult⟩

/-- The results of two rows in a row are those of the first one and then those of the second. -/
theorem exists_of_mapM_append {f : α → Except ε β} {front back : List α} {results : List β}
    (h : (front ++ back).mapM f = .ok results) : ∃ first second, front.mapM f = .ok first ∧
      back.mapM f = .ok second ∧ results = first ++ second := by
  rw [List.mapM_append] at h
  obtain ⟨first, hfirst, h⟩ := Except.exists_of_bind_ok h
  obtain ⟨second, hsecond, h⟩ := Except.exists_of_bind_ok h
  exact ⟨first, second, hfirst, hsecond, (Except.ok.inj h).symm⟩

/-- A row fails with the error of one of its runs. -/
theorem exists_of_mapM_error {f : α → Except ε β} {list : List α} {e : ε}
    (h : list.mapM f = .error e) : ∃ a ∈ list, f a = .error e := by
  induction list with
  | nil => exact absurd h (by simp [pure, Except.pure])
  | cons a rest ih =>
    rw [List.mapM_cons] at h
    cases hfirst : f a with
    | error other =>
      rw [hfirst] at h
      obtain rfl : other = e := Except.error.inj h
      exact ⟨a, by simp, hfirst⟩
    | ok first =>
      rw [hfirst] at h
      cases hrest : rest.mapM f with
      | error other =>
        rw [hrest] at h
        obtain rfl : other = e := Except.error.inj h
        obtain ⟨b, hb, hfails⟩ := ih hrest
        exact ⟨b, by simp [hb], hfails⟩
      | ok others =>
        rw [hrest] at h
        exact absurd h (by simp [bind, Except.bind, pure, Except.pure])

end Row

/-- Of a list of texts those that are left out are empty. -/
theorem mapM_filterMap_of_empty {ε α : Type} {f : α → Except ε String} {left : α → Option α}
    {list : List α} (hkept : ∀ a ∈ list, ∀ b, left a = some b → f b = f a)
    (hdropped : ∀ a ∈ list, left a = none → f a = .ok "") :
    ((list.filterMap left).mapM f).map (List.filter (· != "")) =
      (list.mapM f).map (List.filter (· != "")) := by
  induction list with
  | nil => rfl
  | cons a rest ih =>
    have ih := ih (fun b hb => hkept b (by simp [hb])) fun b hb => hdropped b (by simp [hb])
    rw [List.filterMap_cons, List.mapM_cons]
    cases hleft : left a with
    | none =>
      rw [hdropped a (by simp) hleft, ih]
      cases rest.mapM f <;> rfl
    | some b =>
      rw [List.mapM_cons, hkept a (by simp) b hleft]
      cases f a with
      | error e => rfl
      | ok text =>
        have hcons (texts : Except ε (List String)) :
            (texts >>= fun texts => pure (text :: texts)).map (List.filter (· != "")) =
              (texts.map (List.filter (· != ""))).map ([text].filter (· != "") ++ ·) := by
          cases texts with
          | error e => rfl
          | ok texts => exact congrArg Except.ok (List.filter_append [text] texts)
        exact (hcons _).trans ((congrArg _ ih).trans (hcons _).symm)

end NestedStyles
