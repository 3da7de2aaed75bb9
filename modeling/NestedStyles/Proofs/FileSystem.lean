import NestedStyles.Build.Disk
import NestedStyles.Proofs.Results
import NestedStyles.Proofs.Names

/-!
# File systems

A build runs on a file system: every path leads to one file, a file has one text, and what is
written to it is its text until it is written again. Whether a path leads anywhere depends on the
directories only (`FileSystem`). A disk in memory is a file system (`Disk.system`).
-/

namespace NestedStyles

/-- A system whose operations act on its files and directories. The laws are about operations that
succeed; one that fails may leave anything behind. -/
structure FileSystem (σ : Type) where
  files : Files (StateM σ)
  /-- Where files stand. -/
  Place : Type
  /-- The place that a path leads to. -/
  place : String → Place
  /-- The text of the file at a place. -/
  text? : σ → Place → Option String
  Directories : Type
  directories : σ → Directories
  /-- A file has one name. -/
  name_eq : ∀ {path other name otherName : String}, place path = place other →
    Path.fileName? path = some name → Path.fileName? other = some otherName → name = otherName
  /-- Reading changes nothing. -/
  read_snd : ∀ path s, ((files.read path).run s).2 = s
  /-- What is read is the text of the file. -/
  text?_of_read : ∀ {path s text}, ((files.read path).run s).1 = .ok text →
    text? s (place path) = some text
  /-- A file with the same text in the same directories is read again. -/
  read_again : ∀ {path s s' text}, ((files.read path).run s).1 = .ok text →
    directories s' = directories s → text? s' (place path) = some text →
    ((files.read path).run s').1 = .ok text
  /-- What is written is the text of the file. -/
  text?_self : ∀ {path text s s'}, (files.write path text).run s = (.ok (), s') →
    text? s' (place path) = some text
  /-- No other file changes. -/
  text?_other : ∀ {path text s s' p}, (files.write path text).run s = (.ok (), s') →
    p ≠ place path → text? s' p = text? s p
  /-- A writing makes no directory. -/
  directories_write : ∀ {path text s s'}, (files.write path text).run s = (.ok (), s') →
    directories s' = directories s
  /-- In the same directories a file can be written again. -/
  write_again : ∀ {path text s s'}, ((files.write path text).run s).1 = .ok () →
    directories s' = directories s → ∀ text, ((files.write path text).run s').1 = .ok ()
  /-- Making directories changes no file. -/
  text?_make : ∀ {path s s'}, (files.makeDirectories path).run s = (.ok (), s') →
    text? s' = text? s

/-! ## A disk in memory -/

namespace Disk

variable {disk disk' : Disk} {path text : String} {start found names : List String}

/-- The place that a path leads to. -/
def place (path : String) : List String := (Path.steps path).foldl step (Disk.start path)

theorem isDirectory_congr (h : disk'.directories = disk.directories) (p : List String) :
    disk'.isDirectory p = disk.isDirectory p := by
  rw [isDirectory, isDirectory, h]

/-- A walk that succeeds takes every step, and it depends on the directories only. -/
theorem walk_eq_ok (h : disk.walk start names = .ok found) : found = names.foldl step start ∧
    ∀ disk' : Disk, disk'.directories = disk.directories → disk'.walk start names = .ok found := by
  induction names generalizing start with
  | nil => exact ⟨(Except.ok.inj h).symm, fun _ _ => h⟩
  | cons name rest ih =>
    unfold walk at h
    split at h
    · next hdirectory =>
      split at h
      · next hshort =>
        obtain ⟨hfound, hsame⟩ := ih h
        refine ⟨hfound, fun disk' hdisk => ?_⟩
        rw [walk, if_pos ((isDirectory_congr hdisk start).trans hdirectory), if_pos hshort]
        exact hsame disk' hdisk
      · simp at h
    · split at h <;> simp at h

theorem locate_eq_ok (h : disk.locate path = .ok found) : found = Disk.place path ∧
    ∀ disk' : Disk, disk'.directories = disk.directories → disk'.locate path = .ok found := by
  unfold locate at h
  obtain ⟨_, hcheck, hwalk⟩ := Except.exists_of_bind_ok h
  obtain ⟨hfound, hsame⟩ := walk_eq_ok hwalk
  refine ⟨hfound, fun disk' hdisk => ?_⟩
  rw [locate, hcheck]
  exact hsame disk' hdisk

theorem read_eq_ok (h : disk.read path = .ok text) : disk.text? (Disk.place path) = some text ∧
    ∀ disk' : Disk, disk'.directories = disk.directories →
      disk'.text? (Disk.place path) = some text → disk'.read path = .ok text := by
  unfold read at h
  obtain ⟨found, hlocate, hrest⟩ := Except.exists_of_bind_ok h
  obtain ⟨rfl, hsame⟩ := locate_eq_ok hlocate
  split at hrest
  · simp at hrest
  next hfile =>
  split at hrest
  · next other hother =>
    split at hrest
    · simp at hrest
    · next hslash =>
      obtain rfl := Except.ok.inj hrest
      refine ⟨hother, fun disk' hdisk htext => ?_⟩
      rw [read, hsame disk' hdisk]
      change (if disk'.isDirectory (Disk.place path) = true then _ else _) = _
      rw [isDirectory_congr hdisk, if_neg hfile, htext]
      exact if_neg hslash
  · simp at hrest

theorem write_eq_ok (h : disk.write path text = .ok disk') :
    disk' = disk.put (Disk.place path) text ∧
      ∀ (other : Disk) (text : String), other.directories = disk.directories →
        other.write path text = .ok (other.put (Disk.place path) text) := by
  unfold write at h
  obtain ⟨found, hlocate, hrest⟩ := Except.exists_of_bind_ok h
  obtain ⟨rfl, hsame⟩ := locate_eq_ok hlocate
  split at hrest
  · simp at hrest
  next hfile =>
  refine ⟨(Except.ok.inj hrest).symm, fun other text hdisk => ?_⟩
  rw [write, hsame other hdisk]
  change (if (other.isDirectory (Disk.place path) || endsInSlash path) = true then _ else _) = _
  rw [isDirectory_congr hdisk, if_neg hfile]

theorem text?_put (p other : List String) :
    (disk.put p text).text? other = if other = p then some text else disk.text? other := by
  rw [text?, put, List.lookup_cons]
  by_cases hother : other = p
  · simp [hother]
  rw [if_neg hother, beq_false_of_ne hother, text?]
  change (disk.files.filter (·.1 != p)).lookup other = disk.files.lookup other
  induction disk.files with
  | nil => rfl
  | cons file rest ih =>
    obtain ⟨q, old⟩ := file
    rw [List.filter_cons]
    by_cases hq : q = p
    · rw [if_neg (by simp [hq]), ih, List.lookup_cons, beq_false_of_ne (hq ▸ hother)]
    · rw [if_pos (by simpa using hq), List.lookup_cons, List.lookup_cons, ih]

theorem files_ensure (h : disk.ensure start names = .ok disk') : disk'.files = disk.files := by
  have hmake (made : Disk) (hmade : disk.make start names = .ok made) :
      made.files = disk.files := by
    obtain ⟨found, -, hrest⟩ := Except.exists_of_bind_ok hmade
    split at hrest
    · simp at hrest
    · exact Except.ok.inj hrest ▸ rfl
  unfold ensure at h
  split at h
  · next made hmade => exact Except.ok.inj h ▸ hmake made hmade
  · split at h
    · split at h
      · exact Except.ok.inj h ▸ rfl
      · simp at h
    · simp at h

/-- Making directories changes no file. -/
theorem files_ensureAll {above : List String} (h : disk.ensureAll start names above = .ok disk') :
    disk'.files = disk.files := by
  induction above generalizing disk disk' names with
  | nil => exact files_ensure h
  | cons name above ih =>
    unfold ensureAll at h
    split at h
    · obtain ⟨next, hnext, hlast⟩ := Except.exists_of_bind_ok h
      exact (files_ensure hlast).trans (ih hnext)
    · exact files_ensure h

/-- The place of a file ends in its name. -/
theorem getLast?_place {name : String} (h : Path.fileName? path = some name) :
    (Disk.place path).getLast? = some name := by
  -- A single point is a step that stays, so only the names of the path count.
  have hsteps (p : List String) :
      (Path.steps path).foldl step p = (Path.names path).foldl step p := by
    rw [Path.names, List.foldl_filter]
    congr 1
    funext p name
    by_cases hname : name = "." <;> simp [step, hname]
  unfold Path.fileName? at h
  split at h
  · simp at h
  next hup =>
  obtain ⟨front, hfront⟩ := List.getLast?_eq_some_iff.mp h
  have hname : name ∈ Path.names path := hfront ▸ by simp
  have hdot : name ≠ "." := by simpa using (List.mem_filter.mp hname).2
  have hne : name ≠ ".." := fun heq => hup (heq ▸ h)
  rw [Disk.place, hsteps, hfront, List.foldl_append, List.foldl_cons, List.foldl_nil, step,
    if_neg hdot, if_neg hne, List.getLast?_append]
  rfl

/-- An operation that succeeds leaves the disk that it makes. -/
theorem change_eq_ok {operation : Disk → Except FileError Disk}
    (h : (change operation).run disk = (.ok (), disk')) : operation disk = .ok disk' := by
  change change operation disk = _ at h
  unfold change at h
  split at h
  · next made hmade => rw [hmade, (Prod.mk.inj h).2]
  · exact absurd (Prod.mk.inj h).1 (by simp)

/-- A disk is a file system. -/
def system : FileSystem Disk where
  files := operations
  Place := List String
  place := Disk.place
  text? := text?
  Directories := List (List String)
  directories := directories
  name_eq hplace hname hother := by
    have hlast := getLast?_place hname
    rw [hplace, getLast?_place hother] at hlast
    exact (Option.some.inj hlast).symm
  read_snd _ _ := rfl
  text?_of_read h := (read_eq_ok h).1
  read_again h hdisk htext := (read_eq_ok h).2 _ hdisk htext
  text?_self h := by
    rw [(write_eq_ok (change_eq_ok h)).1, text?_put, if_pos rfl]
  text?_other h hne := by
    rw [(write_eq_ok (change_eq_ok h)).1, text?_put, if_neg hne]
  directories_write h := by
    rw [(write_eq_ok (change_eq_ok h)).1]
    rfl
  write_again {path text s s'} h hdisk new := by
    obtain ⟨made, hmade⟩ : ∃ made, s.write path text = .ok made :=
      ⟨_, change_eq_ok (Prod.ext h rfl)⟩
    have hagain := (write_eq_ok hmade).2 s' new hdisk
    change (change (·.write path new) s').1 = _
    rw [change, hagain]
  text?_make h := by
    obtain ⟨_, -, hmade⟩ := Except.exists_of_bind_ok (change_eq_ok h)
    funext p
    rw [text?, text?, files_ensureAll hmade]

@[simp] theorem place_system (path : String) : system.place path = Disk.place path := rfl

@[simp] theorem text?_system (disk : Disk) (p : List String) : system.text? disk p = disk.text? p :=
  rfl

end Disk

end NestedStyles
