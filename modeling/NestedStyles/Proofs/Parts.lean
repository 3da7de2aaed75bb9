import NestedStyles.Proofs.Results
import NestedStyles.Proofs.Walked
import NestedStyles.Stylesheet

/-!
# Parts of a stylesheet

Every bucket of a tree is compiled in turn. `Collected.parts` lists the buckets in the order of the
stylesheet, and a stylesheet is what the walk found with the stylesheets of its parts behind it
(`StyleTree.compileWithin_succ`). What merging keeps holds of all parts if it holds of everything
that is filed (`Collected.of_mem_parts`).
-/

namespace NestedStyles

/-- A tree that is compiled for a part of a stylesheet. -/
structure Part where
  /-- The header of the block that the part stands in, if it stands in one. -/
  header? : Option String
  /-- The modes in the part are given as automatic ones as well. -/
  auto : Bool
  /-- What is reported has been reported before. -/
  silent : Bool
  tree : StyleTree

namespace Collected

variable (options : Options) (auto : Bool) (found : Collected)

/-- The parts of a stylesheet, in its order. -/
def parts : List Part :=
  found.buckets.layers.map (fun entry => ⟨some entry.1, true, false, entry.2⟩) ++
  found.buckets.containers.map (fun entry => ⟨some entry.1, true, false, entry.2⟩) ++
  found.buckets.media.map (fun entry => ⟨some ("@media " ++ entry.1), true, false, entry.2⟩) ++
  (if found.buckets.modes.isEmpty then [] else [⟨none, false, false, found.buckets.modes⟩]) ++
  (if auto then found.buckets.autoBuckets options else []).map fun entry =>
    ⟨some ("@media " ++ entry.1), false, true, entry.2⟩

end Collected

namespace Part

/-- The stylesheet of a part, in its block and with nothing reported twice. -/
def place (part : Part) (sheet : Stylesheet) : Stylesheet :=
  let sheet :=
    match part.header? with
    | some header => sheet.under header
    | none => sheet
  if part.silent then sheet.silent else sheet

/-- Compiles a part. -/
def compile (options : Options) (steps : Nat) (scope : List String) (part : Part) :
    Except CompileError Stylesheet :=
  (part.tree.compileWithin options steps (scope ++ part.header?.toList) part.auto).map part.place

/-- The CSS of a part, in its block. -/
def placeCss (part : Part) (css : String) : String :=
  match part.header? with
  | some header => if css = "" then "" else Layout.block header css
  | none => css

theorem css_place (part : Part) (sheet : Stylesheet) :
    (part.place sheet).css = part.placeCss sheet.css := by
  unfold place placeCss
  cases part.header? <;> cases part.silent <;> rfl

/-- The CSS that a part compiles to. -/
theorem map_css_compile (options : Options) (steps : Nat) (scope : List String) (part : Part) :
    (part.compile options steps scope).map Stylesheet.css =
      ((part.tree.compileWithin options steps (scope ++ part.header?.toList) part.auto).map
        Stylesheet.css).map part.placeCss := by
  rw [compile]
  cases part.tree.compileWithin options steps (scope ++ part.header?.toList) part.auto with
  | error e => rfl
  | ok sheet => exact congrArg Except.ok (part.css_place sheet)

end Part

namespace StyleTree

variable (options : Options) (steps : Nat) {scope : List String} (auto : Bool) {tree : StyleTree}

/-- A stylesheet is what is found in the tree and then the parts, one after another. -/
theorem compileWithin_succ {found : Collected} (h : tree.collect options scope = .ok found) :
    tree.compileWithin options (steps + 1) scope auto =
      ((found.parts options auto).mapM (Part.compile options steps scope)).map
        (Stylesheet.assemble found) := by
  have hpart (header : String) (inner : Bool) (bucket : StyleTree) :
      Part.compile options steps scope ⟨some header, inner, false, bucket⟩ =
        (bucket.compileWithin options steps (scope ++ [header]) inner >>=
          fun sheet => pure (sheet.under header)) := by
    simp only [Part.compile, Option.toList_some]
    cases bucket.compileWithin options steps (scope ++ [header]) inner <;> rfl
  have hsilent (entries : Entries StyleTree) :
      (entries.mapM fun entry : String × StyleTree => Part.compile options steps scope
          ⟨some ("@media " ++ entry.1), false, true, entry.2⟩) =
        List.map Stylesheet.silent <$> entries.mapM fun entry : String × StyleTree =>
          entry.2.compileWithin options steps (scope ++ ["@media " ++ entry.1]) false >>=
            fun sheet => pure (sheet.under ("@media " ++ entry.1)) := by
    refine Eq.trans ?_ (mapM_map_right _ _ _)
    congr 1
    funext entry
    simp only [Part.compile, Option.toList_some]
    cases entry.2.compileWithin options steps (scope ++ ["@media " ++ entry.1]) false <;> rfl
  have hmodes : (if found.buckets.modes.isEmpty then []
        else [(⟨none, false, false, found.buckets.modes⟩ : Part)]).mapM
          (Part.compile options steps scope) =
      if found.buckets.modes.isEmpty then pure []
      else (found.buckets.modes.compileWithin options steps scope false).map ([·]) := by
    split
    · rfl
    · rw [List.mapM_cons, List.mapM_nil, Part.compile, Option.toList_none, List.append_nil]
      cases found.buckets.modes.compileWithin options steps scope false <;> rfl
  rw [compileWithin, h]
  refine (pure_bind found _).trans ?_
  change _ = Stylesheet.assemble found <$> _
  simp only [Collected.parts, List.mapM_append, List.mapM_map, Function.comp_def, hpart, hsilent,
    hmodes]
  by_cases hempty : found.buckets.modes.isEmpty = true
  · simp [hempty]
  · simp [hempty]

/-- Where there is a stylesheet, the walk and all parts came to an end. -/
theorem exists_of_compileWithin {sheet : Stylesheet}
    (h : tree.compileWithin options (steps + 1) scope auto = .ok sheet) :
    ∃ found sheets, tree.collect options scope = .ok found ∧
      (found.parts options auto).mapM (Part.compile options steps scope) = .ok sheets ∧
      sheet = Stylesheet.assemble found sheets := by
  cases hfound : tree.collect options scope with
  | error e =>
    rw [compileWithin, hfound] at h
    exact absurd h (by simp [bind, Except.bind])
  | ok found =>
    rw [compileWithin_succ options steps auto hfound] at h
    obtain ⟨sheets, hsheets, rfl⟩ := Except.exists_of_map_ok h
    exact ⟨found, sheets, rfl, hsheets, rfl⟩

/-- The CSS of a tree, by the CSS of its parts. -/
theorem css_compileWithin_succ {found : Collected} (h : tree.collect options scope = .ok found) :
    (tree.compileWithin options (steps + 1) scope auto).map Stylesheet.css =
      ((found.parts options auto).mapM fun part : Part =>
        (part.compile options steps scope).map Stylesheet.css).map fun texts =>
          Layout.sections
            ("\n".intercalate found.buckets.statements :: found.rules.css :: texts) := by
  rw [compileWithin_succ options steps auto h, mapM_map_right]
  cases (found.parts options auto).mapM (Part.compile options steps scope) <;> rfl

end StyleTree

namespace Buckets

/-- The bucket of an automatic mode, if the mode has any content. -/
def autoBucket? (options : Options) (buckets : Buckets) (entry : String × AutoMode) :
    Option (String × StyleTree) :=
  ((options.modes.get? entry.1).bind buckets.modeContent?).map fun content =>
    (entry.2.query, [(entry.2.selector, .tree content)])

theorem get?_of_modeContent? {buckets : Buckets} {selector : String} {content : StyleTree}
    (h : buckets.modeContent? selector = some content) :
    buckets.modes.get? selector = some (.tree content) := by
  unfold modeContent? at h
  split at h
  · next inner hget =>
    split at h
    · simp at h
    · rw [hget, Option.some.inj h]
  · simp at h

/-- The buckets of the automatic modes are filed one after another. -/
theorem autoBuckets_eq_foldl (options : Options) (buckets : Buckets) :
    buckets.autoBuckets options =
      ((options.auto.getD []).filterMap (buckets.autoBucket? options)).foldl
        (fun entries bucket => fileUnder bucket.1 [] bucket.2 entries) [] := by
  rw [List.foldl_filterMap, autoBuckets]
  congr 1
  funext found entry
  obtain ⟨mode, auto⟩ := entry
  dsimp only [autoBucket?]
  cases (options.modes.get? mode).bind buckets.modeContent? <;> rfl

/-- Filing under headers of their own leaves a bucket for each. -/
theorem foldl_fileUnder {list : Entries StyleTree}
    (hnew : ∀ bucket ∈ list, StyleTree.merge [] bucket.2 = bucket.2) {start : Entries StyleTree}
    (hstart : ∀ bucket ∈ list, bucket.1 ∉ start.keys)
    (hlist : list.Pairwise fun bucket other => bucket.1 ≠ other.1) :
    list.foldl (fun entries bucket => fileUnder bucket.1 [] bucket.2 entries) start =
      start ++ list := by
  induction list generalizing start with
  | nil => exact (List.append_nil start).symm
  | cons bucket rest ih =>
    obtain ⟨hother, hrest⟩ := List.pairwise_cons.mp hlist
    have hfiled : fileUnder bucket.1 [] bucket.2 start = start ++ [bucket] := by
      rw [fileUnder, Entries.upsert_of_not_mem (hstart bucket (by simp)), Option.getD_none,
        StyleTree.nest_nil, hnew bucket (by simp)]
    rw [List.foldl_cons, hfiled, ih (fun other h => hnew other (by simp [h])) ?_ hrest,
      List.append_assoc, List.singleton_append]
    intro other h hmem
    rw [Entries.keys, List.map_append, List.mem_append] at hmem
    rcases hmem with hmem | hmem
    · exact hstart other (by simp [h]) hmem
    · exact hother other h (List.mem_singleton.mp hmem).symm

/-- Automatic modes with different media queries have a bucket each. -/
theorem autoBuckets_eq {options : Options} (buckets : Buckets)
    (h : ((options.auto.getD []).map (·.2.query)).Nodup) :
    buckets.autoBuckets options =
      (options.auto.getD []).filterMap (buckets.autoBucket? options) := by
  rw [autoBuckets_eq_foldl, foldl_fileUnder (fun bucket hbucket => ?_) (by simp),
    List.nil_append]
  · refine List.Pairwise.filterMap _ (fun entry other hne bucket hbucket _ hother => ?_)
      (List.pairwise_map.mp h)
    obtain ⟨_, -, rfl⟩ := Option.map_eq_some_iff.mp hbucket
    obtain ⟨_, -, rfl⟩ := Option.map_eq_some_iff.mp hother
    exact hne
  · obtain ⟨entry, -, hentry⟩ := List.mem_filterMap.mp hbucket
    obtain ⟨_, -, rfl⟩ := Option.map_eq_some_iff.mp hentry
    rfl

end Buckets

/-! ## What the parts have in common -/

/-- What stands before the block of a bucket. -/
def Table.under (table : Table) (header : String) : String :=
  match table with
  | .layers => header
  | .containers => header
  | .media => "@media " ++ header

section Buckets

variable {p : String → StyleTree → Prop}
  (hmerge : ∀ header a b, a = [] ∨ p header a → p header b → p header (StyleTree.merge a b))

include hmerge

/-- Filing a block that a condition holds of keeps it for all buckets if merging does. -/
theorem of_mem_fileUnder {header : String} {parents : List String} {block : StyleTree}
    (hblock : p header (StyleTree.nest parents block)) {buckets : Entries StyleTree}
    (hbuckets : ∀ entry ∈ buckets, p entry.1 entry.2) :
    ∀ entry ∈ fileUnder header parents block buckets, p entry.1 entry.2 := by
  rintro ⟨key, bucket⟩ hentry
  rcases Entries.mem_upsert hentry with hentry | ⟨rfl, old, rfl, hold⟩
  · exact hbuckets _ hentry
  · refine hmerge _ _ _ ?_ hblock
    cases old with
    | none => exact Or.inl rfl
    | some tree => exact Or.inr (hbuckets _ (hold tree rfl))

/-- What holds of every block that is filed holds of the buckets. -/
theorem of_mem_foldl_fileUnder {β : Type} {header : β → String} {parents : β → List String}
    {block : β → StyleTree} {list : List β}
    (hlist : ∀ b ∈ list, p (header b) (StyleTree.nest (parents b) (block b)))
    {start : Entries StyleTree} (hstart : ∀ entry ∈ start, p entry.1 entry.2) :
    ∀ entry ∈
      list.foldl (fun entries b => fileUnder (header b) (parents b) (block b) entries) start,
      p entry.1 entry.2 := by
  induction list generalizing start with
  | nil => exact hstart
  | cons b rest ih =>
    exact ih (fun other hother => hlist other (by simp [hother]))
      (of_mem_fileUnder hmerge (hlist b (by simp)) hstart)

omit hmerge in
/-- Filing the changed blocks leaves the buckets changed. -/
theorem StyleTree.KeepsMerges.foldl_fileUnder {q : StyleTree → Prop} {f : StyleTree → StyleTree}
    (h : StyleTree.KeepsMerges q f) {β : Type} {header : β → String} {parents : β → List String}
    {block block' : β → StyleTree} {list : List β}
    (hlist : ∀ b ∈ list, q (StyleTree.nest (parents b) (block b)) ∧
      StyleTree.nest (parents b) (block' b) = f (StyleTree.nest (parents b) (block b)))
    {start : Entries StyleTree} (hstart : ∀ entry ∈ start, q entry.2) :
    list.foldl (fun entries b => fileUnder (header b) (parents b) (block' b) entries)
        (start.map fun entry => (entry.1, f entry.2)) =
      (list.foldl (fun entries b => fileUnder (header b) (parents b) (block b) entries)
        start).map fun entry => (entry.1, f entry.2) := by
  induction list generalizing start with
  | nil => rfl
  | cons b rest ih =>
    obtain ⟨hblock, hchanged⟩ := hlist b (by simp)
    have hfiled := @of_mem_fileUnder (fun _ => q)
      (fun _ _ _ ha => h.merge (ha.elim (fun hnil => hnil ▸ h.nil) id)) (header b) _ _ hblock _
      hstart
    rw [List.foldl_cons, List.foldl_cons,
      ← ih (fun other hother => hlist other (by simp [hother])) hfiled]
    refine congrArg (List.foldl _ · _) ?_
    refine Entries.upsert_map _ (fun _ => f) _ _ _ fun old hold => ?_
    rw [hchanged]
    cases old with
    | none => rw [Option.map_none, Option.getD_none, ← h.commutes h.nil hblock, h.change_nil]
    | some tree => exact h.commutes (hstart _ (hold tree rfl)) hblock

/-- The buckets of the automatic modes are made by filing the content of the modes. -/
theorem Buckets.of_mem_autoBuckets {options : Options} {buckets : Buckets}
    (hcontent : ∀ entry ∈ options.auto.getD [], ∀ selector content,
      options.modes.get? entry.1 = some selector →
      buckets.modes.get? selector = some (.tree content) →
      p entry.2.query (StyleTree.nest [entry.2.selector] content)) :
    ∀ entry ∈ buckets.autoBuckets options, p entry.1 entry.2 := by
  rw [autoBuckets_eq_foldl]
  refine @of_mem_foldl_fileUnder p hmerge _ Prod.fst (fun _ => []) Prod.snd _
    (fun bucket hbucket => ?_) [] (by simp)
  obtain ⟨entry, hentry, hfiled⟩ := List.mem_filterMap.mp hbucket
  obtain ⟨content, hfound, rfl⟩ := Option.map_eq_some_iff.mp hfiled
  obtain ⟨selector, hselector, hmode⟩ := Option.bind_eq_some_iff.mp hfound
  exact hcontent entry hentry selector content hselector (get?_of_modeContent? hmode)

/-- A table of buckets is made by filing blocks. -/
theorem StyleTree.of_mem_tableOf {options : Options} {tree : StyleTree} {table : Table}
    (hfiled : ∀ filing ∈ tree.filings options, filing.table = table → p filing.header filing.tree) :
    ∀ entry ∈ tree.tableOf options table, p entry.1 entry.2 := by
  refine @of_mem_foldl_fileUnder p hmerge _ Filing.header Filing.parents Filing.block _
    (fun filing hfiling => ?_) [] (by simp)
  obtain ⟨hmem, htable⟩ := List.mem_filter.mp hfiling
  exact hfiled filing hmem (of_decide_eq_true htable)

end Buckets

namespace Collected

variable {options : Options} {auto : Bool} {tree : StyleTree} {found : Collected}

/-- What merging keeps holds of every part of a tree and its header if it holds of what is filed and
passes from the content of a mode to the content below an automatic selector. -/
theorem of_mem_parts {p : Option String → StyleTree → Prop} (hholds : Holds options tree found)
    (hmerge : ∀ header a b, a = [] ∨ p header a → p header b → p header (StyleTree.merge a b))
    (hfiled : ∀ filing ∈ tree.filings options,
      p (some (filing.table.under filing.header)) filing.tree)
    (hmodes : ∀ filing ∈ tree.modeFilings options, p none filing.tree)
    (hauto : ∀ modes : StyleTree, p none modes → ∀ selector content,
      modes.get? selector = some (.tree content) → ∀ entry ∈ options.auto.getD [],
        p (some ("@media " ++ entry.2.query)) (StyleTree.nest [entry.2.selector] content))
    {part : Part} (h : part ∈ found.parts options auto) : p part.header? part.tree := by
  have htable (table : Table) : ∀ entry ∈ found.buckets.table table,
      p (some (table.under entry.1)) entry.2 := by
    rw [hholds.tables]
    refine @StyleTree.of_mem_tableOf (fun header t => p (some (table.under header)) t)
      (fun header => hmerge _) options tree table fun filing hfiling htable => ?_
    rw [← htable]
    exact hfiled filing hfiling
  have hmode : found.buckets.modes = [] ∨ p none found.buckets.modes := by
    rw [hholds.modes]
    refine StyleTree.mergeAll_of (p := fun t => t = [] ∨ p none t) (Or.inl rfl)
      (fun a b ha hb => ?_) fun t ht => ?_
    · rcases hb with rfl | hb
      · rwa [StyleTree.merge]
      · exact Or.inr (hmerge none a b ha hb)
    · obtain ⟨filing, hfiling, rfl⟩ := List.mem_map.mp ht
      exact Or.inr (hmodes filing hfiling)
  have hbuckets := @Buckets.of_mem_autoBuckets (fun query t => p (some ("@media " ++ query)) t)
    (fun query => hmerge _) options found.buckets fun entry hentry selector content _ hget =>
      hauto _ (hmode.resolve_left fun hnil => by simp [hnil] at hget) selector content hget entry
        hentry
  simp only [parts, List.mem_append, List.mem_map] at h
  rcases h with (((⟨entry, hentry, rfl⟩ | ⟨entry, hentry, rfl⟩) | ⟨entry, hentry, rfl⟩) | h) |
    ⟨entry, hentry, rfl⟩
  · exact htable .layers entry hentry
  · exact htable .containers entry hentry
  · exact htable .media entry hentry
  · split at h
    · simp at h
    · next hempty =>
      rw [List.mem_singleton.mp h]
      exact hmode.resolve_left fun hnil => hempty (by simp [hnil])
  · split at hentry
    · exact hbuckets entry hentry
    · simp at hentry

end Collected

end NestedStyles
