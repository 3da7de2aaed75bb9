import NestedStyles.Proofs.Mirrors
import NestedStyles.Proofs.WithoutAuto

/-!
# What is dropped for the automatic modes

What the compiler finds in the buckets of the automatic modes it drops, since the same was reported
for the modes. This is so if the selectors of each automatic mode and of its mode are both blank, or
neither is and the first one selects, and if no two selectors have the same alternatives
(`Options.IsPaired`, `StyleTree.reported_of_dropped`). Otherwise a report may be lost
(`StyleTree.dropped_of_blank`): below a blank selector a property has no selector above it that has
one below the selector of the mode.
-/

namespace NestedStyles

open Selector (Apart IsMark Matches alternatives mark marks mark_of_blank mark_of_visible)

/-! ## The selectors of the modes -/

namespace Options

/-- The selectors of an automatic mode and of its mode are both blank, or neither is and the first
one selects. No two modes, and no two automatic modes under the same query, have selectors with the
same alternatives. -/
structure IsPaired (options : Options) : Prop where
  selects : ∀ entry ∈ options.auto.getD [], ∀ selector,
    options.modes.get? entry.1 = some selector →
      Text.isBlank entry.2.selector = true ∧ Text.isBlank selector = true ∨
        Selector.ofPath [entry.2.selector] ≠ [] ∧ alternatives selector ≠ []
  modes : ∀ entry ∈ options.modes, ∀ other ∈ options.modes,
    alternatives entry.2 = alternatives other.2 → entry.2 = other.2
  auto : (options.auto.getD []).Pairwise fun entry other =>
    entry.2.query = other.2.query →
      alternatives entry.2.selector ≠ alternatives other.2.selector

variable (options : Options) (query : String)

/-- A key is the selector of an automatic mode under the query. -/
def IsAuto (key : String) : Prop :=
  ∃ entry ∈ options.auto.getD [], entry.2.query = query ∧ entry.2.selector = key

/-- The selector of an automatic mode under the query and that of its mode, both marked as often. -/
def AutoPair (key key' : String) : Prop :=
  ∃ entry ∈ options.auto.getD [], entry.2.query = query ∧
    ∃ selector, options.modes.get? entry.1 = some selector ∧
      ∃ n, key = marks n entry.2.selector ∧ key' = marks n selector

variable {options query}

theorem AutoPair.mark {key key' : String} (h : options.AutoPair query key key') :
    options.AutoPair query (mark key) (mark key') := by
  obtain ⟨entry, hentry, hquery, selector, hselector, n, rfl, rfl⟩ := h
  exact ⟨entry, hentry, hquery, selector, hselector, n + 1, rfl, rfl⟩

theorem AutoPair.matches (hpaired : options.IsPaired) {key key' : String}
    (h : options.AutoPair query key key') : Matches key key' := by
  obtain ⟨entry, hentry, -, selector, hselector, n, rfl, rfl⟩ := h
  refine Matches.marks ?_ n
  exact (hpaired.selects entry hentry selector hselector).imp id
    fun ⟨hselects, halternatives⟩ => ⟨Selector.selects_of_ofPath hselects, halternatives⟩

theorem IsPaired.apart_isMode (hpaired : options.IsPaired) (hflat : options.IsFlat) :
    Apart (StyleTree.IsMode options) where
  plain := fun _ ⟨_, hname⟩ => hflat.modes _ (Entries.mem_of_get? hname)
  injective := fun _ _ ⟨_, hkey⟩ ⟨_, hother⟩ h =>
    hpaired.modes _ (Entries.mem_of_get? hkey) _ (Entries.mem_of_get? hother)
      (Selector.alternatives_of_mark h)

theorem IsPaired.apart_isAuto (hpaired : options.IsPaired) (hflat : options.IsFlat)
    (query : String) : Apart (options.IsAuto query) where
  plain := by
    rintro key ⟨entry, hentry, -, rfl⟩
    exact hflat.auto entry hentry
  injective := by
    rintro key other ⟨entry, hentry, hquery, rfl⟩ ⟨entry', hentry', hquery', rfl⟩ h
    have hsame := Selector.alternatives_of_mark h
    obtain ⟨front, back, hsplit, hfront, hback⟩ := exists_split hpaired.auto hentry
    rw [hsplit, List.mem_append, List.mem_cons] at hentry'
    rcases hentry' with hentry' | rfl | hentry'
    · exact absurd hsame.symm (hfront _ hentry' (hquery'.trans hquery.symm))
    · rfl
    · exact absurd hsame (hback _ hentry' (hquery.trans hquery'.symm))

end Options

/-! ## The buckets of the automatic modes -/

namespace Buckets

/-- The content that is merged into the bucket of a query, nested in the selectors of the automatic
modes. -/
def autoNested (options : Options) (query : String) (buckets : Buckets) :
    List (List String × StyleTree) :=
  ((options.auto.getD []).filter (·.2.query = query)).filterMap fun entry =>
    ((options.modes.get? entry.1).bind buckets.modeContent?).map fun content =>
      ([entry.2.selector], content)

theorem map_autoBuckets (options : Options) (buckets : Buckets) (query : String) :
    (((options.auto.getD []).filterMap (buckets.autoBucket? options)).filter
      (·.1 = query)).map Prod.snd =
        (buckets.autoNested options query).map fun entry => StyleTree.nest entry.1 entry.2 := by
  rw [autoNested, List.filter_filterMap, List.filterMap_filter, List.map_filterMap,
    List.map_filterMap]
  refine congrArg (List.filterMap · _) (funext fun entry => ?_)
  rw [autoBucket?]
  by_cases hquery : entry.2.query = query
  · cases (options.modes.get? entry.1).bind buckets.modeContent? <;> simp [hquery, StyleTree.nest]
  · cases (options.modes.get? entry.1).bind buckets.modeContent? <;> simp [hquery]

/-- The bucket of a query is what is merged for it. -/
theorem eq_mergeAll_of_mem_autoBuckets {options : Options} {buckets : Buckets} {query : String}
    {bucket : StyleTree} (h : (query, bucket) ∈ buckets.autoBuckets options) :
    bucket = StyleTree.mergeAll ((buckets.autoNested options query).map
      fun entry => StyleTree.nest entry.1 entry.2) := by
  rw [autoBuckets_eq_foldl] at h
  have hget := (Entries.distinct_nil.foldl_upsert Prod.fst
    (fun (b : String × StyleTree) old => StyleTree.merge (old.getD []) b.2) _).get?_of_mem h
  rw [Entries.get?_foldl_upsert, Entries.get?_nil, foldl_some_getD []
    (fun (tree : StyleTree) (b : String × StyleTree) => StyleTree.merge tree b.2) ?_] at hget
  · rw [← Option.some.inj hget, StyleTree.mergeAll, ← map_autoBuckets, List.foldl_map]
  · intro hnil
    rw [hnil] at hget
    exact absurd hget (by simp)

variable {options : Options} {buckets : Buckets} {query : String}

theorem of_mem_autoNested {nested : List String × StyleTree}
    (h : nested ∈ buckets.autoNested options query) :
    ∃ entry ∈ options.auto.getD [], entry.2.query = query ∧ nested.1 = [entry.2.selector] ∧
      ∃ selector, options.modes.get? entry.1 = some selector ∧
        buckets.modes.get? selector = some (.tree nested.2) := by
  obtain ⟨entry, hentry, hnested⟩ := List.mem_filterMap.mp h
  obtain ⟨hentry, hquery⟩ := List.mem_filter.mp hentry
  obtain ⟨content, hcontent, rfl⟩ := Option.map_eq_some_iff.mp hnested
  obtain ⟨selector, hselector, hmode⟩ := Option.bind_eq_some_iff.mp hcontent
  exact ⟨entry, hentry, of_decide_eq_true hquery, rfl, selector, hselector,
    get?_of_modeContent? hmode⟩

/-- Under one query each selector of an automatic mode has the content of one mode. -/
theorem filter_autoNested (hpaired : options.IsPaired) {nested : List String × StyleTree}
    (h : nested ∈ buckets.autoNested options query) :
    (buckets.autoNested options query).filter (·.1 = nested.1) = [nested] := by
  have hapart : (buckets.autoNested options query).Pairwise fun a b => a.1 ≠ b.1 := by
    have hauto : ((options.auto.getD []).filter (·.2.query = query)).Pairwise
        fun entry other => entry.2.selector ≠ other.2.selector := by
      refine (List.pairwise_filter.mpr (hpaired.auto.imp ?_))
      intro entry other hne hentry hother heq
      exact hne ((of_decide_eq_true hentry).trans (of_decide_eq_true hother).symm)
        (congrArg alternatives heq)
    refine List.Pairwise.filterMap _ (fun entry other hne a ha b hb => ?_) hauto
    obtain ⟨_, -, rfl⟩ := Option.map_eq_some_iff.mp ha
    obtain ⟨_, -, rfl⟩ := Option.map_eq_some_iff.mp hb
    simpa using hne
  obtain ⟨front, back, hsplit, hfront, hback⟩ := exists_split hapart h
  rw [hsplit, List.filter_append, List.filter_cons_of_pos (by simp),
    List.filter_eq_nil_iff.mpr fun a ha => by simpa using hfront a ha,
    List.filter_eq_nil_iff.mpr fun a ha => by simpa using (hback a ha).symm]
  rfl

end Buckets

namespace StyleTree

open Options (AutoPair IsAuto)

variable {options : Options} {tree : StyleTree} {scope : List String} {found : Collected}

/-- A tree of modes has the contents of the modes below their selectors. -/
theorem spine_modesOf (options : Options) (tree : StyleTree) :
    Spine (levels (IsMode options) 0) (tree.modesOf options) := by
  have hnested : (tree.modeFilings options).map ModeFiling.tree =
      ((tree.modeFilings options).map fun filing => ([filing.selector], filing.content)).map
        fun entry => nest entry.1 entry.2 := by
    rw [List.map_map]
    rfl
  rw [modesOf, hnested]
  refine spine_mergeAll fun entry hentry => ?_
  obtain ⟨filing, hfiling, rfl⟩ := List.mem_map.mp hentry
  obtain ⟨visit, -, hvisit⟩ := List.mem_filterMap.mp hfiling
  exact ⟨⟨_, Target.mode_of_ofKey? (Visit.modeFiling?_eq_some hvisit).2.2.2.2.2⟩, trivial⟩

/-- The bucket of a query mirrors the modes. -/
theorem mirrors_autoBucket (hflat : options.IsFlat) (hpaired : options.IsPaired) {query : String}
    {bucket : StyleTree} (hholds : Collected.Holds options tree found)
    (h : (query, bucket) ∈ found.buckets.autoBuckets options) :
    Mirrors (options.AutoPair query) (options.IsAuto query) (IsMode options) 0 bucket
      found.buckets.modes := by
  have hmeets : ∀ nested ∈ found.buckets.autoNested options query,
      Meets (levels (options.IsAuto query) 0) nested.1 := by
    intro nested hnested
    obtain ⟨entry, hentry, hquery, hkeys, -⟩ := Buckets.of_mem_autoNested hnested
    rw [hkeys]
    exact ⟨⟨entry, hentry, hquery, rfl⟩, trivial⟩
  have hspine : Spine (levels (options.IsAuto query) 0) bucket := by
    rw [Buckets.eq_mergeAll_of_mem_autoBuckets h]
    exact spine_mergeAll hmeets
  have hmodes : Spine (levels (IsMode options) 0) found.buckets.modes := by
    rw [hholds.modes]
    exact spine_modesOf options tree
  refine ⟨hpaired.apart_isAuto hflat query, hpaired.apart_isMode hflat, hspine, hmodes,
    fun keys key inner hlevel => ?_⟩
  obtain ⟨path, hpath, hmeet, hnode⟩ := (mem_level hspine).mp hlevel
  obtain rfl : keys ++ [key] = path := by rw [hpath, List.nil_append]
  have hlength : ∀ nested ∈ found.buckets.autoNested options query,
      (keys ++ [key]).length = nested.1.length := fun nested hnested => by
    rw [hmeet.length_eq, (hmeets nested hnested).length_eq]
  rw [Buckets.eq_mergeAll_of_mem_autoBuckets h] at hnode
  obtain ⟨nested, hnested, hkeys⟩ := exists_nested_of_node? hlength (by simp) hnode
  rw [node?_mergeAll_nest hlength (by simp), ← hkeys,
    Buckets.filter_autoNested hpaired hnested] at hnode
  obtain rfl : nested.2 = inner := by simpa [mergeNode] using hnode
  obtain ⟨entry, hentry, hquery, hselector, selector, hmode, hcontent⟩ :=
    Buckets.of_mem_autoNested hnested
  obtain ⟨rfl, hkey⟩ := List.append_inj' (hkeys.symm.trans hselector : keys ++ [key] = [] ++ _) rfl
  obtain rfl := List.singleton_inj.mp hkey
  refine ⟨selector, ⟨entry, hentry, hquery, selector, hmode, 0, rfl, rfl⟩, ?_⟩
  refine (mem_level hmodes).mpr ⟨[selector], rfl, ⟨⟨_, hmode⟩, trivial⟩, ?_⟩
  rw [node?_cons, hcontent]
  rfl

end StyleTree

/-! ## What the parts report -/

/-- A part reports what its tree does, unless it is silent. -/
theorem Part.diagnostics_place (part : Part) (sheet : Stylesheet) :
    (part.place sheet).diagnostics = if part.silent then [] else sheet.diagnostics := by
  unfold place
  cases part.header? <;> cases part.silent <;> rfl

namespace Collected

variable {options : Options} {auto : Bool} {found : Collected}

/-- The parts that report anything are the buckets of the tables and the modes. -/
theorem mem_parts {part : Part} (h : part.silent = false) :
    part ∈ found.parts options auto ↔
      (∃ table header bucket, (header, bucket) ∈ found.buckets.table table ∧
        part = ⟨some (table.under header), true, false, bucket⟩) ∨
      found.buckets.modes ≠ [] ∧ part = ⟨none, false, false, found.buckets.modes⟩ := by
  constructor
  · intro hpart
    simp only [parts, List.mem_append, List.mem_map] at hpart
    rcases hpart with
      (((⟨entry, hentry, rfl⟩ | ⟨entry, hentry, rfl⟩) | ⟨entry, hentry, rfl⟩) | hpart) |
        ⟨entry, -, rfl⟩
    · exact Or.inl ⟨.layers, _, _, hentry, rfl⟩
    · exact Or.inl ⟨.containers, _, _, hentry, rfl⟩
    · exact Or.inl ⟨.media, _, _, hentry, rfl⟩
    · split at hpart
      · simp at hpart
      · next hempty => exact Or.inr ⟨by simpa using hempty, List.mem_singleton.mp hpart⟩
    · exact absurd h (by simp)
  · simp only [parts, List.mem_append, List.mem_map]
    rintro (⟨table, header, bucket, hbucket, rfl⟩ | ⟨hmodes, rfl⟩)
    · refine Or.inl (Or.inl ?_)
      cases table with
      | layers => exact Or.inl (Or.inl ⟨_, hbucket, rfl⟩)
      | containers => exact Or.inl (Or.inr ⟨_, hbucket, rfl⟩)
      | media => exact Or.inr ⟨_, hbucket, rfl⟩
    · refine Or.inl (Or.inr ?_)
      rw [if_neg (by simpa using hmodes)]
      exact List.mem_singleton_self _

end Collected

namespace StyleTree

section Runs

variable {options : Options} {tree : StyleTree} {scope : List String} {steps : Nat} {auto : Bool}
  {sheet : Stylesheet}

/-- What is reported is reported on the walk or by a part. -/
theorem exists_diagnostics_compileWithin
    (h : tree.compileWithin options (steps + 1) scope auto = .ok sheet) :
    ∃ found, tree.collect options scope = .ok found ∧
      (∀ part ∈ found.parts options auto, ∃ inner, part.tree.compileWithin options steps
        (scope ++ part.header?.toList) part.auto = .ok inner) ∧
      ∀ diagnostic, diagnostic ∈ sheet.diagnostics ↔ diagnostic ∈ found.diagnostics ∨
        ∃ part ∈ found.parts options auto, part.silent = false ∧ ∃ inner,
          part.tree.compileWithin options steps (scope ++ part.header?.toList) part.auto =
            .ok inner ∧ diagnostic ∈ inner.diagnostics := by
  obtain ⟨found, sheets, hfound, hsheets, rfl⟩ := exists_of_compileWithin options steps auto h
  refine ⟨found, hfound, fun part hpart => ?_, fun diagnostic => ?_⟩
  · obtain ⟨placed, -, hcompile⟩ := exists_of_mapM_ok hsheets hpart
    obtain ⟨inner, hinner, -⟩ := Except.exists_of_map_ok hcompile
    exact ⟨inner, hinner⟩
  rw [show (Stylesheet.assemble found sheets).diagnostics =
    found.diagnostics ++ sheets.flatMap Stylesheet.diagnostics from rfl, List.mem_append,
    List.mem_flatMap]
  refine or_congr_right ⟨?_, ?_⟩
  · rintro ⟨placed, hplaced, hmem⟩
    obtain ⟨part, hpart, hcompile⟩ := exists_of_mem_mapM hsheets hplaced
    obtain ⟨inner, hinner, rfl⟩ := Except.exists_of_map_ok hcompile
    rw [Part.diagnostics_place] at hmem
    cases hsilent : part.silent with
    | true => simp [hsilent] at hmem
    | false => exact ⟨part, hpart, hsilent, inner, hinner, by simpa [hsilent] using hmem⟩
  · rintro ⟨part, hpart, hsilent, inner, hinner, hmem⟩
    obtain ⟨placed, hplaced, hcompile⟩ := exists_of_mapM_ok hsheets hpart
    refine ⟨placed, hplaced, ?_⟩
    rw [Part.compile, hinner] at hcompile
    rw [← Except.ok.inj hcompile, Part.diagnostics_place]
    simpa [hsilent] using hmem

end Runs

section Mirrored

variable {options : Options} {pair : String → String → Prop}
  (hmark : ∀ key key', pair key key' → pair (Selector.mark key) (Selector.mark key'))
  (hmatches : ∀ key key', pair key key' → Matches key key') (hmode : Apart (IsMode options))

include hmark hmatches hmode

/-- What is reported below a key of a pair is reported below the other key of the pair, if the trees
mirror each other. -/
theorem Mirrors.reported {c c' : String → Prop} {depth : Nat} {tree other : StyleTree}
    (h : Mirrors pair c c' depth tree other) {steps : Nat} {scope scope' : List String}
    {auto : Bool} {sheet sheet' : Stylesheet}
    (hsheet : tree.compileWithin options steps scope auto = .ok sheet)
    (hsheet' : other.compileWithin options steps scope' auto = .ok sheet')
    {diagnostic : Diagnostic} (hmem : diagnostic ∈ sheet.diagnostics) :
    ∃ headers keys key key' rest, pair key key' ∧
      diagnostic.path = scope ++ (headers ++ (keys ++ key :: rest)) ∧
      (rest ≠ [] → ⟨scope' ++ (headers ++ (keys ++ key' :: rest)), diagnostic.problem⟩ ∈
        sheet'.diagnostics) := by
  induction steps generalizing c c' depth tree other scope scope' auto sheet sheet' with
  | zero => exact absurd hsheet (by simp [compileWithin])
  | succ steps ih =>
    obtain ⟨found, hfound, -, hreports⟩ := exists_diagnostics_compileWithin hsheet
    obtain ⟨found', hfound', hcompile', hreports'⟩ := exists_diagnostics_compileWithin hsheet'
    rcases (hreports diagnostic).mp hmem with hmem | ⟨part, hpart, hsilent, inner, hinner, hmem⟩
    · obtain ⟨keys, key, key', rest, hpair, hpath, hreport⟩ :=
        h.reports hmatches hfound hfound' hmem
      exact ⟨[], keys, key, key', rest, hpair, hpath, fun hrest =>
        (hreports' _).mpr (Or.inl (hreport hrest))⟩
    · -- The part of the one tree has its mirror among the parts of the other one.
      obtain ⟨part', hpart', hsilent', hheader, hauto, b, b', depth', hmirrors⟩ :
          ∃ part' ∈ found'.parts options auto, part'.silent = false ∧
            part'.header? = part.header? ∧ part'.auto = part.auto ∧
            ∃ b b' depth', Mirrors pair b b' depth' part.tree part'.tree := by
        rcases (Collected.mem_parts hsilent).mp hpart with
          ⟨table, header, bucket, hbucket, rfl⟩ | ⟨hne, rfl⟩
        · obtain ⟨bucket', hbucket', hmirrors⟩ := h.table hfound hfound' hbucket
          exact ⟨⟨some (table.under header), true, false, bucket'⟩,
            (Collected.mem_parts rfl).mpr (Or.inl ⟨table, header, bucket', hbucket', rfl⟩), rfl,
            rfl, rfl, c, c', depth, hmirrors⟩
        · have hmodes := (Collected.holds_collect hfound).modes
          have hmodes' := (Collected.holds_collect hfound').modes
          have hne' : found'.buckets.modes ≠ [] := by
            rw [hmodes']
            exact h.modesOf_ne_nil (hmodes ▸ hne)
          refine ⟨⟨none, false, false, found'.buckets.modes⟩,
            (Collected.mem_parts rfl).mpr (Or.inr ⟨hne', rfl⟩), rfl, rfl, rfl, IsMode options,
            IsMode options, depth + 1, ?_⟩
          dsimp only
          rw [hmodes, hmodes']
          exact h.modesOf hmark hmatches hmode
      obtain ⟨inner', hinner'⟩ := hcompile' part' hpart'
      have hsame := hinner'
      rw [hheader, hauto] at hsame
      obtain ⟨headers, keys, key, key', rest, hpair, hpath, hreport⟩ :=
        ih hmirrors hinner hsame hmem
      refine ⟨part.header?.toList ++ headers, keys, key, key', rest, hpair, by simpa using hpath,
        fun hrest => ?_⟩
      refine (hreports' _).mpr (Or.inr ⟨part', hpart', hsilent', inner', hinner', ?_⟩)
      simpa using hreport hrest

end Mirrored

/-- What is found below the selector of an automatic mode, and dropped, is reported below the
selector of the mode. -/
theorem reported_of_dropped {options : Options} (hflat : options.IsFlat)
    (hpaired : options.IsPaired) {tree : StyleTree}
    (hfinite : ∀ n ∈ tree.numbers, n.isFinite = true) {steps : Nat}
    (hsteps : tree.atDepth < steps + 1) (scope : List String) :
    ∃ found sheet, tree.collect options scope = .ok found ∧
      tree.compileWithin options (steps + 1) scope true = .ok sheet ∧
      ∀ query bucket, (query, bucket) ∈ found.buckets.autoBuckets options →
        ∃ dropped, bucket.compileWithin options steps (scope ++ ["@media " ++ query]) false =
            .ok dropped ∧
          ∀ diagnostic ∈ dropped.diagnostics, ∃ entry ∈ options.auto.getD [],
            entry.2.query = query ∧ ∃ selector, options.modes.get? entry.1 = some selector ∧
              ∃ n headers keys rest,
                diagnostic.path = scope ++ ["@media " ++ query] ++
                  (headers ++ (keys ++ marks n entry.2.selector :: rest)) ∧
                (rest ≠ [] → ⟨scope ++ (headers ++ (keys ++ marks n selector :: rest)),
                  diagnostic.problem⟩ ∈ sheet.diagnostics) := by
  obtain ⟨sheet, hsheet⟩ := exists_compileWithin hflat hfinite hsteps scope true
  obtain ⟨found, hfound, hcompile, hreports⟩ := exists_diagnostics_compileWithin hsheet
  refine ⟨found, sheet, hfound, hsheet, fun query bucket hbucket => ?_⟩
  have hpart : ⟨some ("@media " ++ query), false, true, bucket⟩ ∈ found.parts options true := by
    rw [Collected.parts_eq_append, List.mem_append]
    exact Or.inr (List.mem_map.mpr ⟨_, hbucket, rfl⟩)
  obtain ⟨dropped, hdropped⟩ := hcompile _ hpart
  refine ⟨dropped, hdropped, fun diagnostic hmem => ?_⟩
  have hmirrors :=
    mirrors_autoBucket hflat hpaired (Collected.holds_collect hfound) hbucket
  have hmodes : found.buckets.modes ≠ [] :=
    Buckets.of_mem_autoBuckets (p := fun _ _ => found.buckets.modes ≠ []) (fun _ _ _ _ h => h)
      (fun _ _ _ _ _ hget hnil => by simp [hnil] at hget) _ hbucket
  have hmodesPart : ⟨none, false, false, found.buckets.modes⟩ ∈ found.parts options true :=
    (Collected.mem_parts rfl).mpr (Or.inr ⟨hmodes, rfl⟩)
  obtain ⟨inner, hinner⟩ := hcompile _ hmodesPart
  obtain ⟨headers, keys, key, key', rest, hpair, hpath, hreport⟩ :=
    hmirrors.reported (fun key key' (h : options.AutoPair query key key') => h.mark)
      (fun _ _ h => h.matches hpaired)
      (hpaired.apart_isMode hflat) hdropped hinner hmem
  obtain ⟨entry, hentry, hquery, selector, hselector, n, rfl, rfl⟩ := hpair
  refine ⟨entry, hentry, hquery, selector, hselector, n, headers, keys, rest, hpath,
    fun hrest => (hreports _).mpr (Or.inr ⟨_, hmodesPart, rfl, inner, hinner, ?_⟩)⟩
  simpa using hreport hrest

/-- A reference in a block of the mode names nothing, and the block is nested in a layer. -/
theorem reported_of_dropped_layer :
    ∃ sheet dropped, compileWithin
        ((Options.empty.withMode "dark" ".dark").withAuto "dark" ":root" "(dark)") 5 [] true
        [("@dark", .tree [("@layer a", .tree [("p", .tree [("@nope", .tree [])])])])] =
          .ok sheet ∧
      compileWithin ((Options.empty.withMode "dark" ".dark").withAuto "dark" ":root" "(dark)") 4
        ["@media (dark)"] false
        [(":root", .tree [("@layer a", .tree [("& p", .tree [("@nope", .tree [])])])])] =
          .ok dropped ∧
      dropped.diagnostics =
        [⟨["@media (dark)", "@layer a", ":root", "& p", "@nope"], .unresolved "@nope"⟩] ∧
      ∀ diagnostic ∈ dropped.diagnostics, ∃ entry ∈ [("dark", AutoMode.mk ":root" "(dark)")],
        entry.2.query = "(dark)" ∧ ∃ selector, Entries.get? entry.1 [("dark", ".dark")] =
          some selector ∧ ∃ n headers keys rest,
            diagnostic.path = [] ++ ["@media " ++ "(dark)"] ++
              (headers ++ (keys ++ marks n entry.2.selector :: rest)) ∧
            (rest ≠ [] → ⟨[] ++ (headers ++ (keys ++ marks n selector :: rest)),
              diagnostic.problem⟩ ∈ sheet.diagnostics) := by
  obtain ⟨found, sheet, hfound, hsheet, hdropped⟩ := @reported_of_dropped
    ((Options.empty.withMode "dark" ".dark").withAuto "dark" ":root" "(dark)")
    ⟨by decide, by decide⟩ ⟨by decide, by decide, by decide⟩
    [("@dark", .tree [("@layer a", .tree [("p", .tree [("@nope", .tree [])])])])] (by decide)
    4 (by decide) []
  obtain rfl := Except.ok.inj hfound
  obtain ⟨dropped, hcompile, hreported⟩ := hdropped "(dark)" _ List.mem_cons_self
  obtain rfl := Except.ok.inj hcompile
  exact ⟨sheet, _, hsheet, rfl, by decide +kernel, hreported⟩

/-- Below a blank selector of an automatic mode a property has no selector above it. This is not
reported for the mode, where it has one. -/
theorem dropped_of_blank :
    ¬ ∀ (options : Options) (tree : StyleTree) (steps : Nat) (found : Collected)
      (sheet dropped : Stylesheet) (query : String) (bucket : StyleTree), options.IsFlat →
      (∀ n ∈ tree.numbers, n.isFinite = true) → tree.collect options [] = .ok found →
      tree.compileWithin options (steps + 1) [] true = .ok sheet →
      (query, bucket) ∈ found.buckets.autoBuckets options →
      bucket.compileWithin options steps ["@media " ++ query] false = .ok dropped →
      ∀ diagnostic ∈ dropped.diagnostics, ∃ reported ∈ sheet.diagnostics,
        reported.problem = diagnostic.problem := by
  intro h
  obtain ⟨reported, hreported, -⟩ := h
    ((Options.empty.withMode "dark" ".dark").withAuto "dark" "" "(dark)")
    [("@dark", .tree [("color", .leaf (.text "white"))])] 3 _ _ _ "(dark)"
    [("", .tree [("color", .leaf (.text "white"))])] ⟨by decide, by decide⟩ (by decide) rfl rfl
    List.mem_cons_self rfl ⟨["@media (dark)", "", "color"], .orphan "color"⟩ (by decide +kernel)
  exact List.not_mem_nil hreported

end StyleTree

end NestedStyles
