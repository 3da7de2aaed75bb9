import NestedStyles.Proofs.Below
import NestedStyles.Proofs.Marks
import NestedStyles.Proofs.Passing

/-!
# Trees that mirror trees of modes

The bucket of an automatic mode has the content of the mode below another selector. So has every
tree that is filed from it: at the ends of its spine stands what stands at the ends of the tree that
is filed from the modes, and the paths differ in their last key only (`StyleTree.Mirrors`). A walk
files blocks for the same headers in both trees, and the buckets mirror each other again
(`StyleTree.Mirrors.table`), as the trees of the modes do (`StyleTree.Mirrors.modes`); what it
reports in the first tree it reports in the second one (`StyleTree.Mirrors.reports`).
-/

namespace NestedStyles

open Selector (Apart IsMark Matches mark markFirst markFirst_cons mark_of_blank mark_of_visible)

/-! ## The keys above the content of a mode -/

namespace StyleTree

/-- The conditions on the keys down to the content of a mode: the selector, and keys that have been
marked. -/
def levels (c : String → Prop) (depth : Nat) : List (String → Prop) :=
  c :: List.replicate depth IsMark

theorem plain_levels {c : String → Prop} (hc : Apart c) (depth : Nat) :
    ∀ c' ∈ levels c depth, ∀ key, c' key → Text.isAtKey key = false := by
  intro c' h
  rcases List.mem_cons.mp h with rfl | h
  · exact hc.plain
  · rw [List.eq_of_mem_replicate h]
    exact Selector.apart_isMark.plain

theorem apart_levels {c : String → Prop} (hc : Apart c) (depth : Nat) :
    ∀ c' ∈ levels c depth, Apart c' := by
  intro c' h
  rcases List.mem_cons.mp h with rfl | h
  · exact hc
  · rw [List.eq_of_mem_replicate h]
    exact Selector.apart_isMark

/-- Marking the first key that is not blank tells paths apart. -/
theorem markFirst_injective {cs : List (String → Prop)} (hcs : ∀ c ∈ cs, Apart c)
    {keys others : List String} (hkeys : Meets cs keys) (hothers : Meets cs others)
    (h : markFirst keys = markFirst others) : keys = others := by
  induction cs generalizing keys others with
  | nil =>
    obtain _ | ⟨key, keys⟩ := keys
    · obtain _ | ⟨other, others⟩ := others
      · rfl
      · exact hothers.elim
    · exact hkeys.elim
  | cons c cs ih =>
    obtain _ | ⟨key, keys⟩ := keys
    · exact hkeys.elim
    obtain _ | ⟨other, others⟩ := others
    · exact hothers.elim
    have hinjective := (hcs c List.mem_cons_self).injective key other hkeys.1 hothers.1
    rw [markFirst_cons, markFirst_cons] at h
    cases hkey : Text.isBlank key with
    | true =>
      cases hother : Text.isBlank other with
      | true =>
        rw [if_pos hkey, if_pos hother, List.cons.injEq] at h
        rw [h.1, ih (fun c' hc' => hcs c' (List.mem_cons_of_mem _ hc')) hkeys.2 hothers.2 h.2]
      | false =>
        rw [if_pos hkey, if_neg (by simp [hother]), List.cons.injEq] at h
        rw [mark_of_blank hkey, mark_of_visible hother] at hinjective
        rw [hinjective h.1, hother] at hkey
        exact absurd hkey (by simp)
    | false =>
      cases hother : Text.isBlank other with
      | true =>
        rw [if_neg (by simp [hkey]), if_pos hother, List.cons.injEq] at h
        rw [mark_of_visible hkey, mark_of_blank hother] at hinjective
        rw [hinjective h.1, hother] at hkey
        exact absurd hkey (by simp)
      | false =>
        rw [if_neg (by simp [hkey]), if_neg (by simp [hother]), List.cons.injEq] at h
        rw [mark_of_visible hkey, mark_of_visible hother] at hinjective
        rw [hinjective h.1, h.2]

/-- With its first key marked that is not blank, a path has marked keys only. -/
theorem meets_markFirst {c : String → Prop} {depth : Nat} {keys : List String}
    (h : Meets (levels c depth) keys) :
    Meets (List.replicate (depth + 1) IsMark) (markFirst keys) := by
  have htail : ∀ (depth : Nat) (keys : List String), Meets (List.replicate depth IsMark) keys →
      Meets (List.replicate depth IsMark) (markFirst keys) := by
    intro depth
    induction depth with
    | zero =>
      intro keys h
      obtain _ | ⟨key, keys⟩ := keys
      · exact h
      · exact h.elim
    | succ depth ih =>
      intro keys h
      obtain _ | ⟨key, keys⟩ := keys
      · exact h.elim
      rw [markFirst_cons]
      split
      · exact ⟨h.1, ih keys h.2⟩
      · exact ⟨Or.inr ⟨key, rfl⟩, h.2⟩
  obtain _ | ⟨key, keys⟩ := keys
  · exact h.elim
  rw [markFirst_cons]
  split
  · next hblank => exact ⟨Or.inl hblank, htail depth keys h.2⟩
  · exact ⟨Or.inr ⟨key, rfl⟩, h.2⟩

theorem markFirst_concat (keys : List String) (key : String) :
    markFirst (keys ++ [key]) =
      markFirst keys ++ [if keys.all Text.isBlank then mark key else key] := by
  induction keys with
  | nil =>
    rw [List.nil_append, markFirst_cons]
    cases hkey : Text.isBlank key with
    | true => simp [mark_of_blank hkey, Selector.markFirst]
    | false => simp [mark_of_visible hkey, Selector.markFirst]
  | cons first keys ih =>
    rw [List.cons_append, markFirst_cons, markFirst_cons, ih]
    cases hfirst : Text.isBlank first <;> simp [hfirst]

theorem descendantTree_cons (key : String) (parents : List String) (block : StyleTree) :
    Buckets.descendantTree (key :: parents) block =
      if Text.isBlank key then nest [key] (Buckets.descendantTree parents block)
      else nest (Selector.asDescendant key :: parents) block := by
  cases hkey : Text.isBlank key with
  | true =>
    rw [Buckets.descendantTree, Buckets.descendantTree, List.dropWhile_cons_of_pos hkey,
      List.takeWhile_cons_of_pos hkey]
    cases parents.dropWhile Text.isBlank <;> rfl
  | false =>
    have hneg : ¬ Text.isBlank key = true := by simp [hkey]
    rw [Buckets.descendantTree, List.dropWhile_cons_of_neg hneg, List.takeWhile_cons_of_neg hneg]
    rfl

end StyleTree

/-- What a filing leaves below the keys of a path, given whether these are all blank. -/
def ModeFiling.inner (blank : Bool) (filing : ModeFiling) : StyleTree :=
  if blank then Buckets.descendantTree filing.parents filing.block
  else StyleTree.nest filing.parents filing.block

/-- A block of a mode below a path is nested in the selector of the mode and in the path, with the
first key marked that is not blank. -/
theorem ModeFiling.tree_below (path : List String) (filing : ModeFiling) :
    (filing.below path).tree =
      StyleTree.nest (filing.selector :: markFirst path)
        (filing.inner (path.all Text.isBlank)) := by
  have hcontent : Buckets.descendantTree (path ++ filing.parents) filing.block =
      StyleTree.nest (markFirst path) (filing.inner (path.all Text.isBlank)) := by
    induction path with
    | nil => rfl
    | cons key path ih =>
      rw [List.cons_append, StyleTree.descendantTree_cons, ih, markFirst_cons, List.all_cons]
      cases Text.isBlank key with
      | true => rfl
      | false => exact StyleTree.nest_append (Selector.asDescendant key :: path) _ _
  rw [ModeFiling.tree, ModeFiling.content]
  exact congrArg (StyleTree.nest [filing.selector]) hcontent

namespace StyleTree

/-- At the ends of its spine the first tree has what the second one has, at paths that are the same
but for the last keys, and these are a pair. -/
structure Mirrors (pair : String → String → Prop) (c c' : String → Prop) (depth : Nat)
    (tree other : StyleTree) : Prop where
  apart : Apart c
  apart' : Apart c'
  spine : Spine (levels c depth) tree
  spine' : Spine (levels c' depth) other
  ends : ∀ keys key inner, (keys ++ [key], inner) ∈ level (levels c depth).length [] tree →
    ∃ key', pair key key' ∧ (keys ++ [key'], inner) ∈ level (levels c' depth).length [] other

/-- What is nested in one path of a list over the ends of a spine. -/
theorem filter_flatMap_level {cs : List (String → Prop)} {tree inner : StyleTree}
    (h : Spine cs tree) {path : List String} (hpath : (path, inner) ∈ level cs.length [] tree)
    {nested : List String × StyleTree → List (List String × StyleTree)} {target : List String}
    (hnested : ∀ found ∈ level cs.length [] tree, found.1 ≠ path →
      ∀ entry ∈ nested found, entry.1 ≠ target) :
    ((level cs.length [] tree).flatMap nested).filter (·.1 = target) =
      (nested (path, inner)).filter (·.1 = target) := by
  rw [List.filter_flatMap]
  refine @flatMap_level cs tree inner h path hpath _
    (fun found => (nested found).filter (·.1 = target)) fun found hfound hne => ?_
  exact List.filter_eq_nil_iff.mpr fun entry hentry =>
    by simpa using hnested found hfound hne entry hentry

section Steps

variable {options : Options} {pair : String → String → Prop} {c c' : String → Prop} {depth : Nat}
  {tree other : StyleTree} {scope scope' : List String} {found found' : Collected}

/-- Nested trees mirror each other if as much is nested in the paths of each pair. -/
theorem mirrors_mergeAll (hc : Apart c) (hc' : Apart c')
    {nested nested' : List (List String × StyleTree)}
    (hmeets : ∀ entry ∈ nested, Meets (levels c depth) entry.1)
    (hmeets' : ∀ entry ∈ nested', Meets (levels c' depth) entry.1)
    (hends : ∀ entry ∈ nested, ∀ keys key, entry.1 = keys ++ [key] → ∃ key', pair key key' ∧
      (nested.filter (·.1 = keys ++ [key])).map Prod.snd =
        (nested'.filter (·.1 = keys ++ [key'])).map Prod.snd) :
    Mirrors pair c c' depth (mergeAll (nested.map fun entry => nest entry.1 entry.2))
      (mergeAll (nested'.map fun entry => nest entry.1 entry.2)) := by
  have hspine := spine_mergeAll hmeets
  have hspine' := spine_mergeAll hmeets'
  refine ⟨hc, hc', hspine, hspine', fun keys key inner hlevel => ?_⟩
  obtain ⟨path, hpath, hmeet, hnode⟩ := (mem_level hspine).mp hlevel
  obtain rfl : keys ++ [key] = path := by rw [hpath, List.nil_append]
  have hdepth (key : String) : (keys ++ [key]).length = depth + 1 := by
    simpa [levels] using hmeet.length_eq
  have hlength (key : String) : ∀ entry ∈ nested, (keys ++ [key]).length = entry.1.length :=
    fun entry hentry => by rw [hdepth, (hmeets entry hentry).length_eq]; simp [levels]
  have hlength' (key : String) : ∀ entry ∈ nested', (keys ++ [key]).length = entry.1.length :=
    fun entry hentry => by rw [hdepth, (hmeets' entry hentry).length_eq]; simp [levels]
  obtain ⟨entry, hentry, hkeys⟩ := exists_nested_of_node? (hlength key) (by simp) hnode
  obtain ⟨key', hpair, hsame⟩ := hends entry hentry keys key hkeys
  rw [node?_mergeAll_nest (hlength key) (by simp), hsame,
    ← node?_mergeAll_nest (hlength' key') (by simp)] at hnode
  obtain ⟨entry', hentry', hkeys'⟩ := exists_nested_of_node? (hlength' key') (by simp) hnode
  have hmeet' := hmeets' entry' hentry'
  rw [hkeys'] at hmeet'
  exact ⟨key', hpair, (mem_level hspine').mpr ⟨keys ++ [key'], rfl, hmeet', hnode⟩⟩

/-- The path to an end has a last key, and its pair leads to the same end of the other tree. -/
theorem Mirrors.exists_end (h : Mirrors pair c c' depth tree other)
    {found : List String × StyleTree} (hfound : found ∈ level (levels c depth).length [] tree) :
    ∃ keys key key', found.1 = keys ++ [key] ∧ pair key key' ∧
      (keys ++ [key'], found.2) ∈ level (levels c' depth).length [] other := by
  obtain ⟨path, inner⟩ := found
  have hpath : path ≠ [] :=
    (plain_of_mem_level (plain_levels h.apart depth) h.spine hfound).1
  rw [← List.dropLast_concat_getLast hpath] at hfound
  obtain ⟨key', hpair, hend⟩ := h.ends _ _ _ hfound
  exact ⟨_, _, key', (List.dropLast_concat_getLast hpath).symm, hpair, hend⟩

/-- What is nested in the ends of two spines mirrors each other, if different ends are nested in
different paths and the two ends of a pair in the two paths of a pair. -/
theorem Mirrors.mergeAll (h : Mirrors pair c c' depth tree other) {b b' : String → Prop}
    {depth' : Nat} (hb : Apart b) (hb' : Apart b')
    {nested nested' : List String × StyleTree → List (List String × StyleTree)}
    (hmeets : ∀ found ∈ level (levels c depth).length [] tree, ∀ entry ∈ nested found,
      Meets (levels b depth') entry.1)
    (hmeets' : ∀ found ∈ level (levels c' depth).length [] other, ∀ entry ∈ nested' found,
      Meets (levels b' depth') entry.1)
    (hapart : ∀ found ∈ level (levels c depth).length [] tree, ∀ entry ∈ nested found,
      ∀ found' ∈ level (levels c depth).length [] tree, ∀ entry' ∈ nested found',
      entry.1 = entry'.1 → found.1 = found'.1)
    (hapart' : ∀ found ∈ level (levels c' depth).length [] other, ∀ entry ∈ nested' found,
      ∀ found' ∈ level (levels c' depth).length [] other, ∀ entry' ∈ nested' found',
      entry.1 = entry'.1 → found.1 = found'.1)
    (hends : ∀ keys key key' inner, pair key key' →
      ∀ entry ∈ nested (keys ++ [key], inner), ∃ front last last', entry.1 = front ++ [last] ∧
        pair last last' ∧
        ((nested (keys ++ [key], inner)).filter (·.1 = front ++ [last])).map Prod.snd =
          ((nested' (keys ++ [key'], inner)).filter (·.1 = front ++ [last'])).map Prod.snd) :
    Mirrors pair b b' depth'
      (StyleTree.mergeAll (((level (levels c depth).length [] tree).flatMap nested).map
        fun entry => nest entry.1 entry.2))
      (StyleTree.mergeAll (((level (levels c' depth).length [] other).flatMap nested').map
        fun entry => nest entry.1 entry.2)) := by
  refine mirrors_mergeAll hb hb' (fun entry hentry => ?_) (fun entry hentry => ?_)
    fun entry hentry front last hpath => ?_
  · obtain ⟨found, hfound, hentry⟩ := List.mem_flatMap.mp hentry
    exact hmeets found hfound entry hentry
  · obtain ⟨found, hfound, hentry⟩ := List.mem_flatMap.mp hentry
    exact hmeets' found hfound entry hentry
  · obtain ⟨⟨path, inner⟩, hfound, hentry⟩ := List.mem_flatMap.mp hentry
    obtain ⟨keys, key, key', hkeys, hpair, hfound'⟩ := h.exists_end hfound
    obtain rfl : path = keys ++ [key] := hkeys
    obtain ⟨front', last, last', hsplit, hlast, hsame⟩ :=
      hends keys key key' inner hpair entry hentry
    obtain ⟨rfl, hlasts⟩ := List.append_inj' (hpath.symm.trans hsplit) rfl
    obtain rfl := List.singleton_inj.mp hlasts
    refine ⟨last', hlast, ?_⟩
    have hmem : entry ∈ (nested (keys ++ [key], inner)).filter (·.1 = front ++ [last]) :=
      List.mem_filter.mpr ⟨hentry, decide_eq_true hpath⟩
    -- Something is nested in the other path of the pair too, and so only the one end is.
    obtain ⟨entry', hentry'⟩ : ∃ entry', entry' ∈
        (nested' (keys ++ [key'], inner)).filter (·.1 = front ++ [last']) :=
      List.exists_mem_of_ne_nil _ fun hnil => by
        rw [hnil, List.map_nil, List.map_eq_nil_iff] at hsame
        rw [hsame] at hmem
        simp at hmem
    obtain ⟨hentry', hpath'⟩ := List.mem_filter.mp hentry'
    rw [filter_flatMap_level h.spine hfound fun found hf hne e he heq =>
        hne (hapart found hf e he _ hfound entry hentry (heq.trans hpath.symm)),
      filter_flatMap_level h.spine' hfound' fun found hf hne e he heq =>
        hne (hapart' found hf e he _ hfound' entry' hentry'
          (heq.trans (of_decide_eq_true hpath').symm)), hsame]

/-! ## Buckets -/

/-- The trees that are merged into one bucket, nested in an end of the spine. -/
def filedAt (options : Options) (table : Table) (header : String)
    (found : List String × StyleTree) : List (List String × StyleTree) :=
  ((found.2.filedInside options).filter fun f => f.table = table && f.header = header).map
    fun f => (found.1, f.tree)

theorem map_tree_filedUnder (hc : Apart c) (hspine : Spine (levels c depth) tree) (table : Table)
    (header : String) : (tree.filedUnder options table header).map Filing.tree =
      ((level (levels c depth).length [] tree).flatMap (filedAt options table header)).map
        fun entry => nest entry.1 entry.2 := by
  rw [filedUnder, filings_of_spine options (plain_levels hc depth) hspine, List.filter_flatMap,
    List.map_flatMap, List.map_flatMap, List.flatMap_def, List.flatMap_def]
  refine congrArg List.flatten (List.map_congr_left fun found _ => ?_)
  rw [filedAt, List.filter_map, List.map_map, List.map_map]
  refine List.map_congr_left fun f _ => ?_
  exact nest_append found.1 f.parents f.block

theorem of_mem_filedAt {table : Table} {header : String} {end_ : List String × StyleTree}
    {entry : List String × StyleTree} (h : entry ∈ filedAt options table header end_) :
    entry.1 = end_.1 := by
  obtain ⟨f, -, rfl⟩ := List.mem_map.mp h
  rfl

/-- The buckets of a header mirror each other. -/
theorem Mirrors.bucket (h : Mirrors pair c c' depth tree other) (options : Options) (table : Table)
    (header : String) : Mirrors pair c c' depth (tree.bucket options table header)
      (other.bucket options table header) := by
  have hmeets {c : String → Prop} (hc : Apart c) {tree : StyleTree}
      (hspine : Spine (levels c depth) tree) :
      ∀ found ∈ level (levels c depth).length [] tree,
        ∀ entry ∈ filedAt options table header found, Meets (levels c depth) entry.1 := by
    intro found hfound entry hentry
    obtain ⟨path, hpath, hmeet, -⟩ := (mem_level hspine).mp hfound
    rw [of_mem_filedAt hentry, hpath]
    exact hmeet
  rw [StyleTree.bucket, StyleTree.bucket, map_tree_filedUnder h.apart h.spine,
    map_tree_filedUnder h.apart' h.spine']
  refine h.mergeAll h.apart h.apart' (hmeets h.apart h.spine) (hmeets h.apart' h.spine')
    (fun _ _ e he _ _ e' he' heq => ?_) (fun _ _ e he _ _ e' he' heq => ?_)
    fun keys key key' inner hpair entry hentry =>
      ⟨keys, key, key', of_mem_filedAt hentry, hpair, ?_⟩
  · rw [← of_mem_filedAt he, heq, of_mem_filedAt he']
  · rw [← of_mem_filedAt he, heq, of_mem_filedAt he']
  · have hall (path : List String) :
        ((filedAt options table header (path, inner)).filter (·.1 = path)).map Prod.snd =
          ((inner.filedInside options).filter fun f => f.table = table && f.header = header).map
            Filing.tree := by
      have hself : (filedAt options table header (path, inner)).filter (·.1 = path) =
          filedAt options table header (path, inner) :=
        List.filter_eq_self.mpr fun e he => decide_eq_true (of_mem_filedAt he)
      rw [hself, filedAt, List.map_map]
      rfl
    rw [hall, hall]

/-- Every bucket of the first tree has its mirror among the buckets of the second one. -/
theorem Mirrors.table (h : Mirrors pair c c' depth tree other)
    (hfound : tree.collect options scope = .ok found)
    (hfound' : other.collect options scope' = .ok found') {table : Table} {header : String}
    {bucket : StyleTree} (hbucket : (header, bucket) ∈ found.buckets.table table) :
    ∃ bucket', (header, bucket') ∈ found'.buckets.table table ∧
      Mirrors pair c c' depth bucket bucket' := by
  have hdistinct : (found.buckets.table table).Distinct := by
    rw [Collected.table_collect hfound, tableOf]
    exact Entries.distinct_nil.foldl_upsert _ _ _
  have hget := hdistinct.get?_of_mem hbucket
  rw [get?_table_collect hfound] at hget
  split at hget
  · simp at hget
  next hne =>
  obtain rfl := Option.some.inj hget
  refine ⟨_, Entries.mem_of_get? ?_, h.bucket options table header⟩
  rw [get?_table_collect hfound', if_neg]
  -- Something is filed at an end of the first tree, and so it is at that end of the second one.
  have hmap {c : String → Prop} (hc : Apart c) {tree : StyleTree}
      (hspine : Spine (levels c depth) tree) (hnil : tree.filedUnder options table header = []) :
      ∀ found ∈ level (levels c depth).length [] tree,
        filedAt options table header found = [] := by
    have hmap := @map_tree_filedUnder options c depth tree hc hspine table header
    rw [hnil, List.map_nil] at hmap
    exact List.flatMap_eq_nil_iff.mp (List.map_eq_nil_iff.mp hmap.symm)
  intro hnil
  have hnone : (tree.filedUnder options table header).map Filing.tree = [] := by
    rw [map_tree_filedUnder h.apart h.spine, List.map_eq_nil_iff, List.flatMap_eq_nil_iff]
    intro found hfound
    obtain ⟨keys, key, key', -, -, hend⟩ := h.exists_end hfound
    have hend' := hmap h.apart' h.spine' hnil _ hend
    rw [filedAt, List.map_eq_nil_iff] at hend' ⊢
    exact hend'
  exact hne (List.map_eq_nil_iff.mp hnone)

/-! ## Modes -/

/-- A key is the selector of a mode. -/
def IsMode (options : Options) (selector : String) : Prop :=
  ∃ name, options.modes.get? name = some selector

/-- The trees that are merged for the modes, nested in the selector of the mode and in an end of the
spine. -/
def modesAt (options : Options) (found : List String × StyleTree) :
    List (List String × StyleTree) :=
  (found.2.modeFiledInside options).map fun f =>
    (f.selector :: markFirst found.1, f.inner (found.1.all Text.isBlank))

theorem map_tree_modeFilings (hc : Apart c) (hspine : Spine (levels c depth) tree) :
    (tree.modeFilings options).map ModeFiling.tree =
      ((level (levels c depth).length [] tree).flatMap (modesAt options)).map
        fun entry => nest entry.1 entry.2 := by
  rw [modeFilings_of_spine options (plain_levels hc depth) hspine, List.map_flatMap,
    List.map_flatMap, List.flatMap_def, List.flatMap_def]
  refine congrArg List.flatten (List.map_congr_left fun found _ => ?_)
  rw [modesAt, List.map_map, List.map_map]
  exact List.map_congr_left fun f _ => ModeFiling.tree_below found.1 f

theorem isMode_of_mem_modeFiledInside {inner : StyleTree} {f : ModeFiling}
    (h : f ∈ inner.modeFiledInside options) : IsMode options f.selector := by
  obtain ⟨visit, -, hvisit⟩ := List.mem_filterMap.mp h
  unfold Visit.modeFiledInside? at hvisit
  split at hvisit
  · simp at hvisit
  · split at hvisit
    · next htarget =>
      obtain rfl := Option.some.inj hvisit
      exact ⟨_, Target.mode_of_ofKey? htarget⟩
    · simp at hvisit

/-- If the first tree files blocks for modes, so does the second one. -/
theorem Mirrors.modesOf_ne_nil (h : Mirrors pair c c' depth tree other)
    (hne : tree.modesOf options ≠ []) : other.modesOf options ≠ [] := by
  have hfiled : (level (levels c depth).length [] tree).flatMap (modesAt options) ≠ [] := by
    intro hnil
    rw [StyleTree.modesOf, map_tree_modeFilings h.apart h.spine, hnil] at hne
    exact hne rfl
  obtain ⟨entry, hentry⟩ := List.exists_mem_of_ne_nil _ hfiled
  obtain ⟨found, hfound, hentry⟩ := List.mem_flatMap.mp hentry
  obtain ⟨f, hf, -⟩ := List.mem_map.mp hentry
  obtain ⟨keys, key, key', -, -, hend⟩ := h.exists_end hfound
  rw [StyleTree.modesOf, map_tree_modeFilings h.apart' h.spine']
  refine mergeAll_ne_nil (List.mem_map.mpr ⟨(f.selector :: markFirst (keys ++ [key']), f.inner
    ((keys ++ [key']).all Text.isBlank)), List.mem_flatMap.mpr ⟨_, hend, ?_⟩, rfl⟩) (by simp)
  exact List.mem_map.mpr ⟨f, hf, rfl⟩

section Pairs

variable (hmark : ∀ key key', pair key key' → pair (mark key) (mark key'))
  (hmatches : ∀ key key', pair key key' → Matches key key')

include hmatches

/-- What a walk reports below a key of a pair in the first tree it reports below the other key of
the pair in the second one. -/
theorem Mirrors.reports (h : Mirrors pair c c' depth tree other)
    (hfound : tree.collect options scope = .ok found)
    (hfound' : other.collect options scope' = .ok found') {diagnostic : Diagnostic}
    (hmem : diagnostic ∈ found.diagnostics) :
    ∃ keys key key' rest, pair key key' ∧ diagnostic.path = scope ++ (keys ++ key :: rest) ∧
      (rest ≠ [] →
        ⟨scope' ++ (keys ++ key' :: rest), diagnostic.problem⟩ ∈ found'.diagnostics) := by
  have hvisits {c : String → Prop} (hc : Apart c) {tree : StyleTree}
      (hspine : Spine (levels c depth) tree) {scope : List String} {found : Collected}
      (hfound : tree.collect options scope = .ok found) :
      found.diagnostics = (level (levels c depth).length [] tree).flatMap fun e =>
        (visitsNode e.1 (.tree e.2)).flatMap (Visit.reports options scope) := by
    rw [Collected.diagnostics_collect hfound]
    exact flatMap_visits (fun path inner hplain href =>
      reports_of_map options hplain href scope) (plain_levels hc depth) hspine
  rw [hvisits h.apart h.spine hfound] at hmem
  rw [hvisits h.apart' h.spine' hfound']
  obtain ⟨⟨path, inner⟩, hend, hmem⟩ := List.mem_flatMap.mp hmem
  obtain ⟨keys, key, key', hkeys, hpair, hend'⟩ := h.exists_end hend
  obtain rfl : path = keys ++ [key] := hkeys
  obtain ⟨-, hplain⟩ := plain_of_mem_level (plain_levels h.apart depth) h.spine hend
  obtain ⟨-, hplain'⟩ := plain_of_mem_level (plain_levels h.apart' depth) h.spine' hend'
  rw [visitsNode_tree, List.flatMap_append, List.mem_append] at hmem
  rcases hmem with hmem | hmem
  · obtain ⟨_, hbelow, hmem⟩ := List.mem_flatMap.mp hmem
    obtain ⟨visit, hvisit, rfl⟩ := List.mem_map.mp hbelow
    have hselectors (hnone : Selector.ofPath (keys ++ [key] ++ visit.parents) = []) :
        Selector.ofPath (keys ++ [key'] ++ visit.parents) = [] := by
      rw [List.append_assoc, List.singleton_append] at hnone ⊢
      exact (hmatches _ _ hpair).ofPath_eq_nil hnone
    obtain ⟨hpath, hreport⟩ := Visit.reports_below (path_ne_nil_of_mem_visitsInside hvisit)
      (by simp) hplain (by simp) hplain' hselectors scope' hmem
    rw [List.append_assoc, List.singleton_append] at hpath hreport
    refine ⟨keys, key, key', visit.path, hpair, hpath, fun _ => ?_⟩
    refine List.mem_flatMap.mpr ⟨_, hend', ?_⟩
    rw [visitsNode_tree, List.flatMap_append, List.mem_append]
    exact Or.inl (List.mem_flatMap.mpr ⟨_, List.mem_map_of_mem hvisit, hreport⟩)
  · rw [List.flatMap_singleton] at hmem
    refine ⟨keys, key, key', [], hpair, ?_, fun hne => absurd rfl hne⟩
    exact Visit.path_of_mem_reports (isAtKey_last hplain _) hmem

include hmark

/-- The trees of the modes mirror each other, one level deeper. -/
theorem Mirrors.modesOf (h : Mirrors pair c c' depth tree other) (hmode : Apart (IsMode options)) :
    Mirrors pair (IsMode options) (IsMode options) (depth + 1) (tree.modesOf options)
      (other.modesOf options) := by
  have hmeets {c : String → Prop} {tree : StyleTree} (hspine : Spine (levels c depth) tree) :
      ∀ found ∈ level (levels c depth).length [] tree, ∀ entry ∈ modesAt options found,
        Meets (levels (IsMode options) (depth + 1)) entry.1 := by
    intro found hfound entry hentry
    obtain ⟨path, hpath, hmeet, -⟩ := (mem_level hspine).mp hfound
    obtain ⟨f, hf, rfl⟩ := List.mem_map.mp hentry
    rw [hpath]
    exact ⟨isMode_of_mem_modeFiledInside hf, meets_markFirst hmeet⟩
  have hapart {c : String → Prop} (hc : Apart c) {tree : StyleTree}
      (hspine : Spine (levels c depth) tree) :
      ∀ found ∈ level (levels c depth).length [] tree, ∀ entry ∈ modesAt options found,
        ∀ found' ∈ level (levels c depth).length [] tree, ∀ entry' ∈ modesAt options found',
          entry.1 = entry'.1 → found.1 = found'.1 := by
    intro found hfound entry hentry found' hfound' entry' hentry' heq
    obtain ⟨f, -, rfl⟩ := List.mem_map.mp hentry
    obtain ⟨f', -, rfl⟩ := List.mem_map.mp hentry'
    obtain ⟨path, hpath, hmeet, -⟩ := (mem_level hspine).mp hfound
    obtain ⟨path', hpath', hmeet', -⟩ := (mem_level hspine).mp hfound'
    rw [List.nil_append] at hpath hpath'
    rw [hpath, hpath'] at heq ⊢
    exact markFirst_injective (apart_levels hc depth) hmeet hmeet' (List.cons.inj heq).2
  rw [StyleTree.modesOf, StyleTree.modesOf, map_tree_modeFilings h.apart h.spine,
    map_tree_modeFilings h.apart' h.spine']
  refine h.mergeAll hmode hmode (hmeets h.spine) (hmeets h.spine') (hapart h.apart h.spine)
    (hapart h.apart' h.spine') fun keys key key' inner hpair entry hentry => ?_
  obtain ⟨f, -, rfl⟩ := List.mem_map.mp hentry
  refine ⟨f.selector :: markFirst keys, if keys.all Text.isBlank then mark key else key,
    if keys.all Text.isBlank then mark key' else key', ?_, ?_, ?_⟩
  · rw [markFirst_concat, List.cons_append]
  · split
    · exact hmark _ _ hpair
    · exact hpair
  · have hfilter (k : String) :
        ((modesAt options (keys ++ [k], inner)).filter (·.1 = f.selector :: markFirst keys ++
          [if keys.all Text.isBlank then mark k else k])).map Prod.snd =
        ((inner.modeFiledInside options).filter (·.selector = f.selector)).map
          (ModeFiling.inner ((keys ++ [k]).all Text.isBlank)) := by
      rw [List.cons_append, ← markFirst_concat, modesAt, List.filter_map, List.map_map]
      have hsame : ((fun entry : List String × StyleTree =>
            decide (entry.1 = f.selector :: markFirst (keys ++ [k]))) ∘ fun g : ModeFiling =>
            (g.selector :: markFirst (keys ++ [k]), g.inner ((keys ++ [k]).all Text.isBlank))) =
          fun g : ModeFiling => decide (g.selector = f.selector) := by
        funext g
        simp
      rw [hsame]
      rfl
    have hblank : (keys ++ [key]).all Text.isBlank = (keys ++ [key']).all Text.isBlank := by
      simp [(hmatches _ _ hpair).isBlank_eq]
    rw [hfilter, hfilter, hblank]

end Pairs

end Steps

end StyleTree

end NestedStyles
