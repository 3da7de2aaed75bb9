import NestedStyles.Proofs.ModeSheet

/-!
# Where a mode is referred to

The block of a mode may stand at the reference, below its selectors, or the reference may stand at
the root and hold the selectors. Both file the same tree, unless the first key above the block is
blank (`StyleTree.compile_mode_place`): below such a key nothing is marked as a descendant of the
mode's selector when the reference stands at the root.
-/

namespace NestedStyles

namespace StyleTree

section Place

variable {options : Options} {name p : String} {segments : List String} {block : StyleTree}

/-- Marking the outermost key of a nested block. -/
theorem marked_nest_of_visible (rest : List String) {first : String}
    (hkey : Text.isAtKey first = false) (hfirst : Text.isBlank first = false)
    (hblock : reference? block = none) :
    (nest (first :: rest) block).marked = Buckets.descendantTree (first :: rest) block := by
  have hinner := reference?_nest hblock rest
  have hsplit := @descendantTree_split [] (by simp) block first hfirst rest
  rw [List.nil_append] at hsplit
  rw [hsplit, marked, nest_cons, markedEntries, markedEntries, markedEntry, hinner]
  simp only [hkey, hfirst]
  rfl

/-- Nothing below a blank key is marked. -/
theorem marked_nest_of_blank (rest : List String) {first : String}
    (hkey : Text.isAtKey first = false) (hfirst : Text.isBlank first = true)
    (hblock : reference? block = none) :
    (nest (first :: rest) block).marked = nest (first :: rest) block := by
  have hinner := reference?_nest hblock rest
  rw [marked, nest_cons, markedEntries, markedEntries, markedEntry, hinner]
  simp only [hkey, hfirst]
  rfl

variable (hmode : options.NamesMode name p) (hblock : reference? block = none)

include hmode hblock

/-- A reference at the root files its selectors, marked as descendants of the mode's selector. -/
theorem collect_mode_root (scope : List String) :
    collect options scope [("@" ++ name, .tree (nest segments block))] = .ok
      { Collected.empty with
        buckets := { Buckets.empty with modes := [(p, .tree (nest segments block).marked)] } } := by
  have hfiled := @collect_mode options name p [] _ hmode scope rfl (reference?_nest hblock segments)
  rwa [nest_nil, descendantTree_of_blank (by simp), nest_nil] at hfiled

/-- It does not matter whether a reference to a mode stands below its selectors or above them,
unless the first of them is blank: then a reference above them files the block unmarked. -/
theorem compile_mode_place (hsegments : segments.any Text.isAtKey = false) :
    ((∀ key ∈ segments.head?, Text.isBlank key = false) →
      compile options (nest segments [("@" ++ name, .tree block)]) =
        compile options [("@" ++ name, .tree (nest segments block))]) ∧
    ((∃ key ∈ segments.head?, Text.isBlank key = true) → ∀ scope,
      collect options scope [("@" ++ name, .tree (nest segments block))] = .ok
        { Collected.empty with
          buckets := { Buckets.empty with modes := [(p, .tree (nest segments block))] } }) := by
  have hroot := @collect_mode_root _ _ _ segments _ hmode hblock
  cases segments with
  | nil => exact ⟨fun _ => rfl, by simp⟩
  | cons first rest =>
    have hkey : Text.isAtKey first = false := (Bool.or_eq_false_iff.mp hsegments).1
    constructor
    · intro hvisible
      have hmarked := marked_nest_of_visible rest hkey (hvisible first rfl) hblock
      refine compile_eq_of_collect_eq options ?_ fun scope => ?_
      · simp only [atDepth_nest hsegments, atDepth, nodeAtDepth]
      · rw [collect_mode hmode scope hsegments hblock, hroot scope, hmarked]
    · rintro ⟨key, hhead, hblank⟩ scope
      obtain rfl : first = key := Option.some.inj hhead
      rw [hroot scope, marked_nest_of_blank rest hkey hblank hblock]

end Place

/-- The alternatives of the outermost key are all marked, in either place. -/
theorem compile_mode_place_alternatives :
    compile (Options.empty.withMode "dark" ".dark")
        (nest ["_card, p", " "] [("@dark", .tree [("color", .leaf (.text "red"))])]) =
      compile (Options.empty.withMode "dark" ".dark")
        [("@dark", .tree (nest ["_card, p", " "] [("color", .leaf (.text "red"))]))] :=
  (@compile_mode_place (Options.empty.withMode "dark" ".dark") "dark" ".dark" ["_card, p", " "]
    [("color", .leaf (.text "red"))]
    ⟨rfl, by decide, by decide, by decide, by decide⟩ (by decide) (by decide)).1 (by decide)

/-- Below a blank key the two places differ: a reference at the root leaves the next key
unmarked. -/
theorem mode_place_of_blank :
    ¬ ∀ (options : Options) (name p : String) (segments : List String) (block : StyleTree)
      (below above : Stylesheet), options.modes = [(name, p)] → options.auto = none →
      options.NamesMode name p → Text.isAtKey p = false → segments.any Text.isAtKey = false →
      block.isPlain = true → block.isFinite = true → reference? block = none →
      compile options (nest segments [("@" ++ name, .tree block)]) = .ok below →
      compile options [("@" ++ name, .tree (nest segments block))] = .ok above →
      below.css = above.css := by
  intro h
  have hsame := h (Options.empty.withMode "dark" ".dark") "dark" ".dark" [""]
    [("card", .tree [("color", .leaf (.text "red"))])] _ _ rfl rfl
    ⟨rfl, by decide, by decide, by decide, by decide⟩ (by decide) (by decide) (by decide)
    (by decide) (by decide) rfl rfl
  exact absurd hsame (by decide +kernel)

end StyleTree

end NestedStyles
