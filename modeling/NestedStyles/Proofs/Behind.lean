import NestedStyles.Proofs.Alternatives
import NestedStyles.Proofs.Locality
import NestedStyles.Proofs.Writes

/-!
# A selector behind another

A word that is marked as a descendant starts a new compound selector, so the words from there on add
a space and what they add to nothing (`Selector.added_marked`). The result is the selector of the
words before, a space and what the words join to alone (`Selector.join_descendant`), or the selector
of the words before itself if they join to nothing (`Selector.join_append_of_mark`).
`Selector.joined` lists what the choices of alternatives of a path join to, nothing included, and
`Selector.ofPath_of_joined` gives the selectors of a path below `p` by it.
-/

namespace NestedStyles.Selector

open Text

/-! ## One word -/

namespace Joining

/-- The word of a marked token is that of the token alone. -/
theorem word_marked {token : String} (hmark : (trim token.toList).head? ≠ some '&')
    (joining : Joining) : joining.word (trim ("& " ++ token).toList) =
      { joining with marked := true }.word (trim token.toList) := by
  have htrim : trim ("& " ++ token).toList = '&' :: trimEnd (' ' :: token.toList) := by
    have htext : ("& " ++ token).toList = '&' :: ' ' :: token.toList := String.toList_append
    have hstart : StartsVisibly ('&' :: ' ' :: token.toList) := startsVisibly_cons.mpr (by decide)
    have hvisible : isSpace '&' = false := by decide
    rw [htext, trim, trimStart_of_startsVisibly hstart, trimEnd_cons, if_neg (by simp [hvisible])]
  have hhead : (trim ("& " ++ token).toList).head? = some '&' := by rw [htrim, List.head?_cons]
  have hword : wordOf (trim ("& " ++ token).toList) = wordOf (trim token.toList) := by
    rw [wordOf, wordOf, hhead, if_pos (by decide), if_neg (by simpa using hmark), htrim,
      List.tail_cons, trimStart_trimEnd, trim_cons_space (by decide)]
  cases hpiece : piece? (wordOf (trim token.toList)) with
  | none =>
    rw [word_of_none hpiece, word_of_none (hword ▸ hpiece), hhead]
    simp
  | some found =>
    obtain ⟨joint, piece, kind⟩ := found
    rw [word_of_some hpiece, word_of_some (hword ▸ hpiece), hhead]
    simp

/-- A word with a mark needs no other one. -/
theorem word_of_mark {token : List Char} (h : token.head? = some '&') (joining : Joining) :
    joining.word token = { joining with marked := true }.word token := by
  simp [word, h]

end Joining

open Joining

/-! ## Words behind others -/

/-- What stands behind a selector: nothing, or a space and a selector. -/
def behind (p s : String) : String := if s = "" then p else p ++ " " ++ s

/-- Behind a piece that is marked, words add a space and what they add to nothing, or nothing. -/
theorem added_marked (kind : Piece) (marked : Bool) (words : List String) :
    added (some kind) true words =
      if added none marked words = "" then "" else " " ++ added none marked words := by
  induction words generalizing marked with
  | nil => rfl
  | cons word words ih =>
    rw [added, added]
    cases hkind : kind? word with
    | none => exact ih _
    | some found =>
      obtain ⟨joint, piece⟩ := found
      have hword : join [word] ≠ "" := join_singleton_ne (by simp [hkind])
      have hnone : gap none joint (marked || isMarking word) = "" := rfl
      simp [gap_marked, hnone, hword, String.append_assoc]

/-- Words behind others, the first of them marked as a descendant of what comes before, join to what
they join to without the mark, behind the selector of the others. -/
theorem join_append_of_mark {front : List String} {marked word : String} (hfront : join front ≠ "")
    (hmark : ∀ joining : Joining, joining.word (trim marked.toList) =
      { joining with marked := true }.word (trim word.toList)) (words : List String) :
    join (front ++ marked :: words) = behind (join front) (join (word :: words)) := by
  have happend : start.run (front ++ marked :: words) =
      { start.run front with marked := true }.run (word :: words) := by
    rw [run, List.foldl_append, List.foldl_cons, hmark]
    rfl
  have hends := endsAs_run front
  -- The selector of the words before is not empty, so it ends in a piece.
  cases hlast : (start.run front).last with
  | none =>
    have hnil : (start.run front).text = [] := EndsAs.eq_nil (hlast ▸ hends)
    exact absurd (by rw [join_eq_run, hnil]; rfl) hfront
  | some kind =>
    have hselector : join (front ++ marked :: words) =
        join front ++ added (some kind) true (word :: words) := by
      rw [join_eq_run, happend, ← hlast]
      exact @selector_run { start.run front with marked := true } hends _
    rw [hselector, added_marked kind false, ← join_eq_added, behind]
    split
    · exact String.append_empty
    · exact String.append_assoc.symm

/-- Words behind `p`, the first one marked as a descendant, join to what they join to alone, behind
the selector of `p`. -/
theorem join_behind {p a : String} (hp : join [p] ≠ "") (ha : IsAlternative a)
    (hmark : a.toList.head? ≠ some '&') (words : List String) :
    join (p :: ("& " ++ a) :: words) = behind (join [p]) (join (a :: words)) := by
  have htrim : trim a.toList = a.toList := trim_of_visible ha.visible.starts ha.visible.ends
  exact join_append_of_mark hp (word_marked (htrim.symm ▸ hmark)) words

/-- Words behind `p` of which the first has a mark of its own join to what they join to alone,
behind the selector of `p`. -/
theorem join_behind_of_mark {p word : String} (hp : join [p] ≠ "")
    (hmark : (trim word.toList).head? = some '&') (words : List String) :
    join (p :: word :: words) = behind (join [p]) (join (word :: words)) :=
  join_append_of_mark hp (word_of_mark hmark) words

/-- A word that is marked as a descendant, and the words behind it, stand behind the selector of the
words before as they stand alone, whatever these end in and whether or not the word is left out. -/
theorem join_descendant {front words : List String} {word : String}
    (hmark : (trim word.toList).head? ≠ some '&') (hfront : join front ≠ "")
    (hwords : join ([word] ++ words) ≠ "") :
    join (front ++ ["& " ++ word] ++ words) = join front ++ " " ++ join ([word] ++ words) := by
  have hjoin := join_append_of_mark hfront (word_marked hmark) words
  rw [List.singleton_append] at hwords
  rw [behind, if_neg hwords] at hjoin
  rw [List.append_assoc]
  exact hjoin

/-- Behind a combinator and a mark of its own the word `_`, which is left out, keeps its mark. -/
theorem join_descendant_pending :
    (trim "_".toList).head? ≠ some '&' ∧ join [":root.dark", ">", "&"] ≠ "" ∧
      join (["_"] ++ ["card"]) ≠ "" ∧
      join ([":root.dark", ">", "&"] ++ ["& " ++ "_"] ++ ["card"]) =
        join [":root.dark", ">", "&"] ++ " " ++ join (["_"] ++ ["card"]) :=
  ⟨by decide, by decide, by decide, join_descendant (by decide) (by decide) (by decide)⟩

/-! ## Selectors of a path -/

theorem behind_ne_empty {p : String} (hp : p ≠ "") (s : String) : behind p s ≠ "" := by
  unfold behind
  split
  · exact hp
  · intro h
    have := congrArg String.toList h
    simp [hp] at this

/-- Different selectors are different behind another one. -/
theorem behind_inj {p s t : String} (h : behind p s = behind p t) : s = t := by
  have hne (s : String) : p ++ " " ++ s ≠ p := fun heq => by
    have := congrArg (fun x : String => x.toList.length) heq
    simp at this
  unfold behind at h
  split at h
  · next hs =>
    split at h
    · next ht => rw [hs, ht]
    · exact absurd h.symm (hne t)
  · split at h
    · exact absurd h (hne s)
    · have := congrArg String.toList h
      exact String.toList_inj.mp (by simpa using this)

/-- The alternatives of the keys that have any. -/
def choices (keys : List String) : List (List String) :=
  (keys.map alternatives).filter fun choice => !choice.isEmpty

/-- What the choices of alternatives of a path join to, the empty text included. -/
def joined (keys : List String) : List String := ((product (choices keys)).map join).eraseDups

theorem ofPath_eq_filter_joined (keys : List String) :
    ofPath keys = (joined keys).filter (· != "") := by
  rw [joined, ← Entries.eraseDups_filter]
  rfl

theorem choices_append (front back : List String) :
    choices (front ++ back) = choices front ++ choices back := by
  rw [choices, List.map_append, List.filter_append]
  rfl

theorem choices_cons {key : String} (h : alternatives key ≠ []) (keys : List String) :
    choices (key :: keys) = alternatives key :: choices keys := by
  have hne : (!(alternatives key).isEmpty) = true := by simpa using h
  rw [choices, List.map_cons, List.filter_cons, hne, if_pos rfl]
  rfl

theorem choices_of_blank {keys : List String} (h : ∀ key ∈ keys, isBlank key = true) :
    choices keys = [] := by
  refine List.filter_eq_nil_iff.mpr fun choice hchoice => ?_
  obtain ⟨key, hkey, rfl⟩ := List.mem_map.mp hchoice
  rw [alternatives_of_isBlank (h key hkey)]
  simp

/-- The key has alternatives, and none of them is marked as a descendant already. -/
def isMarkable (key : String) : Bool :=
  !(alternatives key).isEmpty && (alternatives key).all fun a => a.toList.head? != some '&'

/-- The key has alternatives, and all of them are marked as a descendant. -/
def isMarked (key : String) : Bool :=
  !(alternatives key).isEmpty && (alternatives key).all fun a => a.toList.head? == some '&'

/-- The keys with the first one that is not blank marked as a descendant. -/
def markFirst (keys : List String) : List String :=
  match keys.dropWhile isBlank with
  | [] => keys
  | first :: rest => keys.takeWhile isBlank ++ asDescendant first :: rest

/-- The first key that is not blank, if there is one, is markable and below `n` keys at most. -/
def marksWithin (n : Nat) (keys : List String) : Bool :=
  match keys.dropWhile isBlank with
  | [] => true
  | first :: _ => isMarkable first && decide ((keys.takeWhile isBlank).length ≤ n)

theorem isMarkable_of_marksWithin {n : Nat} {keys : List String} (h : marksWithin n keys = true)
    {first : String} {rest : List String} (hfirst : keys.dropWhile isBlank = first :: rest) :
    isMarkable first = true := by
  rw [marksWithin, hfirst] at h
  exact (Bool.and_eq_true_iff.mp h).1

/-- Choices that stand behind `p` for words of their own join to what those words do, behind the
selector of `p`. -/
theorem map_join_product {p : String} {choice : List String} {mark : String → String}
    (h : ∀ a ∈ choice, ∀ words, join (p :: mark a :: words) = behind (join [p]) (join (a :: words)))
    (rest : List (List String)) :
    (product ([p] :: choice.map mark :: rest)).map join =
      ((product (choice :: rest)).map join).map (behind (join [p])) := by
  have hjoin : ∀ a ∈ choice,
      ((product rest).map (mark a :: ·)).map (fun words => join (p :: words)) =
        (((product rest).map (a :: ·)).map join).map (behind (join [p])) := by
    intro a ha
    rw [List.map_map, List.map_map, List.map_map]
    exact List.map_congr_left fun words _ => h a ha words
  have hfront : product ([p] :: choice.map mark :: rest) =
      (choice.flatMap fun a => (product rest).map (mark a :: ·)).map (p :: ·) := by
    rw [product, product, List.flatMap_map]
    exact List.append_nil _
  rw [hfront, product, List.map_map, List.map_flatMap, List.map_flatMap, List.map_flatMap]
  simp only [List.flatMap_def]
  exact congrArg List.flatten (List.map_congr_left hjoin)

theorem alternatives_of_join_ne {p : String} (hcomma : ',' ∉ p.toList) (hp : join [p] ≠ "") :
    alternatives p = [trimmed p] ∧ join [trimmed p] = join [p] := by
  have htrim : trim p.toList ≠ [] := by
    intro h
    rw [join_eq_run, run_cons, h] at hp
    exact hp rfl
  rw [alternatives_of_no_comma hcomma, if_neg htrim, join_eq_run, join_eq_run, run_cons, run_cons,
    trimmed, String.toList_ofList, trim_of_visible (startsVisibly_trim _) (endsVisibly_trim _)]
  exact ⟨rfl, rfl⟩

/-- The choices of a path below `p` join to what those of the path join to, behind `p`, if the first
key that is not blank is marked. -/
theorem joined_markFirst {p : String} (hcomma : ',' ∉ p.toList) (hp : join [p] ≠ "")
    {keys : List String} (hfirst : ∀ first rest, keys.dropWhile isBlank = first :: rest →
      isMarkable first = true) :
    joined (p :: markFirst keys) = (joined keys).map (behind (join [p])) := by
  obtain ⟨halternatives, hsame⟩ := alternatives_of_join_ne hcomma hp
  have hblank : choices (keys.takeWhile isBlank) = [] :=
    choices_of_blank fun key hkey => List.all_eq_true.mp List.all_takeWhile key hkey
  have hkeys : keys.takeWhile isBlank ++ keys.dropWhile isBlank = keys :=
    List.takeWhile_append_dropWhile
  rw [joined, joined, choices_cons (by simp [halternatives]), halternatives,
    ← @Entries.eraseDups_map (behind (join [p])) fun _ _ => behind_inj, markFirst]
  split
  · next hnil =>
    rw [hnil, List.append_nil] at hkeys
    rw [hkeys] at hblank
    have hnothing : behind (join [p]) (join []) = join [p] := rfl
    rw [hblank]
    simp only [product, List.flatMap_cons, List.flatMap_nil, List.append_nil, List.map_cons,
      List.map_nil, hsame, hnothing]
  · next first rest hcons =>
    obtain ⟨hne, hmark⟩ := Bool.and_eq_true_iff.mp (hfirst first rest hcons)
    have hne : alternatives first ≠ [] := by simpa using hne
    have hmarked : alternatives (asDescendant first) ≠ [] := by
      simpa [alternatives_asDescendant] using hne
    have hplain : choices keys = alternatives first :: choices rest := by
      have hsplit := choices_append (keys.takeWhile isBlank) (first :: rest)
      rw [hcons] at hkeys
      rw [hkeys, hblank, List.nil_append, choices_cons hne] at hsplit
      exact hsplit
    have hjoin (a : String) (ha : a ∈ alternatives first) (words : List String) :=
      join_behind (hsame.symm ▸ hp) (isAlternative_of_mem ha)
        (bne_iff_ne.mp (List.all_eq_true.mp hmark a ha)) words
    rw [choices_append, hblank, List.nil_append, choices_cons hmarked, alternatives_asDescendant,
      hplain, map_join_product hjoin, hsame]

/-- The choices of a path below `p` join to what those of the path join to, behind `p`, if the first
key has a mark of its own. -/
theorem joined_of_marked {p : String} (hcomma : ',' ∉ p.toList) (hp : join [p] ≠ "")
    {keys : List String} (hfirst : keys.head?.all isMarked = true) :
    joined (p :: keys) = (joined keys).map (behind (join [p])) := by
  obtain ⟨halternatives, hsame⟩ := alternatives_of_join_ne hcomma hp
  cases keys with
  | nil => exact @joined_markFirst p hcomma hp [] (by simp)
  | cons first rest =>
    have hmarked : isMarked first = true := hfirst
    obtain ⟨hne, hmark⟩ := Bool.and_eq_true_iff.mp hmarked
    have hne : alternatives first ≠ [] := by simpa using hne
    have hjoin (a : String) (ha : a ∈ alternatives first) (words : List String) :
        join (trimmed p :: id a :: words) = behind (join [trimmed p]) (join (a :: words)) := by
      have hvisible := (isAlternative_of_mem ha).visible
      refine join_behind_of_mark (hsame.symm ▸ hp) ?_ words
      rw [id, trim_of_visible hvisible.starts hvisible.ends]
      exact beq_iff_eq.mp (List.all_eq_true.mp hmark a ha)
    have hproduct := map_join_product hjoin (choices rest)
    rw [List.map_id] at hproduct
    rw [joined, joined, choices_cons (by simp [halternatives]), halternatives, choices_cons hne,
      ← @Entries.eraseDups_map (behind (join [p])) fun _ _ => behind_inj, hproduct, hsame]

/-- A path that joins to selectors behind `p` has all of them. -/
theorem ofPath_of_joined {p : String} (hp : join [p] ≠ "") {keys : List String}
    {selectors : List String} (h : joined keys = selectors.map (behind (join [p]))) :
    ofPath keys = selectors.map (behind (join [p])) := by
  rw [ofPath_eq_filter_joined, h, List.filter_eq_self]
  intro s hs
  obtain ⟨t, -, rfl⟩ := List.mem_map.mp hs
  exact bne_iff_ne.mpr (behind_ne_empty hp t)

/-- The selectors of a path below `p` are what its choices join to behind `p`. -/
theorem ofPath_markFirst {p : String} (hcomma : ',' ∉ p.toList) (hp : join [p] ≠ "")
    {keys : List String} (hfirst : ∀ first rest, keys.dropWhile isBlank = first :: rest →
      isMarkable first = true) :
    ofPath (p :: markFirst keys) = (joined keys).map (behind (join [p])) :=
  ofPath_of_joined hp (joined_markFirst hcomma hp hfirst)

/-- A marked key is marked. -/
theorem isMarked_asDescendant {key : String} (h : alternatives key ≠ []) :
    isMarked (asDescendant key) = true := by
  rw [isMarked, alternatives_asDescendant, Bool.and_eq_true]
  refine ⟨by simpa using h, List.all_eq_true.mpr fun a ha => ?_⟩
  obtain ⟨b, -, rfl⟩ := List.mem_map.mp ha
  rw [String.toList_append]
  rfl

end NestedStyles.Selector
