import Mathlib.Data.List.TakeWhile
import Mathlib.Tactic
import BlockQuery.Path

/-!
# Names below a directory

A path that joins a name to a directory is followed as the directory's own
names and then that name.  The path above it is the directory's path, up to
slashes and single dots at its end, which lead nowhere.
-/

namespace BlockQuery.Path

theorem split_append_slash (a b : List Char) :
    split (String.ofList (a ++ '/' :: b)) =
      split (String.ofList a) ++ split (String.ofList b) := by
  simp only [split, String.toList_ofList, List.splitOn_eq_splitOnP]
  rw [List.splitOnP_append_cons a b (by simp), List.map_append]

theorem split_ofList_of_notMem {cs : List Char} (h : '/' ∉ cs) :
    split (String.ofList cs) = [String.ofList cs] := by
  rw [split, String.toList_ofList, List.splitOn_eq_singleton h]
  rfl

theorem split_ne_nil (path : String) : split path ≠ [] := by
  simp [split]

theorem start_of_rooted {path : String} {names : List String} (h : split path = "" :: names) :
    start path = (["/"], names) := by
  unfold start
  rw [h]
  rfl

theorem start_of_split_cons {path name : String} {names : List String}
    (h : split path = name :: names) (hne : name ≠ "") :
    start path = if name.startsWith "$" then ([name], names) else (["."], name :: names) := by
  unfold start
  rw [h]
  split
  next heq => exact absurd (List.cons.inj heq).1 hne
  next heq =>
    obtain ⟨rfl, rfl⟩ := List.cons.inj heq
    rfl
  next heq => cases heq

/-- More names at the end of a path are followed after the ones before. -/
theorem start_of_split {path other : String} {more : List String}
    (h : split other = split path ++ more) :
    start other = ((start path).1, (start path).2 ++ more) := by
  cases hs : split path with
  | nil => exact absurd hs (split_ne_nil path)
  | cons name names =>
    rw [hs, List.cons_append] at h
    rcases eq_or_ne name "" with rfl | hne
    · rw [start_of_rooted h, start_of_rooted hs]
    · rw [start_of_split_cons h hne, start_of_split_cons hs hne]
      split <;> rfl

/-- A text that can be the last name of a path that leads downwards. -/
structure IsName (child : String) : Prop where
  notMem : '/' ∉ child.toList
  ne_empty : child ≠ ""
  ne_dot : child ≠ "."
  ne_dots : child ≠ ".."

/-- What stands before the slash in front of a joined name. -/
def stem (dir : String) : List Char :=
  if dir.toList.getLast? = some '/' then dir.toList.dropLast else dir.toList

theorem stem_cases (dir : String) :
    dir.toList = stem dir ∨ dir.toList = stem dir ++ ['/'] := by
  unfold stem
  split
  next h => exact Or.inr (List.dropLast_append_getLast? '/' h).symm
  next => exact Or.inl rfl

theorem stem_prefix (dir : String) : stem dir <+: dir.toList := by
  rcases stem_cases dir with h | h
  · rw [← h]
  · exact ⟨['/'], h.symm⟩

theorem endsWith_slash_iff (path : String) :
    path.endsWith "/" = true ↔ path.toList.getLast? = some '/' := by
  rw [← String.endsWith_toSlice, String.Slice.endsWith_string_iff, String.copy_toSlice]
  constructor
  · rintro ⟨pre, h⟩
    rw [← h]
    simp
  · intro h
    exact ⟨path.toList.dropLast, List.dropLast_append_getLast? '/' h⟩

theorem join_eq {dir child : String} (hdir : dir ≠ "") (hchild : IsName child) :
    join dir child = String.ofList (stem dir ++ '/' :: child.toList) := by
  have hstart : child.startsWith "/" = false := by
    rw [String.startsWith_string_eq_false_iff]
    rintro ⟨rest, h⟩
    exact hchild.notMem (h ▸ by simp)
  have hempty : dir.isEmpty = false := by simpa using hdir
  apply String.toList_injective
  rw [join, hstart, hempty, String.toList_ofList]
  by_cases hlast : dir.toList.getLast? = some '/'
  · have hends : dir.endsWith "/" = true := (endsWith_slash_iff dir).mpr hlast
    have hdir' := List.dropLast_append_getLast? '/' hlast
    simp only [Bool.or_self, Bool.false_eq_true, if_false, hends, if_true, String.toList_append,
      stem, hlast]
    rw [← hdir']
    simp
  · have hends : dir.endsWith "/" = false := by
      rw [Bool.eq_false_iff]
      exact fun h => hlast ((endsWith_slash_iff dir).mp h)
    simp only [Bool.or_self, Bool.false_eq_true, if_false, hends, String.toList_append, stem, hlast]
    simp

theorem split_child {child : String} (hchild : IsName child) : split child = [child] := by
  have h := split_ofList_of_notMem hchild.notMem
  rwa [String.ofList_toList] at h

/-- The names of a joined path are those of the stem and then the last one. -/
theorem split_join {dir child : String} (hdir : dir ≠ "") (hchild : IsName child) :
    split (join dir child) = split (String.ofList (stem dir)) ++ [child] := by
  rw [join_eq hdir hchild, split_append_slash, String.ofList_toList, split_child hchild]

theorem split_dir (dir : String) :
    split dir = split (String.ofList (stem dir)) ∨
      split dir = split (String.ofList (stem dir)) ++ [""] := by
  rcases stem_cases dir with h | h
  · left
    rw [← h, String.ofList_toList]
  · right
    have hdir : dir = String.ofList (stem dir ++ '/' :: []) := by
      rw [← h, String.ofList_toList]
    conv_lhs => rw [hdir]
    rw [split_append_slash]
    rfl

theorem not_endsWith_slash_join {dir child : String} (hdir : dir ≠ "") (hchild : IsName child) :
    (join dir child).endsWith "/" = false := by
  rw [Bool.eq_false_iff]
  intro h
  rw [endsWith_slash_iff, join_eq hdir hchild, String.toList_ofList] at h
  have hne : child.toList ≠ [] := by simpa using hchild.ne_empty
  rw [List.getLast?_append, List.getLast?_cons_of_ne_nil hne,
    List.getLast?_eq_some_getLast hne, Option.some_or] at h
  exact hchild.notMem (Option.some.inj h ▸ List.getLast_mem hne)

/-! ## The last name -/

/-- Induct on the characters; only a slash or nothing leaves an empty last name. -/
theorem getLast?_splitOn {cs : List Char} (h : (cs.splitOn '/').getLast? = some []) :
    cs = [] ∨ cs.getLast? = some '/' := by
  induction cs with
  | nil => exact Or.inl rfl
  | cons c cs ih =>
    right
    rw [List.splitOn_cons_eq_if_modifyHead] at h
    split at h
    next hc =>
      have hc' : c = '/' := by simpa using hc
      rw [List.getLast?_cons_of_ne_nil (List.splitOn_ne_nil '/' cs)] at h
      rcases ih h with rfl | hlast
      · simp [hc']
      · rw [List.getLast?_cons, hlast]
        rfl
    next =>
      cases hs : cs.splitOn '/' with
      | nil => exact absurd hs (List.splitOn_ne_nil '/' cs)
      | cons x xs =>
        rw [hs] at h ih
        cases xs with
        | nil => simp at h
        | cons y ys =>
          rw [List.modifyHead_cons, List.getLast?_cons_of_ne_nil (List.cons_ne_nil y ys)] at h
          rw [List.getLast?_cons_of_ne_nil (List.cons_ne_nil y ys)] at ih
          rcases ih h with rfl | hlast
          · simp at hs
          · rw [List.getLast?_cons, hlast]
            rfl

theorem getLast?_start {path : String} (hne : path ≠ "") (hslash : path.endsWith "/" = false) :
    (start path).2.getLast? ≠ some "" := by
  have hsplit : (split path).getLast? ≠ some "" := by
    intro h
    rw [split, List.getLast?_map] at h
    obtain ⟨cs, hcs, hempty⟩ := Option.map_eq_some_iff.mp h
    have hnil : cs = [] := by simpa using hempty
    rcases getLast?_splitOn (hnil ▸ hcs) with hnil | hlast
    · exact hne (by simpa using hnil)
    · rw [(endsWith_slash_iff path).mpr hlast] at hslash
      cases hslash
  cases hs : split path with
  | nil => exact absurd hs (split_ne_nil path)
  | cons name names =>
    have htail : names.getLast? ≠ some "" := by
      intro h
      rw [hs, List.getLast?_cons, h] at hsplit
      exact hsplit rfl
    rcases eq_or_ne name "" with rfl | hname
    · rw [start_of_rooted hs]
      exact htail
    · rw [start_of_split_cons hs hname]
      split
      · exact htail
      · exact hs ▸ hsplit

theorem backwards_eq {path : String} (hne : path ≠ "") (hslash : path.endsWith "/" = false) :
    backwards path = ((start path).1, (start path).2.reverse) := by
  have hlast := getLast?_start hne hslash
  rw [← List.head?_reverse] at hlast
  rw [backwards]
  cases hs : (start path).2.reverse with
  | nil => simp [hs]
  | cons name names =>
    have hname : name.isEmpty = false := by
      rw [hs] at hlast
      simpa using hlast
    simp [hs, hname]

/-! ## The path above a joined path -/

/-- A name that leads nowhere. -/
def IsBlank (name : String) : Prop := name = "" ∨ name = "."

/-- The names that are followed backwards are those of the path up to blanks at its end. -/
theorem exists_backwards (path : String) : ∃ blanks : List String,
    (∀ name ∈ blanks, IsBlank name) ∧
      (start path).2 = (backwards path).2.reverse ++ blanks := by
  refine ⟨((start path).2.reverse.takeWhile String.isEmpty).reverse, ?_, ?_⟩
  · intro name hname
    have hempty := List.mem_takeWhile_imp (List.mem_reverse.mp hname)
    exact Or.inl (by simpa using hempty)
  · change _ = ((start path).2.reverse.dropWhile String.isEmpty).reverse ++ _
    rw [← List.reverse_append, List.takeWhile_append_dropWhile, List.reverse_reverse]

/-- What is cut off at the end of a path are names that lead nowhere. -/
theorem split_trimEnd (cs : List Char) :
    ∃ blanks : List String, (∀ name ∈ blanks, IsBlank name) ∧
      split (String.ofList cs.reverse) =
        split (String.ofList (trimEnd cs).reverse) ++ blanks := by
  fun_induction trimEnd cs with
  | case1 cs ih =>
    obtain ⟨blanks, hblanks, h⟩ := ih
    refine ⟨blanks ++ [""], ?_, ?_⟩
    · intro name hname
      rcases List.mem_append.mp hname with hname | hname
      · exact hblanks name hname
      · exact Or.inl (List.mem_singleton.mp hname)
    · rw [List.reverse_cons, split_append_slash, h, List.append_assoc]
      rfl
  | case2 cs ih =>
    obtain ⟨blanks, hblanks, h⟩ := ih
    refine ⟨blanks ++ ["."], ?_, ?_⟩
    · intro name hname
      rcases List.mem_append.mp hname with hname | hname
      · exact hblanks name hname
      · exact Or.inr (List.mem_singleton.mp hname)
    · have hrev : ('.' :: '/' :: cs).reverse = cs.reverse ++ '/' :: ['.'] := by simp
      rw [hrev, split_append_slash, h, List.append_assoc]
      rfl
  | case3 cs => exact ⟨[], by simp, by simp⟩

theorem trimEnd_suffix (cs : List Char) : trimEnd cs <:+ cs := by
  fun_induction trimEnd cs with
  | case1 cs ih => exact ih.trans (List.suffix_cons '/' cs)
  | case2 cs ih => exact ih.trans ⟨['.', '/'], rfl⟩
  | case3 cs => exact List.suffix_refl cs

/-- The path above a joined path: the root, or the stem without blanks at its end. -/
theorem parent?_join {dir child : String} (hdir : dir ≠ "") (hchild : IsName child)
    (hlast : child.toList.getLast? ≠ some '.') :
    parent? (join dir child) = some (match trimEnd (stem dir).reverse with
      | [] => "/"
      | cs => String.ofList cs.reverse) := by
  have hne : child.toList ≠ [] := by simpa using hchild.ne_empty
  obtain ⟨init, c, hc⟩ : ∃ init c, child.toList = init ++ [c] :=
    ⟨_, _, (List.dropLast_append_getLast hne).symm⟩
  have hslash : ∀ x ∈ init.reverse, (x != '/') = true := by
    intro x hx
    have hmem : x ∈ child.toList := hc ▸ List.mem_append_left _ (List.mem_reverse.mp hx)
    have hne : x ≠ '/' := fun h => hchild.notMem (h ▸ hmem)
    simpa using hne
  have hcs : c ≠ '/' := fun h => hchild.notMem (by rw [hc, h]; simp)
  have hcd : c ≠ '.' := fun h => hlast (by rw [hc, h]; simp)
  have hrev : (join dir child).toList.reverse =
      c :: (init.reverse ++ '/' :: (stem dir).reverse) := by
    rw [join_eq hdir hchild, String.toList_ofList, hc]
    simp
  have htrim : trimEnd (c :: (init.reverse ++ '/' :: (stem dir).reverse)) =
      c :: (init.reverse ++ '/' :: (stem dir).reverse) := by
    rw [trimEnd]
    · exact fun _ h => hcs (List.cons.inj h).1
    · exact fun _ h => hcd (List.cons.inj h).1
  have habove : (c :: (init.reverse ++ '/' :: (stem dir).reverse)).dropWhile (· != '/') =
      '/' :: (stem dir).reverse := by
    rw [List.dropWhile_cons_of_pos (by simpa using hcs), List.dropWhile_append_of_pos hslash]
    simp
  rw [parent?, hrev, htrim]
  dsimp only
  rw [habove, List.isEmpty_cons, trimEnd]
  simp only [Bool.false_eq_true, if_false]
  cases trimEnd (stem dir).reverse <;> rfl

/-! ## Names in the working directory -/

/-- A name that can be asked for as a path of its own, in the working directory. -/
structure IsAlone (name : String) : Prop extends IsName name where
  head : name.toList.head? ≠ some '$'
  nul : '\x00' ∉ name.toList
  small : name.utf8ByteSize ≤ maxNameLength

namespace IsAlone

variable {name : String}

theorem start (h : IsAlone name) : start name = (["."], [name]) := by
  have hdollar : name.startsWith "$" = false := by
    rw [String.startsWith_string_eq_false_iff]
    rintro ⟨rest, hrest⟩
    exact h.head (hrest ▸ rfl)
  rw [start_of_split_cons (split_child h.toIsName) h.ne_empty, hdollar]
  rfl

theorem not_endsWith_slash (h : IsAlone name) : name.endsWith "/" = false := by
  rw [Bool.eq_false_iff, ne_eq, endsWith_slash_iff]
  exact fun hlast => h.notMem (List.mem_of_getLast? hlast)

theorem backwards (h : IsAlone name) : backwards name = (["."], [name]) := by
  rw [backwards_eq h.ne_empty h.not_endsWith_slash, h.start]
  rfl

end IsAlone

end BlockQuery.Path
