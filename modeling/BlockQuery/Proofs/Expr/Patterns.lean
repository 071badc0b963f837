import Mathlib.Data.List.Forall2
import BlockQuery.Expr.Eval

/-!
# Texts that fit a pattern

A text fits a pattern if it comes from it when each `%` is replaced by some run of characters and
each `_` by one character.  Matching keeps all the tails of a text that may be left after the part
of the pattern that has been read.  It agrees with the regular expression that stands for a pattern,
in which the literals between wildcards are escaped.
-/

namespace BlockQuery

namespace Like

variable {c : Char} {cs text : List Char} {left : List (List Char)}

/-! ## Replacement -/

/-- Whether a piece of text may be put for a character of a pattern. -/
def StandsFor (c : Char) (piece : List Char) : Prop :=
  if c = '%' then True else if c = '_' then piece.length = 1 else piece = [c]

/-- Whether a text comes from a pattern by a replacement of each character. -/
def Derives (pattern text : List Char) : Prop :=
  ∃ pieces : List (List Char), List.Forall₂ StandsFor pattern pieces ∧ pieces.flatten = text

theorem derives_nil_iff : Derives [] text ↔ text = [] := by
  simp [Derives, eq_comm]

theorem derives_cons_iff : Derives (c :: cs) text ↔
    ∃ piece rest, StandsFor c piece ∧ Derives cs rest ∧ piece ++ rest = text := by
  constructor
  · rintro ⟨pieces, hpieces, rfl⟩
    obtain ⟨piece, others, hpiece, hothers, rfl⟩ := List.forall₂_cons_left_iff.mp hpieces
    exact ⟨piece, others.flatten, hpiece, ⟨others, hothers, rfl⟩, rfl⟩
  · rintro ⟨piece, rest, hpiece, ⟨others, hothers, rfl⟩, rfl⟩
    exact ⟨piece :: others, hothers.cons hpiece, rfl⟩

/-! ## Matching -/

theorem afterChar?_eq_some_iff {test : Char → Bool} {l r : List Char} :
    afterChar? test l = some r ↔ ∃ a, test a ∧ l = a :: r := by
  cases l with
  | nil => simp [afterChar?]
  | cons a t => simp [afterChar?]

theorem pairwise_tails (l : List Char) : (tails l).Pairwise fun s t => t <:+ s := by
  induction l with
  | nil => exact List.pairwise_singleton _ _
  | cons a t ih =>
    refine List.pairwise_cons.mpr ⟨fun s hs => ?_, ih⟩
    exact (mem_tails.mp hs).trans (List.suffix_cons a t)

/-- The tails that are kept are tails of each other, so that the longest one stands for all after a
run. -/
theorem pairwise_advance (hleft : left.Pairwise fun s t => t <:+ s) (p : Part) :
    (p.advance left).Pairwise fun s t => t <:+ s := by
  have hafter (test : Char → Bool) :
      (left.filterMap (afterChar? test)).Pairwise fun s t => t <:+ s := by
    refine List.pairwise_filterMap.mpr (hleft.imp ?_)
    intro l m hsuffix s hs t ht
    obtain ⟨a, -, rfl⟩ := afterChar?_eq_some_iff.mp hs
    obtain ⟨b, -, rfl⟩ := afterChar?_eq_some_iff.mp ht
    rcases List.suffix_cons_iff.mp hsuffix with heq | hsuffix
    · cases heq
      exact List.suffix_refl _
    · exact (List.suffix_cons b t).trans hsuffix
  cases p with
  | run =>
    cases left with
    | nil => exact List.Pairwise.nil
    | cons longest others => exact pairwise_tails longest
  | one => exact hafter _
  | char d => exact hafter _

/-- What is left after a character of a pattern is left by some piece that stands for it. -/
theorem mem_advance_iff (hleft : left.Pairwise fun s t => t <:+ s) {rest : List Char} :
    rest ∈ (Part.ofChar c).advance left ↔
      ∃ piece, StandsFor c piece ∧ piece ++ rest ∈ left := by
  unfold Part.ofChar StandsFor
  split
  next =>
    cases left with
    | nil => simp [Part.advance]
    | cons longest others =>
      rw [Part.advance, mem_tails]
      constructor
      · rintro ⟨piece, rfl⟩
        exact ⟨piece, trivial, List.mem_cons_self⟩
      · rintro ⟨piece, -, hmem⟩
        rcases List.mem_cons.mp hmem with rfl | hmem
        · exact List.suffix_append piece rest
        · exact (List.suffix_append piece rest).trans ((List.pairwise_cons.mp hleft).1 _ hmem)
  next =>
    split
    next =>
      simp only [Part.advance, List.mem_filterMap, afterChar?_eq_some_iff, List.length_eq_one_iff]
      constructor
      · rintro ⟨_, hmem, a, -, rfl⟩
        exact ⟨[a], ⟨a, rfl⟩, hmem⟩
      · rintro ⟨_, ⟨a, rfl⟩, hmem⟩
        exact ⟨_, hmem, a, trivial, rfl⟩
    next => simp [Part.advance, afterChar?_eq_some_iff]

theorem nil_mem_foldl_advance_iff (hleft : left.Pairwise fun s t => t <:+ s) :
    [] ∈ (cs.map Part.ofChar).foldl Part.advance left ↔ ∃ text ∈ left, Derives cs text := by
  induction cs generalizing left with
  | nil => simp [derives_nil_iff]
  | cons c cs ih =>
    rw [List.map_cons, List.foldl_cons, ih (pairwise_advance hleft _)]
    simp only [mem_advance_iff hleft, derives_cons_iff]
    constructor
    · rintro ⟨rest, ⟨piece, hpiece, hmem⟩, hrest⟩
      exact ⟨_, hmem, piece, rest, hpiece, hrest, rfl⟩
    · rintro ⟨_, hmem, piece, rest, hpiece, hrest, rfl⟩
      exact ⟨rest, ⟨piece, hpiece, hmem⟩, hrest⟩

theorem accepts_iff_derives {pattern text : String} :
    accepts (parts pattern) text = true ↔ Derives pattern.toList text.toList := by
  have hleft : [text.toList].Pairwise fun s t => t <:+ s := List.pairwise_singleton _ _
  simp only [accepts, parts, List.any_eq_true, List.isEmpty_iff, exists_eq_right,
    nil_mem_foldl_advance_iff hleft, List.mem_singleton, exists_eq_left]

/-! ## Regular expressions -/

/-- The characters that do not stand for themselves in a regular expression. -/
def special : List Char := "\\.+*?()|[]\x7b\x7d^$#&-~".toList

/-- A literal in a regular expression. -/
def escape (literal : List Char) : List Char :=
  literal.flatMap fun c => if c ∈ special then ['\\', c] else [c]

/-- A regular expression as far as it is written, with the literal that comes next. -/
structure Draft where
  written : List Char
  literal : List Char

namespace Draft

def flushed (d : Draft) : List Char := d.written ++ escape d.literal

/-- A wildcard ends the literal before it. -/
def add (d : Draft) (c : Char) : Draft :=
  if c = '%' then ⟨d.flushed ++ ['.', '*'], []⟩
  else if c = '_' then ⟨d.flushed ++ ['.'], []⟩
  else { d with literal := d.literal ++ [c] }

end Draft

/-- At the start of a text, where any character may be a line break. -/
def anchor : List Char := "(?s)^".toList

/-- The regular expression of a pattern. -/
def expression (pattern : String) : String :=
  String.ofList ((pattern.toList.foldl Draft.add ⟨anchor, []⟩).flushed ++ ['$'])

/-- Whether a regular expression of wildcards and literals reads a text to its end. -/
inductive Reads : List Char → List Char → Prop where
  | finish : Reads ['$'] []
  | run {e rest : List Char} (piece : List Char) (h : Reads e rest) :
      Reads ('.' :: '*' :: e) (piece ++ rest)
  | one {e rest : List Char} (c : Char) (h : Reads e rest) : Reads ('.' :: e) (c :: rest)
  | escaped {e rest : List Char} {c : Char} (hc : c ∈ special) (h : Reads e rest) :
      Reads ('\\' :: c :: e) (c :: rest)
  | plain {e rest : List Char} {c : Char} (hc : c ∉ special) (h : Reads e rest) :
      Reads (c :: e) (c :: rest)

/-- Whether a regular expression finds a text from its start. -/
def Finds (e text : String) : Prop := ∃ body, e.toList = anchor ++ body ∧ Reads body text.toList

/-- What is written for a character of a pattern. -/
def written (c : Char) : List Char :=
  if c = '%' then ['.', '*'] else if c = '_' then ['.'] else escape [c]

theorem escape_append (l m : List Char) : escape (l ++ m) = escape l ++ escape m :=
  List.flatMap_append

theorem flushed_add (d : Draft) (c : Char) : (d.add c).flushed = d.flushed ++ written c := by
  unfold Draft.add written
  split
  · exact List.append_nil _
  · split
    · exact List.append_nil _
    · simp only [Draft.flushed, escape_append, List.append_assoc]

/-- Literals are written character by character, wherever they are cut. -/
theorem flushed_foldl_add (d : Draft) :
    (cs.foldl Draft.add d).flushed = d.flushed ++ cs.flatMap written := by
  induction cs generalizing d with
  | nil => exact (List.append_nil _).symm
  | cons c cs ih => rw [List.foldl_cons, ih, flushed_add, List.flatMap_cons, List.append_assoc]

theorem toList_expression (pattern : String) : (expression pattern).toList =
    anchor ++ (pattern.toList.flatMap written ++ ['$']) := by
  rw [expression, String.toList_ofList, flushed_foldl_add, List.append_assoc]
  exact congrArg (· ++ _) (List.append_nil anchor)

/-- What is written starts no repetition of what stands before it. -/
theorem head?_flatMap_written : (cs.flatMap written ++ ['$']).head? ≠ some '*' := by
  cases cs with
  | nil => decide
  | cons c cs =>
    rw [List.flatMap_cons]
    unfold written
    split
    · simp
    · split
      · simp
      · by_cases hc : c ∈ special
        · simp [escape, hc]
        · have hne : c ≠ '*' := fun h => hc (h ▸ by decide)
          simp [escape, hc, hne]

theorem not_reads_of_head? {e : List Char} (he : e.head? = some '*') : ¬Reads e text := by
  intro h
  cases h with
  | plain hc _ => exact hc (Option.some.inj he ▸ by decide)
  | finish | run | one | escaped => exact absurd (Option.some.inj he) (by decide)

theorem reads_run_iff {e : List Char} : Reads ('.' :: '*' :: e) text ↔
    ∃ piece rest, Reads e rest ∧ piece ++ rest = text := by
  constructor
  · intro h
    cases h with
    | run piece h => exact ⟨piece, _, h, rfl⟩
    | one _ h => exact absurd h (not_reads_of_head? rfl)
    | plain hc _ => exact absurd (by decide) hc
  · rintro ⟨piece, rest, h, rfl⟩
    exact h.run piece

theorem reads_one_iff {e : List Char} (he : e.head? ≠ some '*') : Reads ('.' :: e) text ↔
    ∃ a rest, Reads e rest ∧ a :: rest = text := by
  constructor
  · intro h
    cases h with
    | run piece h => exact absurd rfl he
    | one a h => exact ⟨a, _, h, rfl⟩
    | plain hc _ => exact absurd (by decide) hc
  · rintro ⟨a, rest, h, rfl⟩
    exact h.one a

theorem reads_escape_iff {e : List Char} : Reads (escape [c] ++ e) text ↔
    ∃ rest, Reads e rest ∧ c :: rest = text := by
  by_cases hc : c ∈ special
  · simp only [escape, List.flatMap_cons, List.flatMap_nil, hc, if_true, List.append_nil,
      List.cons_append, List.nil_append]
    constructor
    · intro h
      cases h with
      | escaped _ h => exact ⟨_, h, rfl⟩
      | plain hc _ => exact absurd (by decide) hc
    · rintro ⟨rest, h, rfl⟩
      exact h.escaped hc
  · simp only [escape, List.flatMap_cons, List.flatMap_nil, hc, if_false, List.append_nil,
      List.cons_append, List.nil_append]
    constructor
    · intro h
      cases h with
      | plain _ h => exact ⟨_, h, rfl⟩
      | finish | run | one | escaped => exact absurd (by decide) hc
    · rintro ⟨rest, h, rfl⟩
      exact h.plain hc

theorem reads_written_iff {e : List Char} (he : e.head? ≠ some '*') :
    Reads (written c ++ e) text ↔
      ∃ piece rest, StandsFor c piece ∧ Reads e rest ∧ piece ++ rest = text := by
  unfold written StandsFor
  split
  next => simp [reads_run_iff]
  next =>
    split
    next => simp [reads_one_iff he, List.length_eq_one_iff]
    next => simp [reads_escape_iff]

theorem reads_flatMap_iff : Reads (cs.flatMap written ++ ['$']) text ↔ Derives cs text := by
  induction cs generalizing text with
  | nil =>
    rw [derives_nil_iff]
    constructor
    · intro h
      cases h with
      | finish => rfl
      | plain hc _ => exact absurd (by decide) hc
    · rintro rfl
      exact .finish
  | cons c cs ih =>
    rw [List.flatMap_cons, List.append_assoc, derives_cons_iff,
      reads_written_iff head?_flatMap_written]
    simp only [ih]

theorem finds_expression_iff {pattern text : String} :
    Finds (expression pattern) text ↔ Derives pattern.toList text.toList := by
  rw [Finds, toList_expression]
  constructor
  · rintro ⟨body, hbody, h⟩
    rw [← List.append_cancel_left hbody] at h
    exact reads_flatMap_iff.mp h
  · intro h
    exact ⟨_, rfl, reads_flatMap_iff.mpr h⟩

example : expression "a.%_" = "(?s)^a\\..*.$" := by decide +kernel

end Like

/-! ## Expressions -/

/-- A text is like a pattern if it comes from it by replacement of the wildcards, which is if the
regular expression of the pattern finds it, and is not like it otherwise.  Of a null neither is
known. -/
theorem Expr.like_iff_derives {schema : Schema} {inner : Expr} {pattern : String} {i : BoundExpr}
    (hinner : inner.bind schema = .ok i) (hfits : Like.fits (Like.parts pattern)) :
    ∃ alike unlike : BoundExpr,
      (Expr.like inner pattern false).bind schema = .ok alike ∧
      (Expr.like inner pattern true).bind schema = .ok unlike ∧
      (∀ row text, i.eval row = .ok (.text text) → ∃ b,
        alike.eval row = .ok (.bool b) ∧ unlike.eval row = .ok (.bool !b) ∧
        (b = true ↔ Like.Derives pattern.toList text.toList) ∧
        (b = true ↔ Like.Finds (Like.expression pattern) text)) ∧
      ∀ row, i.eval row = .ok .null →
        alike.eval row = .ok .null ∧ unlike.eval row = .ok .null := by
  have hbind (negated : Bool) : (Expr.like inner pattern negated).bind schema =
      .ok (.like i (Like.parts pattern) negated) := by
    simp only [Expr.bind, hinner, if_pos hfits]
    rfl
  refine ⟨_, _, hbind false, hbind true, fun row text htext => ?_, fun row hnull => ?_⟩
  · refine ⟨Like.accepts (Like.parts pattern) text, ?_, ?_, Like.accepts_iff_derives,
      Like.accepts_iff_derives.trans Like.finds_expression_iff.symm⟩
    · simp only [BoundExpr.eval, htext, Bool.bne_false]
      rfl
    · simp only [BoundExpr.eval, htext, Bool.bne_true]
      rfl
  · rw [BoundExpr.eval, BoundExpr.eval, hnull]
    exact ⟨rfl, rfl⟩

/-- A line break is one character, and a stop in a pattern is only a stop. -/
theorem Expr.like_of_line_break : ∃ alike : BoundExpr,
    (Expr.like (.column "s") "a.%_" false).bind [⟨"s", .text⟩] = .ok alike ∧
    alike.eval [.text "a.$\n"] = .ok (.bool true) ∧
    alike.eval [.text "ax$\n"] = .ok (.bool false) ∧ alike.eval [.null] = .ok .null := by
  have hcolumn : (Expr.column "s").bind [⟨"s", .text⟩] = .ok (.column 0 "s") := rfl
  have hfits : Like.fits (Like.parts "a.%_") = true := by decide
  obtain ⟨alike, unlike, hbind, -, htext, hnull⟩ := Expr.like_iff_derives hcolumn hfits
  refine ⟨alike, hbind, ?_, ?_, (hnull [.null] rfl).1⟩
  · obtain ⟨b, hb, -, hderives, -⟩ := htext [.text "a.$\n"] _ rfl
    rw [hb, hderives.mpr ⟨[['a'], ['.'], ['$'], ['\n']], by simp [Like.StandsFor], rfl⟩]
  · obtain ⟨b, hb, -, hderives, -⟩ := htext [.text "ax$\n"] _ rfl
    cases b with
    | false => exact hb
    | true =>
      obtain ⟨pieces, hpieces, hflat⟩ := hderives.mp rfl
      simp only [String.reduceToList, List.forall₂_cons_left_iff, Like.StandsFor] at hpieces
      obtain ⟨_, _, rfl, ⟨_, _, rfl, _, rfl⟩, rfl⟩ := hpieces
      cases hflat

end BlockQuery
