import BlockQuery.Proofs.Except
import BlockQuery.Proofs.Plan.Relation

/-!
# Widths of relations

Rows that are as wide as their schema stay so under all operations, and the
rows of projections and groupings always are.
-/

namespace BlockQuery

namespace RowSource

theorem mem_of_keep {test : Row → Except EvalError Bool} {rows kept : List Row}
    (h : keep test rows = some kept) : ∀ row ∈ kept, row ∈ rows := by
  obtain ⟨-, rfl⟩ := keep_eq_some h
  exact fun row => List.mem_of_mem_filter

theorem length_of_projected {targets : List BoundExpr} {rows found : List Row}
    (h : projected targets rows = some found) : ∀ row ∈ found, row.length = targets.length := by
  induction rows generalizing found with
  | nil =>
    cases h
    exact nofun
  | cons row rows ih =>
    rw [projected, List.mapM_cons] at h
    obtain ⟨values, hvalues, h⟩ := Option.bind_eq_some_iff.mp h
    obtain ⟨rest, hrest, h⟩ := Option.bind_eq_some_iff.mp h
    cases h
    have hlength := Except.length_mapM (Except.toOption_eq_some.mp hvalues)
    exact List.forall_mem_cons.mpr ⟨hlength, ih hrest⟩

section Joined

variable {type : JoinType} {condition : Option BoundExpr} {width leftWidth : ℕ}
  {rights lefts found : List Row} {row : Row}

theorem length_of_partners (h : partners condition rights row = some found)
    (hright : ∀ right ∈ rights, right.length = width) :
    ∀ joined ∈ found, joined.length = row.length + width := by
  intro joined hjoined
  obtain ⟨right, hmem, rfl⟩ := List.mem_map.mp (mem_of_keep h joined hjoined)
  rw [List.length_append, hright right hmem]

theorem length_of_joined (h : joined type condition width rights lefts = some found)
    (hleft : ∀ left ∈ lefts, left.length = leftWidth)
    (hright : ∀ right ∈ rights, right.length = width) :
    ∀ row ∈ found, row.length = leftWidth + width := by
  induction lefts generalizing found with
  | nil =>
    cases h
    exact nofun
  | cons left lefts ih =>
    obtain ⟨hhead, htail⟩ := List.forall_mem_cons.mp hleft
    rw [joined] at h
    obtain ⟨some', hpartners, h⟩ := Option.bind_eq_some_iff.mp h
    obtain ⟨rest, hrest, rfl⟩ := Option.map_eq_some_iff.mp h
    intro row hrow
    rcases List.mem_append.mp hrow with hrow | hrow
    · rw [padded] at hrow
      split at hrow
      · rw [List.mem_singleton.mp hrow, List.length_append, Row.nulls, List.length_replicate, hhead]
      · rw [length_of_partners hpartners hright row hrow, hhead]
    · exact ih hrest htail row hrow

end Joined

section Grouped

variable {keys : List ℕ} {aggregates : List BoundAggregate} {row : Row} {n : ℕ}

/-- Whether groups have keys of some width, and an accumulator for each aggregate. -/
def Shaped (keys : List ℕ) (aggregates : List BoundAggregate) (gs : List Group) : Prop :=
  ∀ g ∈ gs, g.key.length = keys.length ∧ g.accumulators.length = aggregates.length

theorem length_feedAll {accs fed : List Accumulator}
    (h : BoundAggregate.feedAll row aggregates accs = .ok fed)
    (hlength : accs.length = aggregates.length) : fed.length = aggregates.length := by
  induction aggregates generalizing accs fed with
  | nil =>
    cases accs with
    | nil =>
      cases h
      rfl
    | cons => cases hlength
  | cons a as ih =>
    cases accs with
    | nil => cases hlength
    | cons acc accs =>
      obtain ⟨first, -, h⟩ := Except.bind_eq_ok.mp h
      obtain ⟨rest, hrest, h⟩ := Except.bind_eq_ok.mp h
      cases h
      rw [List.length_cons, List.length_cons, ih hrest (Nat.succ.inj hlength)]

theorem shaped_feed {g fed : Group} (h : g.feed aggregates row = .ok fed)
    (hg : g.key.length = keys.length ∧ g.accumulators.length = aggregates.length) :
    fed.key.length = keys.length ∧ fed.accumulators.length = aggregates.length := by
  obtain ⟨accs, haccs, rfl⟩ := Except.map_eq_ok.mp h
  exact ⟨hg.1, length_feedAll haccs hg.2⟩

theorem shaped_absorb {key : Row} {tag : Bytes} {gs gs' : List Group}
    (h : Group.absorb aggregates row key tag gs = .ok gs') (hkey : key.length = keys.length)
    (hgs : Shaped keys aggregates gs) : Shaped keys aggregates gs' := by
  induction gs generalizing gs' with
  | nil =>
    obtain ⟨g, hg, rfl⟩ := Except.map_eq_ok.mp h
    have hfresh := shaped_feed hg ⟨hkey, List.length_map _⟩
    exact List.forall_mem_cons.mpr ⟨hfresh, nofun⟩
  | cons g gs ih =>
    obtain ⟨hhead, htail⟩ := List.forall_mem_cons.mp hgs
    rw [Group.absorb] at h
    split at h
    · obtain ⟨fed, hfed, rfl⟩ := Except.map_eq_ok.mp h
      exact List.forall_mem_cons.mpr ⟨shaped_feed hfed hhead, htail⟩
    · obtain ⟨rest, hrest, rfl⟩ := Except.map_eq_ok.mp h
      exact List.forall_mem_cons.mpr ⟨hhead, ih hrest htail⟩

theorem shaped_foldlM {rows : List Row} {gs gs' : List Group}
    (h : rows.foldlM (fun gs row => grouped keys aggregates row gs) gs = .ok gs')
    (hgs : Shaped keys aggregates gs) : Shaped keys aggregates gs' := by
  induction rows generalizing gs with
  | nil =>
    cases h
    exact hgs
  | cons row rows ih =>
    rw [List.foldlM_cons] at h
    obtain ⟨next, hnext, h⟩ := Except.bind_eq_ok.mp h
    have habsorb := Except.mapError_eq_ok.mp hnext
    exact ih h (shaped_absorb habsorb (Row.length_select row keys) hgs)

theorem length_of_groupsOf {rows found : List Row}
    (h : groupsOf keys aggregates rows = some found) :
    ∀ row ∈ found, row.length = keys.length + aggregates.length := by
  obtain ⟨gs, hgs, rfl⟩ := Option.map_eq_some_iff.mp h
  have hshaped := shaped_foldlM (Except.toOption_eq_some.mp hgs) nofun
  intro row hrow
  rw [groupRows] at hrow
  split at hrow
  next hempty =>
    rw [Bool.and_eq_true, List.isEmpty_iff, List.isEmpty_iff] at hempty
    rw [List.mem_singleton.mp hrow, hempty.2, Group.result, Group.fresh, List.nil_append,
      List.length_map, List.length_map, List.length_nil, Nat.zero_add]
  next =>
    obtain ⟨g, hg, rfl⟩ := List.mem_map.mp hrow
    obtain ⟨hkey, haccs⟩ := hshaped g hg
    rw [Group.result, List.length_append, List.length_map, hkey, haccs]

end Grouped

end RowSource

namespace Relation

variable {r l found : Relation}

theorem Wide.select? (h : r.Wide) {predicate : Expr} (hr : r.select? predicate = some found) :
    found.Wide := by
  obtain ⟨b, -, hb⟩ := Option.bind_eq_some_iff.mp hr
  obtain ⟨rows, hkeep, rfl⟩ := Option.map_eq_some_iff.mp hb
  exact fun row hrow => h row (RowSource.mem_of_keep hkeep row hrow)

theorem wide_of_project? {targets : List Target} (hr : r.project? targets = some found) :
    found.Wide := by
  obtain ⟨exprs, hexprs, hb⟩ := Option.bind_eq_some_iff.mp hr
  obtain ⟨rows, hrows, rfl⟩ := Option.map_eq_some_iff.mp hb
  intro row hrow
  rw [RowSource.length_of_projected hrows row hrow, List.length_map,
    Except.length_mapM (Except.toOption_eq_some.mp hexprs)]

theorem Wide.join? (hl : l.Wide) (h : r.Wide) {type : JoinType} {condition : Option Expr}
    (hr : Relation.join? type condition l r = some found) : found.Wide := by
  obtain ⟨b, -, hb⟩ := Option.bind_eq_some_iff.mp hr
  obtain ⟨rows, hrows, rfl⟩ := Option.map_eq_some_iff.mp hb
  intro row hrow
  rw [RowSource.length_of_joined hrows hl h row hrow, List.length_append]

theorem Wide.sort? (h : r.Wide) {specs : List SortSpec} (hr : r.sort? specs = some found) :
    found.Wide := by
  obtain ⟨order, -, rfl⟩ := Option.map_eq_some_iff.mp hr
  exact fun row hrow => h row (List.mem_mergeSort.mp hrow)

theorem wide_of_group? {keys : List String} {aggregates : List Aggregate} {out : Schema}
    (hr : r.group? keys aggregates out = some found) : found.Wide := by
  obtain ⟨parts, hparts, hb⟩ := Option.bind_eq_some_iff.mp hr
  obtain ⟨rows, hrows, rfl⟩ := Option.map_eq_some_iff.mp hb
  have hlength : parts.1.length + parts.2.length = out.length := by
    have hok := Except.toOption_eq_some.mp hparts
    obtain ⟨positions, hpositions, hok⟩ := Except.bind_eq_ok.mp hok
    obtain ⟨accumulated, haccumulated, hok⟩ := Except.bind_eq_ok.mp hok
    by_cases hout : out.length ≠ keys.length + aggregates.length
    · rw [if_pos hout] at hok
      cases hok
    · rw [if_neg hout] at hok
      cases hok
      rw [Except.length_mapM hpositions, Except.length_mapM haccumulated, not_not.mp hout]
  intro row hrow
  rw [RowSource.length_of_groupsOf hrows row hrow, hlength]

end Relation

end BlockQuery
