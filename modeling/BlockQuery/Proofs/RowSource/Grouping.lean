import BlockQuery.Proofs.RowSource.Accumulation
import BlockQuery.Proofs.RowSource.Outcome

/-!
# The groups of a list of rows

Rows are in one group if their keys are stored alike.  A group is known by the first of its rows,
and the groups are in the order of these.  Along the rows each group keeps, for every aggregate, the
accumulator of its own rows in their order.
-/

namespace BlockQuery

/-! ## First elements -/

section Firsts

variable {α β : Type} [DecidableEq β] {f : α → β} {xs : List α} {x : α}

/-- The elements that are the first with their value of a function. -/
def firsts (f : α → β) (xs : List α) : List α := xs.eraseDupsBy fun a b => f a == f b

theorem firsts_cons (f : α → β) (a : α) (xs : List α) :
    firsts f (a :: xs) = a :: firsts f (xs.filter fun b => f b ≠ f a) := by
  rw [firsts, List.eraseDupsBy_cons, firsts]
  congr 2
  exact List.filter_congr fun b _ => by simp

theorem eraseDupsBy_congr {r s : α → α → Bool} {xs : List α}
    (h : ∀ a ∈ xs, ∀ b ∈ xs, r a b = s a b) : xs.eraseDupsBy r = xs.eraseDupsBy s := by
  induction hn : xs.length using Nat.strong_induction_on generalizing xs with
  | _ n ih =>
    cases xs with
    | nil => rfl
    | cons a xs =>
      have hlt : (xs.filter fun b => s b a = false).length < n :=
        hn ▸ Nat.lt_succ_of_le (List.length_filter_le _ xs)
      have hfilter : (xs.filter fun b => r b a = false) = xs.filter fun b => s b a = false :=
        List.filter_congr fun b hb => by rw [h b (List.mem_cons_of_mem a hb) a List.mem_cons_self]
      rw [List.eraseDupsBy_cons, List.eraseDupsBy_cons, hfilter]
      refine congrArg (a :: ·) (ih _ hlt (fun b hb c hc => ?_) rfl)
      exact h b (List.mem_cons_of_mem a (List.mem_of_mem_filter hb)) c
        (List.mem_cons_of_mem a (List.mem_of_mem_filter hc))

/-- An element behind all others is kept if none of them is alike. -/
theorem firsts_concat (f : α → β) (xs : List α) (x : α) :
    firsts f (xs ++ [x]) = firsts f xs ++ if ∃ y ∈ xs, f y = f x then [] else [x] := by
  induction hn : xs.length using Nat.strong_induction_on generalizing xs with
  | _ n ih =>
    cases xs with
    | nil =>
      rw [if_neg (by simp)]
      rfl
    | cons a xs =>
      have hlt : (xs.filter fun b => f b ≠ f a).length < n :=
        hn ▸ Nat.lt_succ_of_le (List.length_filter_le _ xs)
      have hall := ih _ hlt (xs.filter fun b => f b ≠ f a) rfl
      rw [List.cons_append, firsts_cons, firsts_cons, List.filter_append]
      by_cases hx : f x = f a
      · rw [List.filter_cons_of_neg (by simpa using hx), List.filter_nil, List.append_nil,
          if_pos ⟨a, List.mem_cons_self, hx.symm⟩, List.append_nil]
      · have hiff : (∃ y ∈ xs.filter fun b => f b ≠ f a, f y = f x) ↔
            ∃ y ∈ a :: xs, f y = f x := by
          constructor
          · rintro ⟨y, hy, heq⟩
            exact ⟨y, List.mem_cons_of_mem a (List.mem_of_mem_filter hy), heq⟩
          · rintro ⟨y, hy, heq⟩
            rcases List.mem_cons.mp hy with rfl | hy
            · exact absurd heq.symm hx
            · exact ⟨y, List.mem_filter.mpr ⟨hy, decide_eq_true (heq ▸ hx)⟩, heq⟩
        rw [List.filter_cons_of_pos (by simpa using hx), List.filter_nil, hall, List.cons_append]
        simp only [hiff]

theorem mem_of_mem_firsts : ∀ {x}, x ∈ firsts f xs → x ∈ xs := by
  induction xs using List.reverseRecOn with
  | nil => exact id
  | append_singleton xs y ih =>
    intro x hx
    rw [firsts_concat, List.mem_append] at hx
    rcases hx with hx | hx
    · exact List.mem_append_left _ (ih hx)
    · split at hx
      · exact absurd hx List.not_mem_nil
      · exact List.mem_append_right _ hx

theorem exists_mem_firsts : ∀ x ∈ xs, ∃ y ∈ firsts f xs, f y = f x := by
  induction xs using List.reverseRecOn with
  | nil => exact fun x hx => absurd hx List.not_mem_nil
  | append_singleton xs z ih =>
    have hold : ∀ x ∈ xs, ∃ y ∈ firsts f (xs ++ [z]), f y = f x := by
      intro x hx
      obtain ⟨y, hy, heq⟩ := ih x hx
      exact ⟨y, by rw [firsts_concat]; exact List.mem_append_left _ hy, heq⟩
    rw [List.forall_mem_append, List.forall_mem_singleton]
    refine ⟨hold, ?_⟩
    by_cases hz : ∃ y ∈ xs, f y = f z
    · obtain ⟨x, hx, heq⟩ := hz
      obtain ⟨y, hy, hyx⟩ := hold x hx
      exact ⟨y, hy, hyx.trans heq⟩
    · rw [firsts_concat, if_neg hz]
      exact ⟨z, List.mem_append_right _ (List.mem_singleton_self z), rfl⟩

theorem exists_mem_firsts_iff {z : β} : (∃ y ∈ firsts f xs, f y = z) ↔ ∃ x ∈ xs, f x = z := by
  constructor
  · rintro ⟨y, hy, heq⟩
    exact ⟨y, mem_of_mem_firsts hy, heq⟩
  · rintro ⟨x, hx, rfl⟩
    exact exists_mem_firsts x hx

theorem pairwise_firsts (f : α → β) (xs : List α) :
    (firsts f xs).Pairwise fun a b => f a ≠ f b := by
  induction xs using List.reverseRecOn with
  | nil => exact List.Pairwise.nil
  | append_singleton xs z ih =>
    rw [firsts_concat]
    split
    next => rwa [List.append_nil]
    next hz =>
      refine List.pairwise_append.mpr ⟨ih, List.pairwise_singleton _ _, fun a ha b hb heq => ?_⟩
      obtain rfl := List.mem_singleton.mp hb
      exact hz ⟨a, mem_of_mem_firsts ha, heq⟩

end Firsts

/-! ## Groups -/

/-- The key of a row as it is stored. -/
def storedKey (keys : List ℕ) (row : Row) : Bytes := (row.select keys).encode

/-- The rows with the key of a given one. -/
def groupOf (keys : List ℕ) (rows : List Row) (row : Row) : List Row :=
  rows.filter fun r => storedKey keys r = storedKey keys row

section Members

variable {keys : List ℕ} {rows : List Row} {row leader : Row}

theorem groupOf_concat_of_eq (h : storedKey keys row = storedKey keys leader) :
    groupOf keys (rows ++ [row]) leader = groupOf keys rows leader ++ [row] := by
  rw [groupOf, List.filter_append, List.filter_cons_of_pos (by simpa using h)]
  rfl

theorem groupOf_concat_of_ne (h : storedKey keys row ≠ storedKey keys leader) :
    groupOf keys (rows ++ [row]) leader = groupOf keys rows leader := by
  rw [groupOf, List.filter_append, List.filter_cons_of_neg (by simpa using h)]
  exact List.append_nil _

theorem groupOf_congr (h : storedKey keys row = storedKey keys leader) :
    groupOf keys rows row = groupOf keys rows leader := by
  rw [groupOf, groupOf, h]

theorem forall_mem_groupOf {P : Row → Prop} (h : ∀ row ∈ rows, P row) (leader : Row) :
    ∀ row ∈ groupOf keys rows leader, P row :=
  fun row hrow => h row (List.mem_of_mem_filter hrow)

end Members

namespace Group

/-- Whether a group has gathered, among some rows, those with the key of a given one. -/
structure Gathers (keys : List ℕ) (aggregates : List BoundAggregate) (rows : List Row) (row : Row)
    (g : Group) : Prop where
  key : g.key = row.select keys
  tag : g.tag = storedKey keys row
  accumulators : List.Forall₂ (fun a acc => a.accumulate (groupOf keys rows row) = .ok acc)
    aggregates g.accumulators

section Gathering

variable {keys : List ℕ} {aggregates : List BoundAggregate} {rows leaders : List Row}
  {row leader : Row} {g : Group} {gs : List Group} {fault : EvalError}

/-- A row is taken into every accumulator of its group, or one of them refuses it. -/
theorem feedAll_accumulate {accs : List Accumulator}
    (h : List.Forall₂ (fun a acc => a.accumulate rows = .ok acc) aggregates accs) (row : Row) :
    match BoundAggregate.feedAll row aggregates accs with
    | .ok next =>
      List.Forall₂ (fun a acc => a.accumulate (rows ++ [row]) = .ok acc) aggregates next
    | .error fault => ∃ a ∈ aggregates, a.accumulate (rows ++ [row]) = .error fault := by
  induction h with
  | nil => exact .nil
  | @cons a acc as accs hacc _ ih =>
    have hnext : a.accumulate (rows ++ [row]) = a.feed row acc := by
      rw [BoundAggregate.accumulate_concat, hacc]
      rfl
    rw [BoundAggregate.feedAll]
    cases hfeed : a.feed row acc with
    | error fault => exact ⟨a, List.mem_cons_self, hnext.trans hfeed⟩
    | ok acc' =>
      cases hrest : BoundAggregate.feedAll row as accs with
      | error fault =>
        rw [hrest] at ih
        obtain ⟨b, hb, hrefused⟩ := ih
        exact ⟨b, List.mem_cons_of_mem a hb, hrefused⟩
      | ok accs' =>
        rw [hrest] at ih
        exact .cons (hnext.trans hfeed) ih

/-- One more row is added to its group. -/
theorem Gathers.feed (h : g.Gathers keys aggregates rows leader)
    (hsame : storedKey keys row = storedKey keys leader) :
    match g.feed aggregates row with
    | .ok next => next.Gathers keys aggregates (rows ++ [row]) leader
    | .error fault =>
      ∃ a ∈ aggregates, a.accumulate (groupOf keys (rows ++ [row]) row) = .error fault := by
  have hfeed := feedAll_accumulate h.accumulators row
  rw [Group.feed]
  rw [← groupOf_concat_of_eq hsame] at hfeed
  cases haccs : BoundAggregate.feedAll row aggregates g.accumulators with
  | error fault =>
    rw [haccs] at hfeed
    rwa [groupOf_congr hsame]
  | ok accs =>
    rw [haccs] at hfeed
    exact ⟨h.key, h.tag, hfeed⟩

theorem Gathers.of_ne (h : g.Gathers keys aggregates rows leader)
    (hother : storedKey keys row ≠ storedKey keys leader) :
    g.Gathers keys aggregates (rows ++ [row]) leader := by
  refine ⟨h.key, h.tag, ?_⟩
  rw [groupOf_concat_of_ne hother]
  exact h.accumulators

theorem gathers_fresh (aggregates : List BoundAggregate) (hnew : groupOf keys rows row = []) :
    (fresh aggregates (row.select keys)).Gathers keys aggregates rows row := by
  refine ⟨rfl, rfl, ?_⟩
  rw [hnew, fresh, List.forall₂_map_right_iff, List.forall₂_same]
  exact fun _ _ => rfl

/-- A row is added to the group with its key, or begins one behind the others.  Induct on the
groups, which are told apart by their keys. -/
theorem gathers_absorb (h : List.Forall₂ (Gathers keys aggregates rows) leaders gs)
    (hdistinct : leaders.Pairwise fun a b => storedKey keys a ≠ storedKey keys b)
    (hnew : (∀ leader ∈ leaders, storedKey keys leader ≠ storedKey keys row) →
      groupOf keys rows row = []) :
    match absorb aggregates row (row.select keys) (storedKey keys row) gs with
    | .ok more => List.Forall₂ (Gathers keys aggregates (rows ++ [row]))
        (leaders ++ if ∃ leader ∈ leaders, storedKey keys leader = storedKey keys row then []
          else [row]) more
    | .error fault =>
      ∃ a ∈ aggregates, a.accumulate (groupOf keys (rows ++ [row]) row) = .error fault := by
  induction h with
  | nil =>
    have hfeed := (gathers_fresh aggregates
      (hnew fun _ hmem => absurd hmem List.not_mem_nil)).feed rfl
    rw [absorb, if_neg (by simp)]
    cases hfed : (fresh aggregates (row.select keys)).feed aggregates row with
    | error fault =>
      rw [hfed] at hfeed
      exact hfeed
    | ok next =>
      rw [hfed] at hfeed
      exact .cons hfeed .nil
  | @cons leader g leaders gs hg hrest ih =>
    obtain ⟨hothers, hdistinct⟩ := List.pairwise_cons.mp hdistinct
    rw [absorb, hg.tag]
    by_cases hsame : storedKey keys leader = storedKey keys row
    · have hfeed := hg.feed hsame.symm
      rw [if_pos hsame, if_pos ⟨leader, List.mem_cons_self, hsame⟩, List.append_nil]
      cases hfed : g.feed aggregates row with
      | error fault =>
        rw [hfed] at hfeed
        exact hfeed
      | ok next =>
        rw [hfed] at hfeed
        have hne : ∀ other ∈ leaders, storedKey keys row ≠ storedKey keys other :=
          fun other hmem => hsame ▸ hothers other hmem
        have htail := (List.forall₂_and_left leaders gs).mpr ⟨hne, hrest⟩
        exact .cons hfeed (htail.imp fun _ _ h => h.2.of_ne h.1)
    · have hnew' : (∀ other ∈ leaders, storedKey keys other ≠ storedKey keys row) →
          groupOf keys rows row = [] := fun h => hnew (List.forall_mem_cons.mpr ⟨hsame, h⟩)
      have hstep := ih hdistinct hnew'
      have hiff : (∃ other ∈ leader :: leaders, storedKey keys other = storedKey keys row) ↔
          ∃ other ∈ leaders, storedKey keys other = storedKey keys row := by
        rw [List.exists_mem_cons_iff, or_iff_right hsame]
      rw [if_neg hsame]
      cases hmore : absorb aggregates row (row.select keys) (storedKey keys row) gs with
      | error fault =>
        rw [hmore] at hstep
        exact hstep
      | ok more =>
        rw [hmore] at hstep
        simp only [hiff]
        exact .cons (hg.of_ne (Ne.symm hsame)) hstep

end Gathering

end Group

namespace RowSource

variable {keys : List ℕ} {aggregates : List BoundAggregate} {rows : List Row}

/-- Behind some rows there is a group for each first row with its key, or an aggregate refuses the
rows of a group.  Induct on the rows from behind. -/
theorem gathers_foldlM (keys : List ℕ) (aggregates : List BoundAggregate) (rows : List Row) :
    match rows.foldlM (fun gs row => grouped keys aggregates row gs) [] with
    | .ok gs =>
      List.Forall₂ (Group.Gathers keys aggregates rows) (firsts (storedKey keys) rows) gs
    | .error e => ∃ row ∈ rows, ∃ a ∈ aggregates, ∃ fault,
      e = .eval fault ∧ a.accumulate (groupOf keys rows row) = .error fault := by
  induction rows using List.reverseRecOn with
  | nil => exact .nil
  | append_singleton rows row ih =>
    rw [List.foldlM_append]
    cases hgs : rows.foldlM (fun gs row => grouped keys aggregates row gs) [] with
    | error e =>
      rw [hgs] at ih
      obtain ⟨r, hr, a, ha, fault, rfl, hrefused⟩ := ih
      refine ⟨r, List.mem_append_left _ hr, a, ha, fault, rfl, ?_⟩
      rw [groupOf, List.filter_append]
      exact a.accumulate_append_of_error hrefused _
    | ok gs =>
      rw [hgs] at ih
      have hnew : (∀ leader ∈ firsts (storedKey keys) rows,
          storedKey keys leader ≠ storedKey keys row) → groupOf keys rows row = [] := by
        intro hall
        refine List.filter_eq_nil_iff.mpr fun r hr heq => ?_
        obtain ⟨leader, hleader, hsame⟩ := exists_mem_firsts (f := storedKey keys) r hr
        exact hall leader hleader (hsame.trans (of_decide_eq_true heq))
      have hstep := Group.gathers_absorb ih (pairwise_firsts _ rows) hnew
      change match grouped keys aggregates row gs >>= pure with
        | .ok gs => _
        | .error e => _
      rw [bind_pure, grouped]
      change match (Group.absorb aggregates row (row.select keys) (storedKey keys row) gs).mapError
          ExecError.eval with
        | .ok gs => _
        | .error e => _
      cases hmore : Group.absorb aggregates row (row.select keys) (storedKey keys row) gs with
      | error fault =>
        rw [hmore] at hstep
        obtain ⟨a, ha, hrefused⟩ := hstep
        exact ⟨row, List.mem_append_right _ (List.mem_singleton_self row), a, ha, fault, rfl,
          hrefused⟩
      | ok more =>
        rw [hmore] at hstep
        rw [firsts_concat]
        simp only [exists_mem_firsts_iff] at hstep
        exact hstep

/-- The rows that stand for the groups: the first one of each, and without keys an empty one even if
there is none. -/
def leaders (keys : List ℕ) (rows : List Row) : List Row :=
  if rows = [] ∧ keys = [] then [[]] else firsts (storedKey keys) rows

/-- Whether a row has the key of a given one, and then each aggregate over some rows. -/
def Summary (keys : List ℕ) (aggregates : List BoundAggregate) (members : List Row) (leader : Row)
    (row : Row) : Prop :=
  ∃ values, row = leader.select keys ++ values ∧
    List.Forall₂ (fun a d => a.Yields members d) aggregates values

/-- Whether rows sum up the groups of others, in the order of these. -/
abbrev Summaries (keys : List ℕ) (aggregates : List BoundAggregate) (rows out : List Row) : Prop :=
  List.Forall₂ (fun leader => Summary keys aggregates (groupOf keys rows leader) leader)
    (leaders keys rows) out

/-- Why rows are not grouped: an argument fails on one of them, or the integers among the rows that
are grouped with one do not add up. -/
inductive Refused (members : Row → List Row) (aggregates : List BoundAggregate) (rows : List Row) :
    EvalError → Prop
  | argument {a : BoundAggregate} {e : BoundExpr} {row : Row} {fault : EvalError} :
    a ∈ aggregates → a.argument = some e → row ∈ rows → e.eval row = .error fault →
    Refused members aggregates rows fault
  | overflow {a : BoundAggregate} {row : Row} : a ∈ aggregates → a.SumsIntegers → row ∈ rows →
    ¬AddsUp (Datum.integers (a.values (members row))) → Refused members aggregates rows .sumOverflow

section Results

variable {child : RowSource} {schema : Schema}

theorem summary_of_gathers {leader : Row} {g : Group}
    (hadmits : ∀ a ∈ aggregates, ∃ type, a.Admits schema type)
    (hrows : ∀ row ∈ rows, row.Conforms schema)
    (h : g.Gathers keys aggregates rows leader) :
    Summary keys aggregates (groupOf keys rows leader) leader g.result := by
  refine ⟨g.accumulators.map Accumulator.result, by rw [Group.result, h.key], ?_⟩
  rw [List.forall₂_map_right_iff]
  refine ((List.forall₂_and_left _ _).mpr ⟨hadmits, h.accumulators⟩).imp ?_
  rintro a acc ⟨⟨type, hadmits⟩, hacc⟩
  exact (BoundAggregate.accumulates_of_accumulate hadmits (forall_mem_groupOf hrows leader)
    hacc).yields_result

/-- The rows of the groups that have gathered some rows sum these up.  Without any key and any row
there is still one of them. -/
theorem summaries_of_gathers {gs : List Group}
    (hadmits : ∀ a ∈ aggregates, ∃ type, a.Admits schema type)
    (hrows : ∀ row ∈ rows, row.Conforms schema)
    (h : List.Forall₂ (Group.Gathers keys aggregates rows) (firsts (storedKey keys) rows) gs) :
    Summaries keys aggregates rows (groupRows keys aggregates gs) := by
  by_cases hnone : rows = [] ∧ keys = []
  · obtain ⟨rfl, rfl⟩ := hnone
    cases h
    refine .cons ⟨aggregates.map fun a => a.fresh.result, ?_, ?_⟩ .nil
    · rw [Group.result, Group.fresh, List.map_map]
      rfl
    · rw [List.forall₂_map_right_iff, List.forall₂_same]
      exact fun a _ => (BoundAggregate.accumulates_nil a).yields_result
  · have hsome : ¬(gs.isEmpty && keys.isEmpty) = true := by
      rw [Bool.and_eq_true, List.isEmpty_iff, List.isEmpty_iff]
      rintro ⟨rfl, hkeys⟩
      cases rows with
      | nil => exact hnone ⟨rfl, hkeys⟩
      | cons row rows =>
        rw [firsts_cons] at h
        cases h
    rw [Summaries, leaders, if_neg hnone, groupRows, if_neg hsome, List.forall₂_map_right_iff]
    exact h.imp fun leader g => summary_of_gathers hadmits hrows

/-- Rows that groups have gathered are not refused: every aggregate has taken in those of each
group. -/
theorem not_refused_of_gathers {gs : List Group} {fault : EvalError}
    (hadmits : ∀ a ∈ aggregates, ∃ type, a.Admits schema type)
    (hrows : ∀ row ∈ rows, row.Conforms schema)
    (h : List.Forall₂ (Group.Gathers keys aggregates rows) (firsts (storedKey keys) rows) gs) :
    ¬Refused (groupOf keys rows) aggregates rows fault := by
  have htakes : ∀ row ∈ rows, ∀ a ∈ aggregates, a.Takes (groupOf keys rows row) := by
    intro row hrow a ha
    obtain ⟨leader, hleader, hsame⟩ := exists_mem_firsts (f := storedKey keys) row hrow
    obtain ⟨g, -, hg⟩ := exists_of_forall₂ h leader hleader
    obtain ⟨acc, -, hacc⟩ := exists_of_forall₂ hg.accumulators a ha
    obtain ⟨type, hadmits⟩ := hadmits a ha
    rw [groupOf_congr hsame.symm]
    exact (BoundAggregate.accumulates_of_accumulate hadmits (forall_mem_groupOf hrows leader)
      hacc).takes
  intro hrefused
  cases hrefused with
  | @argument a e row _ ha he hrow hfails =>
    obtain ⟨d, hd⟩ := (htakes row hrow a ha).evaluates row
      (List.mem_filter.mpr ⟨hrow, decide_eq_true rfl⟩) e he
    rw [hfails] at hd
    cases hd
  | @overflow a row ha hsum hrow hadds =>
    exact hadds ((htakes row hrow a ha).addsUp hsum)

/-- What a grouping yields of rows with the columns of a schema: for each group its key and its
aggregates, unless the rows are refused. -/
theorem summaries_of_rows (keys : List ℕ) (hrows : (child.rows false).1 = .ok rows)
    (hadmits : ∀ a ∈ aggregates, ∃ type, a.Admits schema type)
    (hconforms : ∀ row ∈ rows, row.Conforms schema) :
    match ((aggregate keys aggregates child).rows false).1 with
    | .ok out => Summaries keys aggregates rows out ∧
        ∀ fault, ¬Refused (groupOf keys rows) aggregates rows fault
    | .error e => ∃ fault, e = .eval fault ∧ Refused (groupOf keys rows) aggregates rows fault := by
  have hgathers := gathers_foldlM keys aggregates rows
  rw [rows_aggregate hrows]
  cases hgs : rows.foldlM (fun gs row => grouped keys aggregates row gs) [] with
  | error e =>
    rw [hgs] at hgathers
    obtain ⟨row, hrow, a, ha, fault, rfl, hrefused⟩ := hgathers
    obtain ⟨type, hadmits⟩ := hadmits a ha
    refine ⟨fault, rfl, ?_⟩
    rcases BoundAggregate.of_accumulate_error hadmits (forall_mem_groupOf hconforms row)
      hrefused with ⟨r, hr, e, he, hfails⟩ | ⟨rfl, hsum, hadds⟩
    · exact .argument ha he (List.mem_of_mem_filter hr) hfails
    · exact .overflow ha hsum hrow hadds
  | ok gs =>
    rw [hgs] at hgathers
    exact ⟨summaries_of_gathers hadmits hconforms hgathers,
      fun fault => not_refused_of_gathers hadmits hconforms hgathers⟩

end Results

end RowSource

end BlockQuery
