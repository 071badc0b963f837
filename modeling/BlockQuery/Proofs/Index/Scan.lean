import BlockQuery.Proofs.Index.Entries

/-!
# What range scans find

A scan of an index finds the entries within its bounds in their order, if the
bounds admit no entry between two that they keep out on the same side.  A scan
between bounds that it takes to be inverted finds nothing.
-/

namespace BlockQuery.Index

namespace Bound

/-- Whether a key lies within a lower bound. -/
def admitsAbove (order : RowOrder) (key : Row) : Bound → Bool
  | unbounded => true
  | included l => order.compare key l != .lt
  | excluded l => order.compare key l == .gt

/-- Whether the key of a bound has a value for every column. -/
def HasWidth (width : ℕ) (b : Bound) : Prop := ∀ key, b.key? = some key → key.length = width

end Bound

section Steps

variable {r : Reader} {entries : List (Row × ℕ)} {s t : Scan}

theorem drain_of_none (h : s.step = (none, t)) (done : List (Except Error ℕ)) :
    s.drain done = (done.reverse, t) := by
  rw [Scan.drain]
  split <;> simp_all

theorem drain_of_some {x : Except Error ℕ} (h : s.step = (some x, t))
    (done : List (Except Error ℕ)) : s.drain done = t.drain (x :: done) := by
  rw [Scan.drain]
  split <;> simp_all

theorem mapM_id_ok (xs : List (Row × ℕ)) :
    (xs.map fun e => (.ok e.2 : Except Error ℕ)).mapM id = .ok (xs.map Prod.snd) := by
  rw [List.mapM_map]
  exact List.mapM_pure

/-- What a scan still has to go through, with a block at hand that is the one it names. -/
structure StandsAt (r : Reader) (s : Scan) : Prop where
  reader : s.reader = r
  goesOn : s.done = false
  block : ∀ b es, s.block = some (b, es) → r.readBlock b = .ok es

theorem StandsAt.entriesOf (h : StandsAt r s) (block : ℕ) :
    s.entriesOf block = r.readBlock block := by
  rw [Scan.entriesOf, h.reader]
  split
  next b es hblock =>
    split
    next heq =>
      subst heq
      exact (h.block b es hblock).symm
    next => rfl
  next => rfl

variable (h : r.Lists entries)
include h

theorem step_of_length_le (hs : StandsAt r s) (hend : entries.length ≤ s.next) :
    s.step = (none, s) := by
  have hcount : s.reader.entryCount ≤ s.next := by
    rw [hs.reader]
    exact h.count.trans_le hend
  rw [Scan.step, if_pos (by simp [hcount])]

/-- The next entry ends a scan, or is passed on. -/
theorem step_of_lt (hs : StandsAt r s) (hlt : s.next < entries.length) :
    ∃ t, StandsAt r t ∧ t.next = s.next + 1 ∧ t.upper = s.upper ∧
      (s.upper.admitsBelow r.order entries[s.next].1 = true →
        s.step = (some (.ok entries[s.next].2), t)) ∧
      (s.upper.admitsBelow r.order entries[s.next].1 = false → ∃ u, s.step = (none, u)) := by
  obtain ⟨es, hread, hentry⟩ := getElem?_readBlock h hlt
  have hcount : ¬s.reader.entryCount ≤ s.next := by
    rw [hs.reader]
    exact Nat.not_le.mpr (hlt.trans_eq h.count.symm)
  have hgo : ¬((s.done || decide (s.reader.entryCount ≤ s.next)) = true) := by
    simp [hs.goesOn, hcount]
  have hentries : s.entriesOf (s.next / s.reader.header.loadFactor) = .ok es := by
    rw [hs.entriesOf, hs.reader, hread]
  rw [← hs.reader] at hentry
  refine ⟨{ s with block := some (s.next / s.reader.header.loadFactor, es), next := s.next + 1 },
    ⟨hs.reader, hs.goesOn, ?_⟩, rfl, rfl, ?_, ?_⟩
  · intro b es' heq
    cases heq
    rw [hs.reader, hread]
  · intro hadmits
    rw [Scan.step, if_neg hgo]
    simp only [hentries, hentry]
    rw [if_neg (by simp [bottomEntry, hs.reader, hadmits])]
    rfl
  · intro hrefuses
    rw [Scan.step, if_neg hgo]
    simp only [hentries, hentry]
    rw [if_pos (by simp [bottomEntry, hs.reader, hrefuses])]
    exact ⟨_, rfl⟩

/-- A scan passes entries on up to the first one that its upper bound keeps out. -/
theorem drain_eq (hs : StandsAt r s) (done : List (Except Error ℕ)) :
    (s.drain done).1 = done.reverse ++
      (((entries.drop s.next).takeWhile fun e => s.upper.admitsBelow r.order e.1).map
        fun e => .ok e.2) := by
  induction hn : entries.length - s.next generalizing s done with
  | zero =>
    have hend : entries.length ≤ s.next := by omega
    rw [drain_of_none (step_of_length_le h hs hend), List.drop_of_length_le hend,
      List.takeWhile_nil, List.map_nil, List.append_nil]
  | succ n ih =>
    have hlt : s.next < entries.length := by omega
    obtain ⟨t, ht, hnext, hupper, hsome, hnone⟩ := step_of_lt h hs hlt
    rw [List.drop_eq_getElem_cons hlt]
    cases hadmits : s.upper.admitsBelow r.order entries[s.next].1 with
    | false =>
      obtain ⟨u, hu⟩ := hnone hadmits
      rw [drain_of_none hu, List.takeWhile_cons_of_neg (by simp [hadmits]), List.map_nil,
        List.append_nil]
    | true =>
      rw [drain_of_some (hsome hadmits), ih ht _ (by omega), hnext, hupper,
        List.takeWhile_cons_of_pos (by simpa using hadmits), List.map_cons, List.reverse_cons,
        List.append_assoc, List.singleton_append]

end Steps

section Ranges

variable {r : Reader} {entries : List (Row × ℕ)} (h : r.Lists entries) {lower upper : Bound}

theorem checkBound_eq_ok {b : Bound} (hb : b.HasWidth r.header.schema.length) :
    r.checkBound b = .ok () := by
  rw [Reader.checkBound]
  split
  next => rfl
  next key hkey => rw [Reader.checkKey, if_neg (by simp [hb key hkey])]

include h

theorem startOf_eq {k : ℕ}
    (hk : SplitsAt (fun e : Row × ℕ => !lower.admitsAbove r.order e.1) entries k) :
    ∃ start, r.startOf lower = .ok start ∧ start.getD r.entryCount = k := by
  have hlength := hk.le_length
  have hcount : r.entryCount = entries.length := h.count
  have hseek : ∀ {key : Row} {strict : Bool},
      SplitsAt (fun e : Row × ℕ => r.isBefore key strict e.1) entries k →
        ∃ start, r.seek key strict = .ok start ∧ start.getD r.entryCount = k := by
    intro key strict hsplit
    refine ⟨_, seek_eq h hsplit, ?_⟩
    split
    next => rfl
    next hend =>
      rw [Option.getD_none, hcount]
      omega
  cases lower with
  | unbounded =>
    refine ⟨some 0, rfl, ?_⟩
    by_contra hpositive
    have hfirst : 0 < k := Nat.pos_of_ne_zero fun heq => hpositive heq.symm
    have hbefore := (hk.iff_lt 0 _ (List.getElem?_eq_getElem (hfirst.trans_le hlength))).mpr hfirst
    cases hbefore
  | included key =>
    apply hseek
    have htest : ∀ c, r.isBefore key false c = !(Bound.included key).admitsAbove r.order c := by
      intro c
      rw [Reader.isBefore, Bound.admitsAbove]
      cases r.order.compare c key <;> rfl
    simpa only [htest] using hk
  | excluded key =>
    apply hseek
    have htest : ∀ c, r.isBefore key true c = !(Bound.excluded key).admitsAbove r.order c := by
      intro c
      rw [Reader.isBefore, Bound.admitsAbove]
      cases r.order.compare c key <;> rfl
    simpa only [htest] using hk

/-- The offsets that a range scan finds. -/
theorem scan_offsets (hlower : lower.HasWidth r.header.schema.length)
    (hupper : upper.HasWidth r.header.schema.length)
    (habove : HoldsFirst (fun e : Row × ℕ => !lower.admitsAbove r.order e.1) entries)
    (hbelow : HoldsFirst (fun e : Row × ℕ => upper.admitsBelow r.order e.1) entries) :
    (r.scan lower upper).bind Scan.offsets =
      .ok (if lower.inverted r.order upper then [] else
        (entries.filter fun e => lower.admitsAbove r.order e.1 &&
          upper.admitsBelow r.order e.1).map Prod.snd) := by
  obtain ⟨start, hstart, hget⟩ := startOf_eq h habove.splitsAt
  have hscan : r.scan lower upper = .ok ⟨r, if lower.inverted r.order upper then r.entryCount
      else entries.countP (fun e => !lower.admitsAbove r.order e.1), upper, none, false⟩ := by
    rw [Reader.scan, checkBound_eq_ok hlower, checkBound_eq_ok hupper, hstart, ← hget]
    rfl
  have hdrain := fun next => drain_eq h (s := ⟨r, next, upper, none, false⟩)
    ⟨rfl, rfl, fun b es hnone => nomatch hnone⟩ []
  rw [hscan, Except.bind, Scan.offsets, hdrain, List.reverse_nil, List.nil_append, mapM_id_ok]
  dsimp only
  have hend : entries.length ≤ r.entryCount := h.count.ge
  split
  · rw [List.drop_of_length_le hend]
    rfl
  · have hrest : HoldsFirst (fun e : Row × ℕ => upper.admitsBelow r.order e.1)
        (entries.drop (entries.countP fun e => !lower.admitsAbove r.order e.1)) :=
      hbelow.sublist (List.drop_sublist _ _)
    rw [hrest.takeWhile_eq_filter, habove.splitsAt.drop_eq_filter, List.filter_filter]
    simp only [Bool.not_not, Bool.and_comm]

end Ranges

end BlockQuery.Index
