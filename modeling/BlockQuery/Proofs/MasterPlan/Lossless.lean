import BlockQuery.Proofs.MasterPlan.Emission
import BlockQuery.Proofs.MasterPlan.Partition
import BlockQuery.Proofs.MasterPlan.Validity
import BlockQuery.Proofs.Plan.Nodes

/-!
# Nothing is lost in a partition

The blocks of a query are closed one after another, and each of them is read
just once: by a later block, or by the piece that is still open.  So they make
up a master plan, and the query comes back if what is scanned of a block is
replaced by the plan of the block, again and again.
-/

namespace BlockQuery

namespace MasterPlan

variable {blocks bs : List Block} {done more : List BlockId}

theorem inputsFirst_mono (h : InputsFirst done bs) (hmore : ∀ i ∈ done, i ∈ more) :
    InputsFirst more bs := by
  induction bs generalizing done more with
  | nil => trivial
  | cons b bs ih =>
    refine ⟨fun i hi => hmore i (h.1 i hi), ih h.2 ?_⟩
    intro i hi
    rcases List.mem_append.mp hi with hi | hi
    · exact List.mem_append_left _ (hmore i hi)
    · exact List.mem_append_right _ hi

theorem inputsFirst_ids (hids : (blocks.map Block.id).Nodup) (hbs : ∀ b ∈ bs, b ∈ blocks)
    (h : InputsFirst done bs) : BlockCursor.InputsFirst blocks done (bs.map Block.id) := by
  induction bs generalizing done with
  | nil => trivial
  | cons b bs ih =>
    obtain ⟨hb, hrest⟩ := List.forall_mem_cons.mp hbs
    refine ⟨?_, ih hrest h.2⟩
    intro c hc hid
    rw [List.inj_on_of_nodup_map hids hc hb hid]
    exact h.1

theorem not_cyclic_of_inputsFirst (hids : (blocks.map Block.id).Nodup)
    (h : InputsFirst [] blocks) : ¬Block.Cyclic blocks := by
  rintro ⟨id, hcycle⟩
  obtain ⟨_, ⟨b, hb, rfl, -⟩, -⟩ := Relation.TransGen.head'_iff.mp hcycle
  have hacc := (inputsFirst_ids hids (fun _ hb => hb) h).acc (by simp)
  exact not_transGen_self (hacc b.id (List.mem_map_of_mem hb)) hcycle

end MasterPlan

namespace Partition

/-! ## Closed blocks -/

/-- Blocks that are closed between two states, and the ids of those which none of them reads. -/
structure Closes (s after : State) (news : List Block) (unread : List BlockId) : Prop where
  query : after.query = s.query
  blocks : after.blocks = s.blocks ++ news
  nextSeq : after.nextSeq = s.nextSeq + UInt32.ofNat news.length
  ids : news.map Block.id =
    (List.range news.length).map fun k => ⟨s.query, s.nextSeq + UInt32.ofNat k⟩
  inputsFirst : MasterPlan.InputsFirst [] news
  reads : (news.flatMap Block.inputs ++ unread).Perm (news.map Block.id)
  scanned : ∀ b ∈ news, b.plan.scannedBlocks = b.inputs.map BlockId.seq
  single : ∀ b ∈ news, b.plan.Single

namespace Closes

variable {s t after : State} {news news' : List Block} {unread unread' : List BlockId}

theorem refl (s : State) : Closes s s [] [] :=
  ⟨rfl, by simp, by simp, rfl, trivial, by simp, by simp, by simp⟩

theorem trans (h : Closes s t news unread) (h' : Closes t after news' unread') :
    Closes s after (news ++ news') (unread ++ unread') where
  query := h'.query.trans h.query
  blocks := by rw [h'.blocks, h.blocks, List.append_assoc]
  nextSeq := by rw [h'.nextSeq, h.nextSeq, List.length_append, UInt32.ofNat_add, UInt32.add_assoc]
  ids := by
    rw [List.map_append, h.ids, h'.ids, List.length_append, List.range_add, List.map_append,
      List.map_map, h.query, h.nextSeq]
    simp [UInt32.ofNat_add, UInt32.add_assoc]
  inputsFirst := by
    refine MasterPlan.inputsFirst_append.mpr ⟨h.inputsFirst, MasterPlan.inputsFirst_mono h'.inputsFirst ?_⟩
    simp
  reads := by
    have hboth := h.reads.append h'.reads
    rw [List.perm_iff_count] at hboth ⊢
    intro id
    have hcount := hboth id
    simp only [List.count_append, List.flatMap_append, List.map_append] at hcount ⊢
    omega
  scanned := List.forall_mem_append.mpr ⟨h.scanned, h'.scanned⟩
  single := List.forall_mem_append.mpr ⟨h.single, h'.single⟩

theorem close (piece : Piece) (h : Closes s after news piece.inputs)
    (hscanned : piece.plan.scannedBlocks = piece.inputs.map BlockId.seq)
    (hsingle : piece.plan.Single) (output : Shuffle) :
    Closes s (Partition.close after piece output).2 (news ++ [closed after piece output])
      [(closed after piece output).id] where
  query := h.query
  blocks := by rw [close_eq, h.blocks, List.append_assoc]
  nextSeq := by
    rw [close_eq, h.nextSeq, List.length_append, UInt32.ofNat_add, ← UInt32.add_assoc]
    rfl
  ids := by
    rw [List.map_append, h.ids, List.length_append, List.length_singleton, List.range_succ,
      List.map_append, List.map_singleton, List.map_singleton, closed, h.query, h.nextSeq]
  inputsFirst := by
    refine MasterPlan.inputsFirst_append.mpr ⟨h.inputsFirst, ?_, trivial⟩
    intro i hi
    rw [List.nil_append]
    exact h.reads.mem_iff.mp (List.mem_append_right _ hi)
  reads := by
    rw [List.flatMap_append, List.map_append, List.flatMap_singleton]
    exact h.reads.append_right _
  scanned := List.forall_mem_append.mpr ⟨h.scanned, List.forall_mem_singleton.mpr hscanned⟩
  single := List.forall_mem_append.mpr ⟨h.single, List.forall_mem_singleton.mpr hsingle⟩

end Closes

/-! ## Closing the inputs of a query -/

/-- Whether the parts of blocks, and a plan, come back when scanned outputs are filled in. -/
def Fills (news : Origins) (q p : Plan) : Prop :=
  ∀ origin, Agree origin news → (∀ n ∈ news, n.1.plan.filled origin = n.2) ∧ q.filled origin = p

/-- The blocks that are closed below a plan, and the piece that stays open. -/
structure Cut (s : State) (p : Plan) (piece : Piece) (after : State) (news : Origins) : Prop where
  closes : Closes s after (news.map Prod.fst) piece.inputs
  output : ∀ n ∈ news, n.1.output ≠ .none
  scanned : piece.plan.scannedBlocks = piece.inputs.map BlockId.seq
  single : piece.plan.Single
  fills : Fills news piece.plan p

namespace Cut

variable {s after : State} {input : Plan} {piece : Piece} {news : Origins}

theorem filter (h : Cut s input piece after news) (predicate : Expr) :
    Cut s (.filter predicate input) { piece with plan := .filter predicate piece.plan } after
      news where
  closes := h.closes
  output := h.output
  scanned := h.scanned
  single := h.single.filter predicate
  fills origin hagree := by
    obtain ⟨hnews, hpiece⟩ := h.fills origin hagree
    exact ⟨hnews, congrArg (Plan.filter predicate) hpiece⟩

theorem project (h : Cut s input piece after news) (targets : List Target) (schema : Schema) :
    Cut s (.project targets input schema)
      { piece with plan := .project targets piece.plan schema } after news where
  closes := h.closes
  output := h.output
  scanned := h.scanned
  single := h.single.project targets schema
  fills origin hagree := by
    obtain ⟨hnews, hpiece⟩ := h.fills origin hagree
    exact ⟨hnews, congrArg (fun q => Plan.project targets q schema) hpiece⟩

/-- The piece is closed too, and may be read. -/
theorem close (h : Cut s input piece after news) (output : Shuffle) (houtput : output ≠ .none) :
    ∃ news', Closes s (Partition.close after piece output).2 (news'.map Prod.fst)
        [(closed after piece output).id] ∧
      (∀ n ∈ news', n.1.output ≠ .none) ∧
      Fills news' (scanOf (closed after piece output).id piece) input := by
  refine ⟨news ++ [(closed after piece output, input)], ?_, ?_, ?_⟩
  · simpa using h.closes.close piece h.scanned h.single output
  · exact List.forall_mem_append.mpr ⟨h.output, List.forall_mem_singleton.mpr houtput⟩
  · intro origin hagree
    obtain ⟨hnews, hpiece⟩ := h.fills origin hagree.append_left
    refine ⟨List.forall_mem_append.mpr ⟨hnews, List.forall_mem_singleton.mpr hpiece⟩, ?_⟩
    exact hagree.append_right _ (List.mem_singleton_self _)

end Cut

theorem Fills.append {news news' : Origins} {l r left right : Plan} (h : Fills news l left)
    (h' : Fills news' r right) {origin : UInt32 → Plan} (hagree : Agree origin (news ++ news')) :
    (∀ n ∈ news ++ news', n.1.plan.filled origin = n.2) ∧ l.filled origin = left ∧
      r.filled origin = right := by
  obtain ⟨hnews, hl⟩ := h origin hagree.append_left
  obtain ⟨hnews', hr⟩ := h' origin hagree.append_right
  exact ⟨List.forall_mem_append.mpr ⟨hnews, hnews'⟩, hl, hr⟩

/-- Without a catalog the blocks below a plan are its parts, cut where operations read them. -/
theorem Visits.exists_cut {p : Plan} {s after : State} {piece : Piece}
    (h : Visits none p s piece after) :
    (∀ n ∈ p.nodes, n.InQuery) ∧ ∃ news, Cut s p piece after news := by
  induction h with
  | scan name schema condition s same =>
    obtain rfl := same rfl
    refine ⟨List.forall_mem_singleton.mpr ⟨name, rfl⟩, [], Closes.refl s, by simp, rfl,
      Plan.single_scan _, fun origin _ => ⟨by simp, rfl⟩⟩
  | filter predicate below ih =>
    obtain ⟨hnodes, news, hcut⟩ := ih
    exact ⟨List.forall_mem_cons.mpr ⟨trivial, hnodes⟩, news, hcut.filter predicate⟩
  | project targets schema below ih =>
    obtain ⟨hnodes, news, hcut⟩ := ih
    exact ⟨List.forall_mem_cons.mpr ⟨trivial, hnodes⟩, news, hcut.project targets schema⟩
  | sort specs below ih =>
    obtain ⟨hnodes, news, hcut⟩ := ih
    obtain ⟨news', hcloses, houtput, hfills⟩ := hcut.close (.range specs) (by simp)
    refine ⟨List.forall_mem_cons.mpr ⟨trivial, hnodes⟩, news', hcloses, houtput, rfl,
      Plan.single_sort specs _, ?_⟩
    intro origin hagree
    obtain ⟨hnews, hscan⟩ := hfills origin hagree
    exact ⟨hnews, congrArg (Plan.sort specs) hscan⟩
  | groupBy keys aggregates schema below ih =>
    obtain ⟨hnodes, news, hcut⟩ := ih
    obtain ⟨news', hcloses, houtput, hfills⟩ := hcut.close (.hash keys) (by simp)
    refine ⟨List.forall_mem_cons.mpr ⟨trivial, hnodes⟩, news', hcloses, houtput, rfl,
      Plan.single_groupBy keys aggregates _ schema, ?_⟩
    intro origin hagree
    obtain ⟨hnews, hscan⟩ := hfills origin hagree
    exact ⟨hnews, congrArg (fun q => Plan.groupBy keys aggregates q schema) hscan⟩
  | @join type condition schema left right s t u l r pairs keys belowLeft belowRight ihl ihr =>
    obtain ⟨hnodesl, newsl, hcutl⟩ := ihl
    obtain ⟨hnodesr, newsr, hcutr⟩ := ihr
    obtain ⟨newsl', hclosesl, houtputl, hfillsl⟩ :=
      hcutl.close (.hash (pairs.map (·.1))) (by simp)
    obtain ⟨newsr', hclosesr, houtputr, hfillsr⟩ :=
      hcutr.close (.hash (pairs.map (·.2))) (by simp)
    refine ⟨List.forall_mem_cons.mpr ⟨trivial, List.forall_mem_append.mpr ⟨hnodesl, hnodesr⟩⟩,
      newsl' ++ newsr', ?_, List.forall_mem_append.mpr ⟨houtputl, houtputr⟩, rfl,
      Plan.single_join type condition _ _ schema, ?_⟩
    · rw [List.map_append]
      exact hclosesl.trans hclosesr
    · intro origin hagree
      obtain ⟨hnews, hscanl, hscanr⟩ := hfillsl.append hfillsr hagree
      exact ⟨hnews, congrArg₂ (fun x y => Plan.join type condition x y schema) hscanl hscanr⟩

theorem exists_cut {p : Plan} {s after : State} {piece : Piece}
    (h : visit none p s = .ok (piece, after)) :
    (∀ n ∈ p.nodes, n.InQuery) ∧ ∃ news, Cut s p piece after news :=
  (visits_of_visit h).exists_cut

/-- Nothing else is refused. -/
theorem exists_visit {p : Plan} (h : ∀ n ∈ p.nodes, n.InQuery) (s : State) :
    ∃ piece after, visit none p s = .ok (piece, after) := by
  induction p generalizing s with
  | scan scan =>
    obtain ⟨name, hname⟩ := h _ (Plan.mem_nodes_self _)
    simp [visit, hname]
  | root | createTable => exact False.elim (h _ (Plan.mem_nodes_self _))
  | filter _ _ ih | project _ _ _ ih | sort _ _ ih | groupBy _ _ _ _ ih =>
    obtain ⟨piece, after, hvisit⟩ := ih (List.forall_mem_cons.mp h).2 s
    simp only [visit, hvisit]
    exact ⟨_, _, rfl⟩
  | join type condition left right schema ihl ihr =>
    obtain ⟨hl, hr⟩ := List.forall_mem_append.mp (List.forall_mem_cons.mp h).2
    obtain ⟨l, t, hvisitl⟩ := ihl hl s
    generalize hpairs : (condition.map (Expr.equiPairs left.schema right.schema)).getD [] = pairs
    obtain ⟨r, u, hvisitr⟩ := ihr hr (Partition.close t l (.hash (pairs.map (·.1)))).2
    simp only [visit, hvisitl, hpairs, bind, Except.bind, hvisitr]
    exact ⟨_, _, rfl⟩

/-! ## The terminal block -/

theorem detach_spec {seq : UInt32} {hint : Option UInt64} {q upper lower : Plan}
    (h : detach seq hint q = some (upper, lower)) :
    q.topBlocking? = some lower ∧ upper.Single ∧ upper.scannedBlocks = [seq] ∧
      ∀ origin, origin seq = lower.filled origin → upper.filled origin = q.filled origin := by
  induction q generalizing upper with
  | root | scan | createTable => cases h
  | filter predicate input ih =>
    obtain ⟨⟨above, below⟩, hinput, heq⟩ := Option.map_eq_some_iff.mp h
    cases heq
    obtain ⟨htop, hsingle, hscanned, hfilled⟩ := ih hinput
    refine ⟨htop, hsingle.filter predicate, hscanned, fun origin horigin => ?_⟩
    exact congrArg (Plan.filter predicate) (hfilled origin horigin)
  | project targets input schema ih =>
    obtain ⟨⟨above, below⟩, hinput, heq⟩ := Option.map_eq_some_iff.mp h
    cases heq
    obtain ⟨htop, hsingle, hscanned, hfilled⟩ := ih hinput
    refine ⟨htop, hsingle.project targets schema, hscanned, fun origin horigin => ?_⟩
    exact congrArg (fun q => Plan.project targets q schema) (hfilled origin horigin)
  | join | sort | groupBy =>
    cases h
    exact ⟨rfl, Plan.single_scan _, rfl, fun origin horigin => horigin⟩

/-- All blocks of a query, the terminal one last. -/
structure Cover (query : QueryId) (p : Plan) (after : State) (all : Origins) (terminal : Block) :
    Prop where
  closes : Closes ⟨query, 1, []⟩ after (all.map Prod.fst ++ [terminal]) [terminal.id]
  output : ∀ n ∈ all, n.1.output ≠ .none
  output_terminal : terminal.output = .none
  fills : Fills all terminal.plan p

theorem detachedOutput_ne_none (p : Plan) : detachedOutput p ≠ .none := by
  cases p <;> simp [detachedOutput]

theorem Cut.exists_cover {query : QueryId} {p : Plan} {after : State} {top : Piece}
    {news : Origins} (h : Cut ⟨query, 1, []⟩ p top after news)
    (hdetached : ∀ seq hint, (detach seq hint top.plan).isSome = p.topBlocking?.isSome) :
    ∃ all terminal, (finish after top).1 = terminal.id ∧
      Cover query p (finish after top).2 all terminal := by
  have hwhole : Cover query p (Partition.close after top .none).2 news (closed after top .none) :=
    ⟨h.closes.close top h.scanned h.single .none, h.output, rfl, h.fills⟩
  rw [finish]
  by_cases hblocking : top.plan.isBlocking = true
  · rw [if_pos hblocking]
    exact ⟨news, _, rfl, hwhole⟩
  · rw [if_neg hblocking]
    cases hdetach : detach after.nextSeq top.rowHint top.plan with
    | none => exact ⟨news, _, rfl, hwhole⟩
    | some found =>
      obtain ⟨upper, lower⟩ := found
      obtain ⟨htop, hupper, hscanned, hfilled⟩ := detach_spec hdetach
      have hsome := hdetached after.nextSeq top.rowHint
      rw [hdetach] at hsome
      obtain ⟨operation, hoperation⟩ := Option.isSome_iff_exists.mp hsome.symm
      have hlower := h.closes.close { top with plan := lower }
        ((Plan.scannedBlocks_of_topBlocking? htop).trans h.scanned)
        (h.single.of_topBlocking? htop) (detachedOutput lower)
      have hcloses := hlower.close ⟨upper, [⟨after.query, after.nextSeq⟩], top.rowHint⟩ hscanned
        hupper .none
      refine ⟨news ++ [(closed after { top with plan := lower } (detachedOutput lower), operation)],
        closed (Partition.close after { top with plan := lower } (detachedOutput lower)).2
          ⟨upper, [⟨after.query, after.nextSeq⟩], top.rowHint⟩ .none, rfl, ?_, ?_, rfl, ?_⟩
      · rw [List.map_append]
        exact hcloses
      · refine List.forall_mem_append.mpr ⟨h.output, List.forall_mem_singleton.mpr ?_⟩
        exact detachedOutput_ne_none lower
      · intro origin hagree
        obtain ⟨hnews, hwhole⟩ := h.fills origin hagree.append_left
        have hlast : origin after.nextSeq = operation :=
          hagree.append_right _ (List.mem_singleton_self _)
        have hfound : lower.filled origin = operation := by
          have hreplaced : (top.plan.filled origin).topBlocking? = some (lower.filled origin) :=
            Plan.topBlocking?_replaceScans htop _
          rw [hwhole, hoperation] at hreplaced
          exact (Option.some.inj hreplaced).symm
        refine ⟨List.forall_mem_append.mpr ⟨hnews, List.forall_mem_singleton.mpr hfound⟩, ?_⟩
        exact (hfilled origin (hlast.trans hfound.symm)).trans hwhole

/-! ## The blocks make up a plan -/

theorem nodup_numbers (query : QueryId) {n : ℕ} (h : n < 2 ^ 32) :
    ((List.range n).map fun k => (⟨query, 1 + UInt32.ofNat k⟩ : BlockId)).Nodup := by
  refine List.Nodup.map_on ?_ List.nodup_range
  intro i hi j hj heq
  rw [List.mem_range] at hi hj
  have hseq := (UInt32.add_right_inj _).mp (congrArg BlockId.seq heq)
  rw [← UInt32.toNat_inj, UInt32.toNat_ofNat_of_lt' (hi.trans h),
    UInt32.toNat_ofNat_of_lt' (hj.trans h)] at hseq
  exact hseq

namespace Cover

variable {query : QueryId} {p : Plan} {after : State} {all : Origins} {terminal : Block}

theorem nodup_ids (h : Cover query p after all terminal)
    (hcount : (all.map Prod.fst ++ [terminal]).length < 2 ^ 32) :
    ((all.map Prod.fst ++ [terminal]).map Block.id).Nodup := by
  rw [h.closes.ids]
  exact nodup_numbers query hcount

theorem valid (h : Cover query p after all terminal)
    (hcount : (all.map Prod.fst ++ [terminal]).length < 2 ^ 32) :
    MasterPlan.Valid query (all.map Prod.fst ++ [terminal]) terminal.id := by
  have hids := h.nodup_ids hcount
  have hreads := h.closes.reads
  have hnodup := hreads.nodup_iff.mpr hids
  obtain ⟨blocks, hblocks⟩ : ∃ blocks, blocks = all.map Prod.fst ++ [terminal] := ⟨_, rfl⟩
  have hlast : terminal ∈ blocks := by simp [hblocks]
  have hothers : ∀ b ∈ blocks, b ≠ terminal → ∃ n ∈ all, n.1 = b := by
    intro b hb hne
    simpa [hblocks, hne] using hb
  have hsame : ∀ b ∈ blocks, b.id = terminal.id → b = terminal := by
    intro b hb hid
    exact List.inj_on_of_nodup_map hids (hblocks ▸ hb) (hblocks ▸ hlast) hid
  rw [← hblocks] at hids hreads hnodup ⊢
  have hmem : ∀ b ∈ blocks, ∀ i ∈ b.inputs, i ∈ blocks.flatMap Block.inputs :=
    fun b hb i hi => List.mem_flatMap.mpr ⟨b, hb, hi⟩
  have hinputsFirst := h.closes.inputsFirst
  have hscanned := h.closes.scanned
  rw [← hblocks] at hinputsFirst hscanned
  have hacyclic := MasterPlan.not_cyclic_of_inputsFirst hids hinputsFirst
  refine ⟨List.ne_nil_of_mem hlast, ?_, hids, List.mem_map_of_mem hlast, ?_, ?_, ?_, ?_, ?_, ?_, ?_,
    ?_⟩
  · intro b hb
    have hid : b.id ∈ blocks.map Block.id := List.mem_map_of_mem hb
    rw [hblocks, h.closes.ids] at hid
    obtain ⟨k, -, hk⟩ := List.mem_map.mp hid
    rw [← hk]
  · intro b hb
    exact (List.nodup_flatMap.mp hnodup.of_append_left).1 b hb
  · intro b hb i hi
    exact hreads.mem_iff.mp (List.mem_append_left _ (hmem b hb i hi))
  · rintro b hb i hi rfl
    exact hacyclic ⟨b.id, .single ⟨b, hb, rfl, hi⟩⟩
  · intro b hb seq
    rw [← MasterPlan.mem_scannedBlocks, hscanned b hb, List.mem_map]
  · intro b hb
    constructor
    · intro houtput
      by_contra hne
      obtain ⟨n, hn, rfl⟩ := hothers b hb fun heq => hne (congrArg Block.id heq)
      exact h.output n hn houtput
    · intro hid
      rw [hsame b hb hid]
      exact h.output_terminal
  · intro b hb hread
    exact List.disjoint_of_nodup_append hnodup (hmem b hb _ hread) (List.mem_singleton_self _)
  · intro b hb hne
    have hid := hreads.mem_iff.mpr (List.mem_map_of_mem hb)
    rcases List.mem_append.mp hid with hread | hlast
    · exact List.mem_flatMap.mp hread
    · exact absurd (List.mem_singleton.mp hlast) hne
  · exact hacyclic

end Cover

end Partition

/-! ## Filling in what was split off -/

namespace MasterPlan

/-- A plan with each scan of an output replaced by the plan of the block that gives it. -/
def inlineInputs (p : MasterPlan) : Plan → Plan :=
  Plan.replaceScans fun s => match s.source with
    | .block seq => ((p.blockOfSeq? seq).map Block.plan).getD (.scan s)
    | .table _ => .scan s

variable {p : MasterPlan} {origin : UInt32 → Plan}

theorem iterate_inlineInputs_replaceScans (p : MasterPlan) (n : ℕ) (f : Scan → Plan) (q : Plan) :
    p.inlineInputs^[n] (q.replaceScans f) = q.replaceScans fun s => p.inlineInputs^[n] (f s) := by
  induction n generalizing f with
  | zero => rfl
  | succ n ih =>
    simp only [Function.iterate_succ_apply]
    rw [← ih]
    exact congrArg _ (Plan.replaceScans_replaceScans f _ q)

theorem iterate_inlineInputs_succ {q : Plan} {n : ℕ}
    (h : ∀ seq ∈ q.scannedBlocks, ∃ b, p.blockOfSeq? seq = some b ∧
      p.inlineInputs^[n] b.plan = origin seq) : p.inlineInputs^[n + 1] q = q.filled origin := by
  rw [Function.iterate_succ_apply]
  apply (iterate_inlineInputs_replaceScans p n _ q).trans
  apply Plan.replaceScans_congr
  intro s hs
  cases hsource : s.source with
  | table name =>
    apply Function.iterate_fixed
    simp [inlineInputs, Plan.replaceScans, hsource]
  | block seq =>
    obtain ⟨b, hb, horigin⟩ := h seq (Plan.mem_scannedBlocks_of_scan hs hsource)
    simp [hb, horigin]

/-- Whether the plan of a block comes down to its origin in some rounds. -/
def Inlined (p : MasterPlan) (origin : UInt32 → Plan) (rounds : ℕ) (id : BlockId) : Prop :=
  ∃ b, p.block? id = some b ∧ ∀ n, rounds ≤ n → p.inlineInputs^[n] b.plan = origin id.seq

namespace WellFormed

theorem blockOfSeq?_eq (h : p.WellFormed) {id : BlockId} (hid : id ∈ p.blocks.map Block.id) :
    p.blockOfSeq? id.seq = p.block? id := by
  obtain ⟨b, hb, rfl⟩ := List.mem_map.mp hid
  rw [blockOfSeq?, ← h.query b hb]

/-- Each block needs one round more than the blocks that come before it. -/
theorem inlined_of_inputsFirst (h : p.WellFormed)
    (hfilled : ∀ b ∈ p.blocks, b.plan.filled origin = origin b.id.seq) {done : List BlockId}
    {bs : List Block} {rounds : ℕ} (hordered : InputsFirst done bs) (hbs : ∀ b ∈ bs, b ∈ p.blocks)
    (hdone : ∀ i ∈ done, Inlined p origin rounds i) :
    ∀ i ∈ done ++ bs.map Block.id, Inlined p origin (rounds + bs.length) i := by
  induction bs generalizing done rounds with
  | nil => simpa using hdone
  | cons b bs ih =>
    obtain ⟨hb, hrest⟩ := List.forall_mem_cons.mp hbs
    have hnext : Inlined p origin (rounds + 1) b.id := by
      refine ⟨b, h.block?_of_mem hb, fun n hn => ?_⟩
      obtain ⟨m, rfl⟩ := Nat.exists_eq_add_of_le' hn
      rw [← Nat.add_assoc, ← hfilled b hb]
      apply iterate_inlineInputs_succ
      intro seq hseq
      obtain ⟨i, hi, rfl⟩ := List.mem_map.mp ((h.scanned b hb seq).mp hseq)
      obtain ⟨c, hc, horigin⟩ := hdone i (hordered.1 i hi)
      exact ⟨c, (h.blockOfSeq?_eq (h.inputs b hb i hi)).trans hc, horigin _ (by omega)⟩
    have hall : ∀ i ∈ done ++ [b.id], Inlined p origin (rounds + 1) i := by
      intro i hi
      rcases List.mem_append.mp hi with hi | hi
      · obtain ⟨c, hc, horigin⟩ := hdone i hi
        exact ⟨c, hc, fun n hn => horigin n (by omega)⟩
      · exact List.mem_singleton.mp hi ▸ hnext
    have hend := ih hordered.2 hrest hall
    simpa [Nat.add_comm, Nat.add_left_comm] using hend

theorem iterate_inlineInputs (h : p.WellFormed)
    (hfilled : ∀ b ∈ p.blocks, b.plan.filled origin = origin b.id.seq) {b : Block}
    (hb : b ∈ p.blocks) {n : ℕ} (hn : p.blocks.length ≤ n) :
    p.inlineInputs^[n] b.plan = origin b.id.seq := by
  obtain ⟨hperm, hordered⟩ := h.order_spec
  have hnone : ∀ i ∈ ([] : List BlockId), Inlined p origin 0 i := by simp
  have hall := h.inlined_of_inputsFirst hfilled hordered (fun c hc => hperm.mem_iff.mp hc) hnone
  obtain ⟨c, hc, horigin⟩ := hall b.id (List.mem_map_of_mem (hperm.mem_iff.mpr hb))
  rw [h.block?_of_mem hb] at hc
  cases hc
  exact horigin n (by simpa [hperm.length_eq] using hn)

end WellFormed

section Restore

variable {query : QueryId} {child : Plan} {catalog : Option Catalog}

open BlockQuery.Partition in
theorem ofPlan_of_visit (hscans : child.scans ≠ []) {top : Piece} {s : State}
    (hvisit : visit catalog child ⟨query, 1, []⟩ = .ok (top, s)) :
    ofPlan catalog query (.root child) =
      ofBlocks query (finish s top).2.blocks (finish s top).1 := by
  have hempty : ¬child.scans.isEmpty = true := by simpa using hscans
  unfold ofPlan
  split
  next heq =>
    cases heq
    exact absurd rfl hscans
  next heq =>
    cases heq
    rw [if_neg hempty, hvisit]
    rfl
  next hroot => exact absurd rfl (hroot child)

open BlockQuery.Partition in
/-- What is closed of a query that nothing is wrong with. -/
theorem exists_cover_of_visit {top : Piece} {s : State}
    (hvisit : visit none child ⟨query, 1, []⟩ = .ok (top, s)) :
    ∃ all terminal, (finish s top).1 = terminal.id ∧ Cover query child (finish s top).2 all terminal ∧
      (finish s top).2.blocks = all.map Prod.fst ++ [terminal] ∧
      (all.map Prod.fst ++ [terminal]).length = child.blockCount := by
  obtain ⟨news, hvisited⟩ := (visits_of_visit hvisit).exists_visited
  obtain ⟨hnodes, cut, hcut⟩ := exists_cut hvisit
  obtain ⟨all, terminal, hid, hcover⟩ := hcut.exists_cover hvisited.detached
  obtain ⟨_, stored, -, hsplit⟩ := hvisited.finish rfl
  have hblocks : (finish s top).2.blocks = all.map Prod.fst ++ [terminal] := by
    simpa using hcover.closes.blocks
  refine ⟨all, terminal, hid, hcover, hblocks, ?_⟩
  rw [← hblocks, hsplit.blocks_eq, ← Plan.length_stored hnodes, ← hsplit.origins]
  simp

theorem exists_ofPlan (query : QueryId) (hcount : child.blockCount < 2 ^ 32)
    (hnodes : ∀ n ∈ child.nodes, n.InQuery) : ∃ p, ofPlan none query (.root child) = .ok p := by
  obtain ⟨top, s, hvisit⟩ := Partition.exists_visit hnodes ⟨query, 1, []⟩
  obtain ⟨all, terminal, hid, hcover, hblocks, hlength⟩ := exists_cover_of_visit hvisit
  rw [ofPlan_of_visit (Plan.scans_ne_nil hnodes) hvisit, hblocks, hid]
  exact (hcover.valid (hlength ▸ hcount)).exists_ofBlocks

/-- A query is split just if it scans tables only and has no other root or table creation in it.
Then there are as many blocks as its operations call for, each with one operation at most, and the
terminal block gives back the query when the plans of the blocks are put where their outputs are
scanned. -/
theorem ofPlan_restores (query : QueryId) (hcount : child.blockCount < 2 ^ 32) :
    ((∃ p, ofPlan none query (.root child) = .ok p) ↔ ∀ n ∈ child.nodes, n.InQuery) ∧
    ∀ p, ofPlan none query (.root child) = .ok p →
      p.blocks.length = child.blockCount ∧ (∀ b ∈ p.blocks, b.plan.Single) ∧
      ∃ t ∈ p.blocks, t.id = p.terminal ∧
        ∀ n, p.blocks.length ≤ n → p.inlineInputs^[n] t.plan = child := by
  refine ⟨⟨?_, exists_ofPlan query hcount⟩, ?_⟩
  · rintro ⟨p, hp⟩
    obtain ⟨top, s, hvisit, -⟩ := exists_visit_of_ofPlan hp
    exact (Partition.exists_cut hvisit).1
  · intro p hp
    obtain ⟨top, s, hvisit, haccepted⟩ := exists_visit_of_ofPlan hp
    obtain ⟨all, terminal, hid, hcover, hblocks, hlength⟩ := exists_cover_of_visit hvisit
    rw [hblocks, hid] at haccepted
    obtain ⟨hwell, -, hterminal, hperm⟩ := wellFormed_of_ofBlocks haccepted
    have hmem : terminal ∈ p.blocks := hperm.mem_iff.mpr (by simp)
    refine ⟨hperm.length_eq.trans hlength,
      fun b hb => hcover.closes.single b (hperm.mem_iff.mp hb), terminal, hmem, hterminal.symm, ?_⟩
    have hseqs := (hperm.map fun b => b.id.seq).nodup_iff.mp hwell.nodup_seqs
    rw [List.map_append, List.nodup_append, List.map_map] at hseqs
    obtain ⟨origin, hagree, hother⟩ := exists_agree hseqs.1 child
    have hlast : origin terminal.id.seq = child := by
      apply hother
      exact fun hin => hseqs.2.2 _ hin _ (List.mem_singleton_self _) rfl
    obtain ⟨hparts, hwhole⟩ := hcover.fills origin hagree
    have hfilled : ∀ b ∈ p.blocks, b.plan.filled origin = origin b.id.seq := by
      intro b hb
      rcases List.mem_append.mp (hperm.mem_iff.mp hb) with hb | hb
      · obtain ⟨n, hn, rfl⟩ := List.mem_map.mp hb
        rw [hparts n hn, hagree n hn]
      · rw [List.mem_singleton.mp hb, hwhole, hlast]
    intro n hn
    exact (hwell.iterate_inlineInputs hfilled hmem hn).trans hlast

end Restore

/-! A sorted cross product behind a filter: the store, the sort, the product and both tables. -/

namespace SortedProduct

def columns : Schema := [⟨"a", .int4⟩]

def positive : Expr := .binary (.comparison .gt) (.column "t.a") (.literal (.int4 0))

def query : Plan :=
  .filter positive (.sort [⟨"t.a", false, false⟩] (.joining
    (.scan ⟨.table "t", columns.qualified "t", some positive, some 7⟩)
    (.scanTable "u" columns none) .cross none))

end SortedProduct

theorem ofPlan_restores_product : SortedProduct.query.blockCount < 2 ^ 32 ∧
    ∃ p, ofPlan none (QueryId.ofNat 1) (.root SortedProduct.query) = .ok p ∧
      p.blocks.length = 5 ∧ ∃ t ∈ p.blocks, t.id = p.terminal ∧
        p.inlineInputs^[5] t.plan = SortedProduct.query := by
  have hcount : SortedProduct.query.blockCount = 5 := by decide
  have hlt : SortedProduct.query.blockCount < 2 ^ 32 := by rw [hcount]; norm_num
  obtain ⟨haccepted, hrestored⟩ := ofPlan_restores (QueryId.ofNat 1) hlt
  have hnodes : ∀ n ∈ SortedProduct.query.nodes, n.InQuery := by
    simp [SortedProduct.query, Plan.joining, Plan.scanTable, Plan.nodes, Plan.InQuery]
  obtain ⟨p, hp⟩ := haccepted.mpr hnodes
  obtain ⟨hlength, -, t, ht, hid, hplan⟩ := hrestored p hp
  rw [hcount] at hlength
  exact ⟨hlt, p, hp, hlength, t, ht, hid, hplan 5 hlength.le⟩

end MasterPlan

end BlockQuery
