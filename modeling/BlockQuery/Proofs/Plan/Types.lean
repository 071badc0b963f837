import BlockQuery.Proofs.Index.Listed
import BlockQuery.Proofs.Operator.NumericKeys
import BlockQuery.Proofs.Operator.Types
import BlockQuery.Proofs.Plan.Parts

/-!
# Execution keeps to types

Over stored rows that conform to the schemas of its scans, the operator tree of
a plan that builders made yields only rows of its columns' types.
-/

namespace BlockQuery

/-! ## Contexts -/

/-- The files that the scans of a source read. -/
def TaskContext.filesFor (ctx : TaskContext) : ScanSource → List Fragment
  | .table name => ctx.filesOf name
  | .block seq => ctx.outputFragments seq

/-- Whether all rows that the files of a scan store conform to its schema. -/
def TaskContext.StoresTyped (ctx : TaskContext) (disk : Disk) (scan : Scan) : Prop :=
  ∀ f ∈ ctx.filesFor scan.source, ∀ row, disk.Stores f.path row → row.Conforms scan.schema

/-- Whether an index was built from a column of the file of its data, as the file is on a disk, and
opened.  The bounds are beyond what a file can hold. -/
def IndexBinding.BuiltOver (b : IndexBinding) (disk : Disk) : Prop :=
  ∃ (built sealed : Disk) (path : String) (position : ℕ) (column : Column) (spec : SortSpec)
    (loadFactor : UInt32) (verifyOrder : Bool) (entries : List (Row × ℕ))
    (summary : Index.Summary),
    RowReader.open? built b.data.path = RowReader.open? disk b.data.path ∧
      (∀ number content, built.openEntry b.data.path = .ok (.file number content) →
        content.length ≤ RowReader.maxPosition) ∧
      built.readColumn b.data.path position = .ok entries ∧
      (entries.flatMap Index.encodeEntry).length ≤ 2 ^ 62 ∧
      Index.build built path [column] [spec] loadFactor.toNat verifyOrder entries =
        (.ok summary, sealed) ∧
      Index.Reader.open? sealed path = .ok b.reader

namespace IndexBinding

variable {b : IndexBinding} {disk : Disk}

/-- An index of a file of records was built over it. -/
theorem BuiltFrom.builtOver {rows : List Row} {position : ℕ} {type : DataType}
    (h : b.BuiltFrom rows position type) (hcolumn : Row.HaveColumn position type rows)
    (hfits : ∀ row ∈ rows, row.Fits) (hsize : (rows.flatMap Record.encode).length ≤ 2 ^ 62)
    (hopen : RowReader.open? disk b.data.path =
      .ok (.ofContent b.data.path (rows.flatMap Record.encode))) : b.BuiltOver disk := by
  obtain ⟨built, sealed, path, ascending, loadFactor, verifyOrder, entries, summary, hdata, hread,
    hbuild, hreader⟩ := h
  have hentries := hread
  rw [Disk.readColumn_of_open hfits hdata] at hentries
  cases hentries
  refine ⟨built, sealed, path, position, ⟨b.column, type⟩, _, loadFactor, verifyOrder, _,
    summary, hdata.trans hopen.symm, ?_, hread, (length_keys_le hcolumn 0).trans hsize, hbuild,
    hreader⟩
  intro number content hentry
  rw [RowReader.open?_of_openEntry hentry] at hdata
  cases hdata
  rw [RowReader.maxPosition]
  omega

/-- What the scans of an index find are the places of rows that its file stores. -/
theorem BuiltOver.exists_content (h : b.BuiltOver disk) : ∃ content,
    RowReader.open? disk b.data.path = .ok (.ofContent b.data.path content) ∧
      content.length ≤ RowReader.maxPosition ∧
      ∀ lower upper offsets, (b.reader.scan lower upper).bind Index.Scan.offsets = .ok offsets →
        ∀ offset ∈ offsets, ∃ row t,
          (RowReader.standing b.data.path content offset).next = (.ok (some row), t) ∧
            disk.Stores b.data.path row := by
  obtain ⟨built, sealed, path, position, column, spec, loadFactor, verifyOrder, entries,
    summary, hsame, hlimit, hread, hsize, hbuild, hreader⟩ := h
  obtain ⟨number, content, hentry⟩ := Disk.exists_openEntry_of_readColumn hread
  have hopen := RowReader.open?_of_openEntry hentry
  have hlength := hlimit number content hentry
  have hstored := Disk.stores_of_readColumn hopen hread
  have hstorable : ∀ e ∈ entries, Index.Storable e := by
    intro e he
    obtain ⟨hlt, hkey, -⟩ := hstored e he
    rw [RowReader.maxPosition] at hlength
    exact ⟨hkey, by omega⟩
  obtain ⟨w, made, hfilled, hclose⟩ := Index.exists_filled_of_build hbuild
  have hmem := fun e => (Index.perm_sortEntries w.order entries).mem_iff (a := e)
  rw [← Index.length_encode_sortEntries w.order] at hsize
  have hlists := hfilled.lists_of_open? loadFactor.toNat_lt (show 1 ≤ 65535 by decide)
    (fun e he => hstorable e ((hmem e).mp he)) hsize hclose hreader
  refine ⟨content, hsame.symm.trans hopen, hlength, ?_⟩
  intro lower upper offsets hscan offset hoffset
  obtain ⟨e, he, rfl⟩ := Index.exists_entry_of_scan hlists hscan offset hoffset
  obtain ⟨-, -, row, t, hnext, r, n, hr, hrow⟩ := hstored e ((hmem e).mp he)
  exact ⟨row, t, hnext, r, n, hsame.symm.trans hr, hrow⟩

end IndexBinding

namespace Operator

variable {ctx : TaskContext} {disk : Disk} {op : Operator}

/-! ## Scans -/

theorem typed_scanOfFiles {schema : Schema} {fragments : List Fragment} {predicate : Option Expr}
    (hstored : ∀ f ∈ fragments, ∀ row, disk.Stores f.path row → row.Conforms schema)
    (hop : scanOfFiles schema fragments predicate = .ok op) :
    op.Typed disk ∧ op.schema = schema := by
  cases predicate with
  | none =>
    cases hop
    exact ⟨⟨rfl, hstored⟩, rfl⟩
  | some e =>
    obtain ⟨scan, hscan, rfl⟩ := Except.map_eq_ok.mp hop
    rw [SeqScan.withCondition] at hscan
    split at hscan
    · cases hscan
    · cases hscan
      exact ⟨⟨rfl, hstored⟩, rfl⟩

/-- A scan of a chosen index reads rows of the table. -/
theorem typed_indexScan {table : String} {schema : Schema} {predicate : Expr} {c : IndexChoice}
    (hstored : ∀ f ∈ ctx.filesOf table, ∀ row, disk.Stores f.path row → row.Conforms schema)
    (hindexes : ∀ b ∈ ctx.indexes, b.BuiltOver disk)
    (hchoice : IndexChoice.ofPredicate? ctx table schema predicate = some c) :
    (indexScan (c.scan schema)).Typed disk := by
  have hon := (IndexChoice.ofPredicate?_eq_some hchoice).1
  have hdata := TaskContext.mem_filesOf_of_mem_indexesOn hon
  have hbinding : c.binding ∈ ctx.indexes := by
    unfold TaskContext.indexesOn at hon
    split at hon
    · exact List.mem_of_mem_filter hon
    · cases hon
  obtain ⟨content, hopen, hlength, hscan⟩ := (hindexes _ hbinding).exists_content
  refine ⟨content, hopen, hlength, ?_⟩
  intro offsets hfind offset hoffset
  rw [IndexScan.find_eq] at hfind
  obtain ⟨row, t, hnext, hrow⟩ := hscan _ _ offsets hfind offset hoffset
  exact ⟨row, t, hnext, hstored _ hdata row hrow⟩

theorem typed_scanOfTable {table : String} {schema : Schema} {predicate : Option Expr}
    (hstored : ∀ f ∈ ctx.filesOf table, ∀ row, disk.Stores f.path row → row.Conforms schema)
    (hindexes : ∀ b ∈ ctx.indexes, b.BuiltOver disk)
    (hop : scanOfTable ctx table schema predicate = .ok op) :
    op.Typed disk ∧ op.schema = schema := by
  rw [scanOfTable_eq] at hop
  split at hop
  next c e hchoice =>
    obtain ⟨e', -, hmap⟩ := Option.bind_eq_some_iff.mp hchoice
    obtain ⟨c', hc, heq⟩ := Option.map_eq_some_iff.mp hmap
    cases heq
    exact (typed_indexScan hstored hindexes hc).filtering hop
  next =>
    rw [filesOfTable] at hop
    split at hop
    · cases hop
    · exact typed_scanOfFiles hstored hop

theorem typed_ofScan {scan : Scan} {outer : Option Expr} (hstored : ctx.StoresTyped disk scan)
    (hindexes : ∀ b ∈ ctx.indexes, b.BuiltOver disk) (hop : ofScan ctx scan outer = .ok op) :
    op.Typed disk ∧ op.schema = scan.schema := by
  unfold TaskContext.StoresTyped at hstored
  rw [ofScan] at hop
  split at hop
  next seq hsource =>
    rw [hsource] at hstored
    obtain ⟨fragments, hfragments, hop⟩ := Except.bind_eq_ok.mp hop
    rw [TaskContext.getOutput] at hfragments
    split at hfragments
    · cases hfragments
    · cases hfragments
      exact typed_scanOfFiles hstored hop
  next table hsource =>
    rw [hsource] at hstored
    exact typed_scanOfTable hstored hindexes hop

end Operator

namespace Plan

/-- Whether each target of a projection declares the type that its expression has. -/
def Declared : Plan → Prop
  | root child => child.Declared
  | scan _ | createTable .. => True
  | join _ _ left right _ => left.Declared ∧ right.Declared
  | filter _ input | groupBy _ _ input _ | sort _ input => input.Declared
  | project targets input _ =>
    (∀ t ∈ targets, t.expr.typeIn input.schema = .ok t.type) ∧ input.Declared

variable {ctx : TaskContext} {disk : Disk} {p : Plan} {op : Operator}

/-- The operator tree of a plan is typed, and has the schema of the plan. -/
theorem typed_ofPlan (hbuilt : p.Built) (hdeclared : p.Declared)
    (hstored : ∀ scan ∈ p.scans, ctx.StoresTyped disk scan)
    (hindexes : ∀ b ∈ ctx.indexes, b.BuiltOver disk) (hop : Operator.ofPlan ctx p = .ok op) :
    op.Typed disk ∧ op.schema = p.schema := by
  induction p generalizing op with
  | root child ih => exact ih hbuilt hdeclared hstored hop
  | scan scan => exact Operator.typed_ofScan (hstored scan (List.mem_singleton_self _)) hindexes hop
  | createTable => cases hop
  | filter predicate input ih =>
    by_cases hscan : ∃ s, input = scan s
    · obtain ⟨s, rfl⟩ := hscan
      exact Operator.typed_ofScan (hstored s (List.mem_singleton_self _)) hindexes hop
    · rw [Operator.ofPlan] at hop
      · obtain ⟨child, hchild, hop⟩ := Except.bind_eq_ok.mp hop
        obtain ⟨htyped, hschema⟩ := ih hbuilt hdeclared hstored hchild
        obtain ⟨hresult, heq⟩ := htyped.filtering hop
        exact ⟨hresult, heq.trans hschema⟩
      · exact fun s hs => hscan ⟨s, hs⟩
  | join type condition left right schema ihl ihr =>
    obtain ⟨hl, hr⟩ := List.forall_mem_append.mp hstored
    obtain ⟨l, hleft, hop⟩ := Except.bind_eq_ok.mp hop
    obtain ⟨r, hright, hop⟩ := Except.bind_eq_ok.mp hop
    obtain ⟨hltyped, hlschema⟩ := ihl hbuilt.2.1 hdeclared.1 hl hleft
    obtain ⟨hrtyped, hrschema⟩ := ihr hbuilt.2.2 hdeclared.2 hr hright
    obtain ⟨hresult, heq⟩ := hltyped.joining hrtyped hop
    refine ⟨hresult, ?_⟩
    rw [heq, hlschema, hrschema, hbuilt.1]
    rfl
  | groupBy keys aggregates input schema ih =>
    obtain ⟨child, hchild, hop⟩ := Except.bind_eq_ok.mp hop
    obtain ⟨htyped, hschema⟩ := ih hbuilt.2 hdeclared hstored hchild
    obtain ⟨columns, hcolumns, hsame⟩ := Except.bind_eq_ok.mp hbuilt.1
    cases hsame
    rw [← hschema] at hcolumns
    exact htyped.grouping hcolumns hop
  | sort specs input ih =>
    obtain ⟨child, hchild, hop⟩ := Except.bind_eq_ok.mp hop
    obtain ⟨htyped, hschema⟩ := ih hbuilt hdeclared hstored hchild
    obtain ⟨hresult, heq⟩ := htyped.sorting hop
    exact ⟨hresult, heq.trans hschema⟩
  | project targets input schema ih =>
    obtain ⟨child, hchild, hop⟩ := Except.bind_eq_ok.mp hop
    obtain ⟨htyped, hschema⟩ := ih hbuilt.2 hdeclared.2 hstored hchild
    have htypes := hdeclared.1
    rw [← hschema] at htypes
    obtain ⟨hresult, heq⟩ := htyped.projecting htypes hop
    refine ⟨hresult, ?_⟩
    rw [heq, hbuilt.1]
    rfl

/-- Every row that an operator of the tree of a plan yields, whatever calls came before, has one
value for each column of the operator's schema, null or of the type of the column.  On such a row
an expression that has a type in the schema is null, a value of this type, or a fault. -/
theorem conforms_of_ofPlan (hbuilt : p.Built) (hdeclared : p.Declared)
    (hstored : ∀ scan ∈ p.scans, ctx.StoresTyped disk scan)
    (hindexes : ∀ b ∈ ctx.indexes, b.BuiltOver disk) (hop : Operator.ofPlan ctx p = .ok op) :
    op.schema = p.schema ∧ ∀ node ∈ op.nodes, ∀ s, (node.source disk).Reachable s →
      ∀ cancelled row t, (node.source disk).next cancelled s = (.ok (some row), t) →
        row.Conforms node.schema ∧
          ∀ (e : Expr) type b, e.typeIn node.schema = .ok type → e.bind node.schema = .ok b →
            (∃ fault, b.eval row = .error fault) ∨
              ∃ d, b.eval row = .ok d ∧ (d = .null ∨ d.type? = some type) := by
  obtain ⟨htyped, hschema⟩ := typed_ofPlan hbuilt hdeclared hstored hindexes hop
  refine ⟨hschema, ?_⟩
  intro node hnode s hs cancelled row t hnext
  have hrow := (htyped.of_mem_nodes node hnode).yieldsOnly s hs cancelled row t hnext
  refine ⟨hrow, ?_⟩
  intro e type b htype hbind
  cases heval : b.eval row with
  | error fault => exact Or.inl ⟨fault, rfl⟩
  | ok d => exact Or.inr ⟨d, rfl, Expr.keeps_of_typeIn htype hbind row hrow d heval⟩

end Plan

namespace Plan.TypedSample

open IndexedNumbers.Sample (rows data disk context above fits_rows open?_disk haveColumn
  exists_index ofPredicate?_context)

/-- The rows of the table, its column under a name. -/
def stored (column : String) : Plan := scan ⟨.table "t", [⟨column, .float8⟩], none, none⟩

/-- The rows that an index finds, with all rows beside each of them. -/
def joined : Plan := joining (filter above (stored "t.f")) (stored "u.f") .leftOuter none

def aggregates : List Aggregate := [⟨.count, none, "n"⟩, ⟨.max, some (.column "u.f"), "top"⟩]

def grouped : Plan :=
  groupBy ["t.f"] aggregates joined [⟨"t.f", .float8⟩, ⟨"n", .int8⟩, ⟨"top", .float8⟩]

def targets : List Target :=
  [⟨.binary (.arithmetic .plus) (.column "n") (.literal (.int4 1)), "next", .int8⟩,
    ⟨.binary (.arithmetic .times) (.column "top") (.column "n"), "product", .float8⟩]

/-- A number and a product for each group, with a number of the wider type each. -/
def sample : Plan := projecting grouped targets

theorem built_sample : sample.Built := by
  have hgrouped : grouped.Built := ⟨rfl, rfl, trivial, trivial⟩
  exact ⟨rfl, hgrouped⟩

theorem declared_sample : sample.Declared := by
  refine ⟨?_, trivial, trivial⟩
  intro t ht
  rcases List.mem_cons.mp ht with rfl | ht
  · cbv
  · obtain rfl := List.mem_singleton.mp ht
    cbv

/-- The rows conform to any schema with one column of their type. -/
theorem conforms_rows (column : String) : ∀ row ∈ rows, row.Conforms [⟨column, .float8⟩] := by
  intro row hrow
  rcases List.mem_cons.mp hrow with rfl | hrow
  · exact List.Forall₂.cons (Or.inr rfl) List.Forall₂.nil
  · obtain rfl := List.mem_singleton.mp hrow
    exact List.Forall₂.cons (Or.inr rfl) List.Forall₂.nil

theorem storesTyped (index : Index.Reader) (column : String) :
    (context index).StoresTyped disk ⟨.table "t", [⟨column, .float8⟩], none, none⟩ := by
  intro f hf row hrow
  have hfiles : (context index).filesFor (.table "t") = [data] := by cbv
  rw [hfiles] at hf
  obtain rfl := List.mem_singleton.mp hf
  exact conforms_rows column row (Disk.mem_of_stores fits_rows open?_disk hrow)

/-- What the index finds, in the schema of the scan. -/
def found (index : Index.Reader) : Operator :=
  .filter (.binary (.comparison .gtEq) (.column 0 "f") (.literal (.int8 9007199254740993)))
    (.indexScan (IndexChoice.scan ⟨⟨"t", "f", data, index⟩,
      .range (.included [.int8 9007199254740993]) .unbounded⟩ [⟨"t.f", .float8⟩]))

def operator (index : Index.Reader) : Operator :=
  .project
    [.binary (.arithmetic .plus) (.column 1 "n") (.literal (.int4 1)),
      .binary (.arithmetic .times) (.column 2 "top") (.column 1 "n")]
    [⟨"next", .int8⟩, ⟨"product", .float8⟩]
    (.aggregate [0] [⟨.count, none, false⟩, ⟨.max, some (.column 1 "u.f"), true⟩]
      [⟨"t.f", .float8⟩, ⟨"n", .int8⟩, ⟨"top", .float8⟩]
      (.join .leftOuter none (found index) (.seqScan ⟨[⟨"u.f", .float8⟩], [data], none, none⟩)))

/-- The index is chosen for the filter, and offers its look-up to nothing above it. -/
theorem ofPlan_sample {index : Index.Reader}
    (hascending : IndexBinding.ascending ⟨"t", "f", data, index⟩ = true) :
    Operator.ofPlan (context index) sample = .ok (operator index) := by
  have hchoice := ofPredicate?_context (p := above)
    (l := .range (.included [.int8 9007199254740993]) .unbounded) hascending (by cbv)
  have hfilter :
      Operator.ofPlan (context index) (filter above (stored "t.f")) = .ok (found index) := by
    change Operator.scanOfTable (context index) "t" IndexedNumbers.Sample.schema (some above) = _
    rw [Operator.scanOfTable_eq, Option.bind_some, hchoice]
    cbv
  have hscan : Operator.ofPlan (context index) (stored "u.f") =
      .ok (.seqScan ⟨[⟨"u.f", .float8⟩], [data], none, none⟩) := by cbv
  rw [sample, projecting, Operator.ofPlan, grouped, Operator.ofPlan, joined, joining,
    Operator.ofPlan, hfilter, hscan]
  rfl

/-- The context stores what the scans of the plan expect, and its index was built from it. -/
theorem exists_builtOver : ∃ index, IndexBinding.ascending ⟨"t", "f", data, index⟩ = true ∧
    ∀ b ∈ (context index).indexes, b.BuiltOver disk := by
  obtain ⟨index, hindex, hascending⟩ := exists_index
  refine ⟨index, hascending, ?_⟩
  intro b hb
  obtain rfl := List.mem_singleton.mp hb
  have hon : ⟨"t", "f", data, index⟩ ∈ (context index).indexesOn "t" := by
    have hindexes : (context index).indexesOn "t" = [⟨"t", "f", data, index⟩] := by cbv
    rw [hindexes]
    exact List.mem_singleton_self _
  exact (hindex.indexes _ hon rfl).builtOver haveColumn fits_rows hindex.size open?_disk

end Plan.TypedSample

open Plan.TypedSample in
/-- A grouping of a join of what an index finds is typed at each of its operators. -/
theorem Plan.conforms_of_ofPlan_sample : ∃ index,
    Operator.ofPlan (IndexedNumbers.Sample.context index) sample = .ok (operator index) ∧
      (operator index).schema = [⟨"next", .int8⟩, ⟨"product", .float8⟩] ∧
      ∀ node ∈ (operator index).nodes, ∀ s, (node.source IndexedNumbers.Sample.disk).Reachable s →
        ∀ cancelled row t,
          (node.source IndexedNumbers.Sample.disk).next cancelled s = (.ok (some row), t) →
          row.Conforms node.schema ∧
            ∀ (e : Expr) type b, e.typeIn node.schema = .ok type → e.bind node.schema = .ok b →
              (∃ fault, b.eval row = .error fault) ∨
                ∃ d, b.eval row = .ok d ∧ (d = .null ∨ d.type? = some type) := by
  obtain ⟨index, hascending, hindexes⟩ := exists_builtOver
  have hop := ofPlan_sample hascending
  refine ⟨index, hop, ?_⟩
  apply conforms_of_ofPlan built_sample declared_sample ?_ hindexes hop
  intro scan hscan
  rcases List.mem_cons.mp hscan with rfl | hscan
  · exact storesTyped index "t.f"
  · obtain rfl := List.mem_singleton.mp hscan
    exact storesTyped index "u.f"

end BlockQuery
