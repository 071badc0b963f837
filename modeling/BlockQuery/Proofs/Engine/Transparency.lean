import BlockQuery.Engine.Query
import BlockQuery.Proofs.Engine.Success

/-!
# Indexes make no difference

Whatever statements led to an engine, a filter over a table yields the same rows
with the indexes of the table as without them, up to their order, if no indexed
column is compared with a double.  But an index cannot be opened if the name
that was given for its column is too long, and then there is no context in which
the table can be scanned.
-/

namespace BlockQuery

namespace Engine

/-! ## Contexts -/

section Bind

variable {catalog : Catalog} {data : Fragment} {table : String} {entries : List IndexEntry}
  {ctx bound : TaskContext} {host after : Host}

/-- Indexes are bound just if they open, and each of them under the column that it names. -/
theorem bindIndexes_eq_ok (h : bindIndexes data table entries ctx host = (.ok bound, after)) :
    after.disk = host.disk ∧ bound.tables = ctx.tables ∧
      (∀ x ∈ entries, ∃ r, Index.Reader.open? host.disk x.path = .ok r) ∧
      ∀ b ∈ bound.indexes, b ∈ ctx.indexes ∨ ∃ x ∈ entries, ∃ r,
        Index.Reader.open? host.disk x.path = .ok r ∧ b = ⟨table, x.column, data, r⟩ := by
  induction entries generalizing ctx host with
  | nil =>
    cases h
    exact ⟨rfl, rfl, nofun, fun b hb => Or.inl hb⟩
  | cons x entries ih =>
    rw [bindIndexes, Host.openIndex] at h
    cases hopen : Index.Reader.open? host.disk x.path with
    | error fault =>
      rw [hopen] at h
      cases h
    | ok r =>
      rw [hopen] at h
      obtain ⟨hdisk, htables, hopens, hbindings⟩ := ih h
      refine ⟨hdisk, htables, List.forall_mem_cons.mpr ⟨⟨r, hopen⟩, hopens⟩, ?_⟩
      intro b hb
      rcases hbindings b hb with hb | ⟨y, hy, hb⟩
      · rcases List.mem_append.mp hb with hb | hb
        · exact Or.inl hb
        · exact Or.inr ⟨x, List.mem_cons_self, r, hopen, List.mem_singleton.mp hb⟩
      · exact Or.inr ⟨y, List.mem_cons_of_mem _ hy, hb⟩

theorem exists_bindIndexes
    (h : ∀ x ∈ entries, ∃ r, Index.Reader.open? host.disk x.path = .ok r) :
    ∃ bound after, bindIndexes data table entries ctx host = (.ok bound, after) := by
  induction entries generalizing ctx host with
  | nil => exact ⟨ctx, host, rfl⟩
  | cons x entries ih =>
    obtain ⟨⟨r, hopen⟩, hrest⟩ := List.forall_mem_cons.mp h
    rw [bindIndexes, Host.openIndex, hopen]
    exact ih hrest

theorem bindTables_singleton {t : TableEntry} (ht : catalog.table? table = some t) :
    bindTables catalog [table] ctx host = (.ok bound, after) ↔
      bindIndexes ⟨table, t.path⟩ table (catalog.indexesOf table)
        (ctx.addTable table ⟨table, t.path⟩) host = (.ok bound, after) := by
  rw [bindTables, Catalog.getTable_eq_ok.mpr ht]
  dsimp only
  rcases bindIndexes ⟨table, t.path⟩ table (catalog.indexesOf table)
    (ctx.addTable table ⟨table, t.path⟩) host with ⟨fault | bound', after'⟩
  · exact ⟨nofun, nofun⟩
  · constructor
    · intro h
      cases h
      rfl
    · intro h
      cases h
      rfl

end Bind

/-! ## Tables with their indexes -/

section Keeps

variable {e : Engine} {place : Place} {t : TableEntry} {rows kept : List Row} {p : Expr}
  {ctx plain : TaskContext} {after : Host}

/-- Whether a table has an index on the column at a position. -/
def IndexedAt (e : Engine) (t : TableEntry) (i : ℕ) : Prop :=
  ∃ x ∈ e.catalog.indexesOf t.name, t.schema.find x.column = .ok i

/-- A file holds the rows of one list only. -/
theorem holds_unique {others : List Row} {disk : Disk} (hcolumns : t.schema.length ≤ 65535)
    (h : t.Holds disk rows) (hother : t.Holds disk others) : others = rows := by
  have hrows := Disk.rows?_of_open (h.fits hcolumns) h.opens
  have hothers := Disk.rows?_of_open (hother.fits hcolumns) hother.opens
  exact Option.some.inj (hothers.symm.trans hrows)

/-- With the indexes that are bound a table is one whose indexes list its rows. -/
theorem Keeps.indexedTable (h : e.Keeps place) (ht : e.catalog.table? t.name = some t)
    (hrows : t.Holds e.host.disk rows)
    (hbind : bindTables e.catalog [t.name] .empty e.host = (.ok ctx, after)) :
    IndexedTable ctx after.disk t.name t.qualifiedSchema ⟨t.name, t.path⟩ rows ∧
      ∀ i, ctx.HasIndexAt t.name t.qualifiedSchema i → e.IndexedAt t i := by
  have hhas := h.tables t.name t ht
  obtain ⟨hdisk, htables, -, hbindings⟩ := bindIndexes_eq_ok ((bindTables_singleton ht).mp hbind)
  have hfiles : ctx.filesOf t.name = [⟨t.name, t.path⟩] := by
    rw [TaskContext.filesOf, htables]
    simp [TaskContext.addTable, TaskContext.empty]
  have hbound : ∀ b ∈ ctx.indexesOn t.name, ∃ x ∈ e.catalog.indexesOf t.name, ∃ r,
      Index.Reader.open? e.host.disk x.path = .ok r ∧
        b = ⟨t.name, x.column, ⟨t.name, t.path⟩, r⟩ := by
    intro b hb
    rw [TaskContext.indexesOn, hfiles] at hb
    rcases hbindings b (List.mem_of_mem_filter hb) with hnone | hx
    · cases hnone
    · exact hx
  have hfind : ∀ {column i}, t.qualifiedSchema.findIdx? (·.simple == column) = some i →
      t.schema.find column = .ok i := by
    intro column i hi
    rw [TableEntry.qualifiedSchema, Schema.findIdx?_qualified hhas.names] at hi
    exact Schema.find_of_findIdx? hi
  rw [hdisk]
  constructor
  · refine ⟨hfiles, hrows.opens, hrows.fits hhas.columns, hrows.admits.file, ?_,
      Schema.findsFirst_qualified _ _, ?_⟩
    · intro i c hget
      rw [TableEntry.qualifiedSchema, Schema.qualified, List.getElem?_map] at hget
      obtain ⟨d, hd, rfl⟩ := Option.map_eq_some_iff.mp hget
      have hcolumn := hrows.haveColumn hd
      exact hcolumn
    · intro b hb i hi
      obtain ⟨x, hx, r, hr, rfl⟩ := hbound b hb
      obtain ⟨hmem, htable⟩ := Catalog.mem_indexesOf.mp hx
      obtain ⟨t', others, position, ht', hothers, hposition, -, hcovers⟩ :=
        (h.indexes x hmem).lists
      obtain ⟨listed, hlisted⟩ := hcovers r hr
      rw [htable] at ht' hlisted
      cases ht.symm.trans ht'
      rw [holds_unique hhas.columns hrows hothers] at hlisted
      cases (hfind hi).symm.trans hposition
      exact ⟨listed, hlisted⟩
  · rintro i ⟨b, hb, hi⟩
    obtain ⟨x, hx, r, -, rfl⟩ := hbound b hb
    exact ⟨x, hx, hfind hi⟩

/-- A table that can be scanned has a file of its rows. -/
theorem Keeps.exists_holds (h : e.Keeps place) (ht : e.catalog.table? t.name = some t)
    {schema : Schema} {hint : Option UInt64} (hfiles : plain.filesOf t.name = [⟨t.name, t.path⟩])
    (hnone : plain.indexes = [])
    (hkept : (Plan.filter p (.scan ⟨.table t.name, schema, none, hint⟩)).answer plain e.host.disk =
      .ok kept) : ∃ rows, t.Holds e.host.disk rows := by
  obtain ⟨schema', hrelation⟩ := (Plan.answer_ok_iff plain e.host.disk).mp hkept
  rw [Plan.relation?_filter_scanTable_of_none hfiles
    (IndexChoice.ofPredicate?_eq_none_of_nil hnone)] at hrelation
  obtain ⟨rows, hrows, -⟩ := Option.bind_eq_some_iff.mp hrelation
  cases hentry : e.host.disk.openEntry t.path with
  | error fault =>
    rw [Disk.rows?, Disk.reader?, RowReader.open?, hentry] at hrows
    cases hrows
  | ok entry => exact (h.tables t.name t ht).rows entry hentry

/-- A table answers a filter with its indexes as without them just if all of them can be opened:
the names of their columns are within the limit. -/
theorem Keeps.exists_answer_iff (h : e.Keeps place) (ht : e.catalog.table? t.name = some t)
    (hp : p.AvoidsDoubles t.qualifiedSchema (e.IndexedAt t)) {hint : Option UInt64}
    (hfiles : plain.filesOf t.name = [⟨t.name, t.path⟩]) (hnone : plain.indexes = [])
    (hkept : (Plan.filter p (.scanTable t.name t.schema hint)).answer plain e.host.disk =
      .ok kept) :
    (∃ ctx after found, bindTables e.catalog [t.name] .empty e.host = (.ok ctx, after) ∧
      (Plan.filter p (.scanTable t.name t.schema hint)).answer ctx after.disk = .ok found ∧
        found.Perm kept) ↔
      ∀ x ∈ e.catalog.indexesOf t.name, (Bytes.ofText x.column).length ≤ Index.maxNameLength := by
  have hopens : ∀ x ∈ e.catalog.indexesOf t.name,
      (∃ r, Index.Reader.open? e.host.disk x.path = .ok r) ↔
        (Bytes.ofText x.column).length ≤ Index.maxNameLength := by
    intro x hx
    obtain ⟨-, -, -, -, -, -, hopens, -⟩ :=
      (h.indexes x (Catalog.mem_indexesOf.mp hx).1).lists
    exact hopens
  constructor
  · rintro ⟨ctx, after, found, hbind, -⟩ x hx
    obtain ⟨-, -, hall, -⟩ := bindIndexes_eq_ok ((bindTables_singleton ht).mp hbind)
    exact (hopens x hx).mp (hall x hx)
  · intro hnames
    obtain ⟨ctx, after, hbind⟩ := exists_bindIndexes
      (fun x hx => (hopens x hx).mpr (hnames x hx) : ∀ x ∈ e.catalog.indexesOf t.name, _)
    have hbind : bindTables e.catalog [t.name] .empty e.host = (.ok ctx, after) :=
      (bindTables_singleton ht).mpr hbind
    obtain ⟨rows, hrows⟩ := h.exists_holds ht hfiles hnone hkept
    obtain ⟨htable, hindexed⟩ := h.indexedTable ht hrows hbind
    have hdisk := (bindIndexes_eq_ok ((bindTables_singleton ht).mp hbind)).1
    rw [← hdisk] at hkept
    obtain ⟨found, hfound, hperm⟩ := htable.answer_perm
      (fun e he name op v i c hcomparison hfind hget hi =>
        hp e he name op v i c hcomparison hfind hget (hindexed i hi)) hint hfiles hnone hkept
    exact ⟨ctx, after, found, hbind, hfound, hperm⟩

end Keeps

/-! ## A column under a short and under a long name -/

namespace Sample

def config : Config := ⟨".", 2, 64, 10000, false⟩

def host : Host := ⟨.empty, ⟨.error, ⟨"", ""⟩, [], []⟩, .zero, 0⟩

def schema : Schema := [⟨"a", .int4⟩]

def rows : List Row := [[.int4 1], [.int4 2], [.int4 1]]

def predicate : Expr := .compare .eq (.column "a") (.literal (.int4 1))

/-- The context with the file of a table, and without indexes. -/
def plain (t : TableEntry) : TaskContext := TaskContext.empty.addTable t.name ⟨t.name, t.path⟩

theorem leadsTo : host.disk.LeadsTo config.dataDir ["."] := by
  have hstart : Path.start "." = (["."], ["."]) := by decide +kernel
  have hcheck : Path.check "." = .ok () := rfl
  refine ⟨?_, rfl⟩
  rw [config, Disk.resolve_of_check hcheck, hstart]
  rfl

theorem admits_rows : schema.Admits rows where
  values := by
    intro row hrow i c d hc hd
    have hrows : row = [.int4 1] ∨ row = [.int4 2] := by
      simpa [rows, or_comm, or_assoc] using hrow
    rcases i with _ | i
    · cases hc
      rcases hrows with rfl | rfl <;> cases hd <;> exact Or.inr rfl
    · cases hc
  records := by decide
  file := by decide

/-- The table can be filled and its column be indexed, whatever name is given for the column. -/
theorem exists_indexed {column : String} (hfind : schema.find column = .ok 0)
    (hlong : (Bytes.ofText column).length < 2 ^ 32) :
    ∃ e t, Relation.ReflTransGen Step (start config host) e ∧ e.Keeps ["."] ∧
      e.catalog.table? t.name = some t ∧ t.name = "t" ∧ t.schema = schema ∧
      t.Holds e.host.disk rows ∧ e.catalog.indexesOf t.name =
        [IndexEntry.new "i" "t" column (config.indexPath "i") true] := by
  have hname : isFileName "t" = true := by decide
  have hindexName : isFileName "i" = true := by decide
  have hfile : config.CanName (tableFile "t") := ⟨by decide, by decide +kernel⟩
  have hindexFile : config.CanName (indexFile "i") := ⟨by decide, by decide +kernel⟩
  have hstart : (start config host).Keeps ["."] := keeps_start leadsTo fun _ => rfl
  obtain ⟨created, hcreate, hconfig, hindexes, htable⟩ :=
    hstart.exists_createTable hname (by decide) rfl hfile schema
  have hplan : (Plan.creating "t" schema).Declares := by
    refine ⟨rfl, by decide, ?_⟩
    intro c hc
    rw [List.mem_singleton.mp hc]
    decide
  have hcreated : Step (start config host) created := by
    have hstep := Step.createTable (start config host) (.creating "t" schema) hplan
    rwa [hcreate] at hstep
  have hkeeps := hstart.step hcreated
  have hnone : created.catalog.indexes = [] := hindexes
  obtain ⟨filled, t, hfill, hfilledConfig, hfilledIndexes, ht, htName, htSchema, hrows⟩ :=
    hkeeps.exists_fillTable htable (by simp [Catalog.indexesOf, hnone]) (by decide)
      admits_rows (hconfig ▸ hfile)
  have hfilled : Step created filled := by
    have hstep := Step.fillTable created "t" rows (by
      intro t' ht'
      rw [htable] at ht'
      cases ht'
      exact admits_rows)
    rwa [hfill] at hstep
  have hkeeps := hkeeps.step hfilled
  rw [hconfig] at hfilledConfig
  rw [hnone] at hfilledIndexes
  obtain ⟨summary, indexed, hindex, hcatalog, hindexedRows⟩ := hkeeps.exists_createIndex ht hrows
    hindexName (by decide) (by rw [Catalog.hasIndex, Catalog.index?, hfilledIndexes]; rfl)
    (by rw [htSchema]; exact hfind) hlong (by rw [hfilledConfig]; decide) (by rw [hfilledConfig]; rfl)
    (hfilledConfig ▸ hindexFile) true
  have hindexed : Step filled indexed := by
    have hstep := Step.createIndex filled "i" "t" column true
    rwa [hindex] at hstep
  have htName : t.name = "t" := htName
  refine ⟨indexed, t, ((Relation.ReflTransGen.single hcreated).tail hfilled).tail hindexed,
    hkeeps.step hindexed, ?_, htName, htSchema, hindexedRows, ?_⟩
  · rw [hcatalog, htName]
    exact ht
  · rw [hfilledConfig] at hcatalog
    simp [Catalog.indexesOf, hcatalog, hfilledIndexes, htName, IndexEntry.new]
    rfl

section Answer

variable {t : TableEntry} {disk : Disk}

theorem qualifiedSchema_eq (hname : t.name = "t") (hschema : t.schema = schema) :
    t.qualifiedSchema = [⟨"t.a", .int4⟩] := by
  rw [TableEntry.qualifiedSchema, hname, hschema]
  rfl

theorem filesOf_plain (t : TableEntry) : (plain t).filesOf t.name = [⟨t.name, t.path⟩] := by
  simp [plain, TaskContext.addTable, TaskContext.empty, TaskContext.filesOf]

/-- Without indexes the rows with the value are found. -/
theorem answer_plain (hname : t.name = "t") (hschema : t.schema = schema)
    (hrows : t.Holds disk rows) :
    (Plan.filter predicate (.scanTable t.name t.schema none)).answer (plain t) disk =
      .ok [[.int4 1], [.int4 1]] := by
  have hbind : predicate.bind [⟨"t.a", .int4⟩] =
      .ok (.binary (.comparison .eq) (.column 0 "a") (.literal (.int4 1))) := rfl
  have hcolumns : t.schema.length ≤ 65535 := by
    rw [hschema]
    decide
  apply (Plan.answer_ok_iff (plain t) disk).mpr
  refine ⟨[⟨"t.a", .int4⟩], ?_⟩
  have hqualified := qualifiedSchema_eq hname hschema
  rw [TableEntry.qualifiedSchema] at hqualified
  rw [Plan.scanTable, hqualified, Plan.relation?_filter_scanTable_of_none (filesOf_plain t)
    (IndexChoice.ofPredicate?_eq_none_of_nil rfl), Disk.rows?_of_open (hrows.fits hcolumns)
    hrows.opens, Option.bind_some, Relation.stored?, if_pos (by decide)]
  rw [Relation.select?, hbind]
  rfl

theorem avoidsDoubles (hname : t.name = "t") (hschema : t.schema = schema) (columns : ℕ → Prop) :
    predicate.AvoidsDoubles t.qualifiedSchema columns := by
  intro e he name op v i c hcomparison hfind hget hi
  rw [List.mem_singleton.mp he] at hcomparison
  rw [qualifiedSchema_eq hname hschema] at hget
  cases hcomparison
  have hmem := List.mem_of_getElem? hget
  rw [List.mem_singleton.mp hmem]
  exact ⟨by decide, by decide⟩

end Answer

/-- A name that ends with the name of the column. -/
def qualifiedName (n : ℕ) : String := String.ofList (List.replicate n 'x') ++ "." ++ "a"

theorem find_qualifiedName (n : ℕ) : schema.find (qualifiedName n) = .ok 0 := by
  have hsimple : simpleName (qualifiedName n) = "a" := simpleName_append (by decide) _
  have hself : simpleName "a" = "a" := simpleName_of_notMem (by decide)
  have hne : ("a" == qualifiedName n) = false := by
    rw [beq_eq_false_iff_ne]
    intro h
    have hlength := congrArg String.length h
    simp [qualifiedName] at hlength
  have hanswers : (Column.mk "a" DataType.int4).answersTo (qualifiedName n) = true := by
    simp [Column.answersTo, hsimple, Column.simple, hself]
  have hall : schema.answering (qualifiedName n) = [0] := by
    simp [Schema.answering, schema, hanswers]
  rw [Schema.find, hall]
  simp [schema, hne]

theorem length_qualifiedName (n : ℕ) : (Bytes.ofText (qualifiedName n)).length = n + 2 := by
  have hsize : (String.ofList (List.replicate n 'x')).utf8ByteSize = n := by
    induction n with
    | zero => rfl
    | succ n ih =>
      rw [List.replicate_succ, String.ofList_cons, String.utf8ByteSize_append, ih,
        String.utf8ByteSize_singleton, Nat.add_comm]
      rfl
  have hlength : (Bytes.ofText (qualifiedName n)).length = (qualifiedName n).utf8ByteSize := rfl
  rw [hlength, qualifiedName, String.utf8ByteSize_append, String.utf8ByteSize_append, hsize]
  rfl

end Sample

/-! ## Any statements -/

section Run

variable {config : Config} {host : Host} {place : Place} {e : Engine} {t : TableEntry} {p : Expr}
  {plain : TaskContext} {kept : List Row} {hint : Option UInt64}

/-- After any statements that start with an empty directory, a table answers a filter with its
indexes as without them just if all of them can be opened. -/
theorem transparent_iff_of_run (hdir : host.disk.LeadsTo config.dataDir place)
    (hempty : ∀ child, host.disk.get? (place ++ [child]) = none)
    (hrun : Relation.ReflTransGen Step (start config host) e)
    (ht : e.catalog.table? t.name = some t)
    (hp : p.AvoidsDoubles t.qualifiedSchema (e.IndexedAt t))
    (hfiles : plain.filesOf t.name = [⟨t.name, t.path⟩]) (hnone : plain.indexes = [])
    (hkept : (Plan.filter p (.scanTable t.name t.schema hint)).answer plain e.host.disk =
      .ok kept) :
    (∃ ctx after found, bindTables e.catalog [t.name] .empty e.host = (.ok ctx, after) ∧
      (Plan.filter p (.scanTable t.name t.schema hint)).answer ctx after.disk = .ok found ∧
        found.Perm kept) ↔
      ∀ x ∈ e.catalog.indexesOf t.name, (Bytes.ofText x.column).length ≤ Index.maxNameLength :=
  ((keeps_start hdir hempty).run hrun).exists_answer_iff ht hp hfiles hnone hkept

end Run

open Sample in
theorem transparent_of_short_name : ∃ e t,
    Relation.ReflTransGen Step (start Sample.config Sample.host) e ∧
    e.catalog.table? t.name = some t ∧
    (e.catalog.indexesOf t.name).map (·.column) = ["a"] ∧
    predicate.AvoidsDoubles t.qualifiedSchema (e.IndexedAt t) ∧
    (plain t).filesOf t.name = [⟨t.name, t.path⟩] ∧ (plain t).indexes = [] ∧
    (Plan.filter predicate (.scanTable t.name t.schema none)).answer (plain t) e.host.disk =
      .ok [[.int4 1], [.int4 1]] ∧
    ∃ ctx after found, bindTables e.catalog [t.name] .empty e.host = (.ok ctx, after) ∧
      (Plan.filter predicate (.scanTable t.name t.schema none)).answer ctx after.disk =
        .ok found ∧ found.Perm [[.int4 1], [.int4 1]] := by
  have hfind : schema.find "a" = .ok 0 := rfl
  obtain ⟨e, t, hrun, -, ht, hname, hschema, hrows, hindexes⟩ := exists_indexed hfind (by decide)
  have hp := avoidsDoubles hname hschema (e.IndexedAt t)
  have hanswer := answer_plain hname hschema hrows
  have hiff := transparent_iff_of_run leadsTo (fun _ => rfl) hrun ht hp (filesOf_plain t) rfl hanswer
  refine ⟨e, t, hrun, ht, ?_, hp, filesOf_plain t, rfl, hanswer, hiff.mpr ?_⟩
  · rw [hindexes]
    rfl
  · intro x hx
    rw [hindexes] at hx
    rw [List.mem_singleton.mp hx]
    decide

open Sample in
/-- With a long name for its column an index is built, and then no query on the table is possible. -/
theorem not_transparent_of_long_name : ∃ e t,
    Relation.ReflTransGen Step (start Sample.config Sample.host) e ∧
    e.catalog.table? t.name = some t ∧
    predicate.AvoidsDoubles t.qualifiedSchema (e.IndexedAt t) ∧
    (plain t).filesOf t.name = [⟨t.name, t.path⟩] ∧ (plain t).indexes = [] ∧
    (Plan.filter predicate (.scanTable t.name t.schema none)).answer (plain t) e.host.disk =
      .ok [[.int4 1], [.int4 1]] ∧
    ¬ ∃ ctx after found, bindTables e.catalog [t.name] .empty e.host = (.ok ctx, after) ∧
      (Plan.filter predicate (.scanTable t.name t.schema none)).answer ctx after.disk =
        .ok found ∧ found.Perm [[.int4 1], [.int4 1]] := by
  obtain ⟨e, t, hrun, hkeeps, ht, hname, hschema, hrows, hindexes⟩ :=
    exists_indexed (find_qualifiedName 65535) (by rw [length_qualifiedName]; decide)
  have hp := avoidsDoubles hname hschema (e.IndexedAt t)
  have hanswer := answer_plain hname hschema hrows
  refine ⟨e, t, hrun, ht, hp, filesOf_plain t, rfl, hanswer, ?_⟩
  intro hfound
  have hnames := (hkeeps.exists_answer_iff ht hp (filesOf_plain t) rfl hanswer).mp hfound
  rw [hindexes] at hnames
  have hshort := hnames _ List.mem_cons_self
  change (Bytes.ofText (qualifiedName 65535)).length ≤ _ at hshort
  rw [length_qualifiedName] at hshort
  exact absurd hshort (by decide)

end Engine

end BlockQuery
