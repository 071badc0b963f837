import BlockQuery.Proofs.Engine.Definitions
import BlockQuery.Proofs.Engine.Statements
import BlockQuery.Proofs.Engine.Transparency

/-!
# Indexes stay current

Rows are loaded under the name of a table, but stored under its path.  As long as every table has
a file of its own, an index lists the rows of its table after any statements: none of them
changes the file of a table that has indexes, or the file of an index.
-/

namespace BlockQuery

/-- A statement that changes what an engine keeps. -/
inductive Statement where
  | define (d : Definition)
  | load (table : String) (rows : List Row)

/-- Whether a content is that of some rows that can be stored under a schema. -/
structure Schema.Stores (schema : Schema) (content : Bytes) (rows : List Row) : Prop where
  content_eq : content = rows.flatMap Record.encode
  wide : ∀ row ∈ rows, row.length = schema.length
  admits : schema.Admits rows

theorem Schema.stores_nil (schema : Schema) : schema.Stores [] [] := by
  have hnone : ∀ {q : Row → Prop}, ∀ row ∈ ([] : List Row), q row :=
    fun _ hrow => absurd hrow List.not_mem_nil
  exact ⟨rfl, hnone, hnone, hnone, Nat.zero_le _⟩

/-- Whether an index opens and lists the rows in the file of its table, each under its value in the
column and with the place where its record starts. -/
def IndexEntry.IsCurrent (x : IndexEntry) (e : Engine) : Prop :=
  ∃ t rows position r entries, e.catalog.table? x.table = some t ∧ t.Holds e.host.disk rows ∧
    t.schema.find x.column = .ok position ∧ Index.Reader.open? e.host.disk x.path = .ok r ∧
    r.Lists entries ∧ entries.Perm ((Record.located rows).map (Record.keyAt position))

namespace Statement

/-- Whether a statement keeps to the limits of the formats and loads rows of the right types. -/
def Within (e : Engine) : Statement → Prop
  | define (.table plan) => ∀ t ∈ (e.entryOf plan).toOption, t.schema.length ≤ 65535
  | define (.index _ _ column _) => (Bytes.ofText column).length ≤ Index.maxNameLength
  | load table rows => ∀ t ∈ e.catalog.table? table, t.schema.Admits rows

/-- Whether a statement leaves to every table a file of its own: a table that is added gets a path
to no other table and to no file, and an index gets a path to no table. -/
def KeepsApart (e : Engine) : Statement → Prop
  | define (.table plan) => ∀ t ∈ (e.entryOf plan).toOption, (e.catalog.addTable t).isOk →
    ¬e.host.disk.IsFile (Path.place t.path) ∧
      ∀ other ∈ e.catalog.tables, Path.place other.path ≠ Path.place t.path
  | define (.index name table column ascending) =>
    ∀ task ∈ (e.indexTask name table column ascending).toOption, ∀ t ∈ e.catalog.tables,
      Path.place t.path ≠ Path.place task.entry.path
  | load .. => True

instance (e : Engine) : (s : Statement) → Decidable (s.KeepsApart e)
  | define (.table plan) => inferInstanceAs (Decidable (∀ t ∈ (e.entryOf plan).toOption,
      (e.catalog.addTable t).isOk → ¬e.host.disk.IsFile (Path.place t.path) ∧
        ∀ other ∈ e.catalog.tables, Path.place other.path ≠ Path.place t.path))
  | define (.index name table column ascending) => inferInstanceAs (Decidable (
      ∀ task ∈ (e.indexTask name table column ascending).toOption, ∀ t ∈ e.catalog.tables,
        Path.place t.path ≠ Path.place task.entry.path))
  | load .. => inferInstanceAs (Decidable True)

end Statement

namespace Engine

/-- Runs a statement, which may fail. -/
def perform (e : Engine) : Statement → Engine
  | .define d => (e.define d).2
  | .load table rows => (e.fillTable table rows).2

def performAll (e : Engine) (statements : List Statement) : Engine := statements.foldl perform e

/-- Whether something holds of each statement when its turn comes. -/
def Always (p : Engine → Statement → Prop) : Engine → List Statement → Prop
  | _, [] => True
  | e, s :: rest => p e s ∧ Always p (e.perform s) rest

/-- What is known of an engine whose tables have files of their own. -/
structure Sound (e : Engine) : Prop where
  columns : ∀ name t, e.catalog.table? name = some t → t.schema.length ≤ 65535
  stores : ∀ name t, e.catalog.table? name = some t → ∀ number content,
    e.host.disk.get? (Path.place t.path) = some (.file number content) →
      ∃ rows, t.schema.Stores content rows
  apart : ∀ a b t u, e.catalog.table? a = some t → e.catalog.table? b = some u →
    Path.place t.path = Path.place u.path → a = b
  named : ∀ x ∈ e.catalog.indexes, isFileName x.name = true ∧ x.path = e.config.indexPath x.name
  separate : ∀ x ∈ e.catalog.indexes, ∀ name t, e.catalog.table? name = some t →
    Path.place t.path ≠ Path.place x.path
  current : ∀ x ∈ e.catalog.indexes, x.IsCurrent e

end Engine

/-! ## Files that stay -/

section Changes

variable {disk other : Disk} {places : Set Place} (hchanges : Disk.ChangesWithin places disk other)

namespace Index.Reader

variable {path : String} {r : Index.Reader}

theorem exists_openEntry (h : open? disk path = .ok r) : ∃ number content,
    disk.openEntry path = .ok (.file number content) ∧ ofContent path content = .ok r := by
  rw [open?] at h
  split at h
  · cases h
  · cases h
  next number content hentry => exact ⟨number, content, hentry, h⟩

include hchanges in
theorem open?_of_changes (hpath : Path.place path ∉ places) (h : open? disk path = .ok r) :
    open? other path = .ok r := by
  obtain ⟨number, content, hentry, hread⟩ := exists_openEntry h
  rw [open?, hchanges.openEntry hpath hentry]
  exact hread

end Index.Reader

namespace TableEntry.Holds

variable {t : TableEntry} {rows : List Row}

theorem exists_openEntry (h : t.Holds disk rows) :
    ∃ number, disk.openEntry t.path = .ok (.file number (rows.flatMap Record.encode)) := by
  have hopens := h.opens
  rw [RowReader.open?] at hopens
  split at hopens
  · cases hopens
  next number content hentry =>
    have hcontent := Except.ok.inj (congrArg RowReader.source (Except.ok.inj hopens))
    rw [hentry, show content = _ from hcontent]
    exact ⟨number, rfl⟩
  · cases congrArg RowReader.source (Except.ok.inj hopens)

theorem of_stores {number : ℕ} {content : Bytes} (h : t.schema.Stores content rows)
    (hentry : disk.openEntry t.path = .ok (.file number content)) : t.Holds disk rows := by
  obtain ⟨rfl, hwide, hadmits⟩ := h
  exact ⟨RowReader.open?_of_openEntry hentry, hwide, hadmits⟩

include hchanges in
theorem of_changes (h : t.Holds disk rows) (hpath : Path.place t.path ∉ places) :
    t.Holds other rows := by
  obtain ⟨number, hentry⟩ := h.exists_openEntry
  exact ⟨RowReader.open?_of_openEntry (hchanges.openEntry hpath hentry), h.wide, h.admits⟩

end TableEntry.Holds

end Changes

namespace IndexEntry.IsCurrent

variable {x : IndexEntry} {e after : Engine} {places : Set Place}

theorem isFile (h : x.IsCurrent e) : e.host.disk.IsFile (Path.place x.path) := by
  obtain ⟨_, _, _, _, _, _, _, _, hopen, -⟩ := h
  obtain ⟨number, content, hentry, -⟩ := Index.Reader.exists_openEntry hopen
  exact ⟨number, content, Disk.get?_of_openEntry hentry⟩

/-- An index stays current where neither its file nor that of its table changes. -/
theorem of_changes (h : x.IsCurrent e)
    (hchanges : Disk.ChangesWithin places e.host.disk after.host.disk)
    (hpath : Path.place x.path ∉ places)
    (htable : ∀ t, e.catalog.table? x.table = some t →
      Path.place t.path ∉ places ∧ after.catalog.table? x.table = some t) : x.IsCurrent after := by
  obtain ⟨t, rows, position, r, entries, ht, hrows, hfind, hopen, hlists, hperm⟩ := h
  obtain ⟨hother, hafter⟩ := htable t ht
  exact ⟨t, rows, position, r, entries, hafter, hrows.of_changes hchanges hother, hfind,
    Index.Reader.open?_of_changes hchanges hpath hopen, hlists, hperm⟩

end IndexEntry.IsCurrent

namespace Engine

/-- Where there is no file, one that is made is empty. -/
theorem ensureFile_spec {disk made : Disk} {path : String} {result : Except StorageError Unit}
    (h : ensureFile disk path = (result, made)) :
    Disk.ChangesWithin {Path.place path} disk made ∧ (¬disk.IsFile (Path.place path) →
      ∀ number content, made.get? (Path.place path) = some (.file number content) →
        content = []) := by
  rw [ensureFile] at h
  split at h
  · cases h
    exact ⟨Disk.ChangesWithin.refl _ _,
      fun hfree number content hget => absurd ⟨number, content, hget⟩ hfree⟩
  · have hchanges := Disk.changesWithin_storeRows disk path []
    rcases hstore : disk.storeRows path [] with ⟨reason | size, stored⟩
    · have hnone := Disk.changesWithin_of_storeRows_error hstore
      rw [hstore] at h hchanges
      cases h
      refine ⟨hchanges, fun hfree number content hget => absurd ?_ hfree⟩
      exact (hnone.isFile_iff (Set.notMem_empty _)).mp ⟨number, content, hget⟩
    · obtain ⟨made, hentry⟩ := Disk.openEntry_storeRows hstore
      have hfile := Disk.get?_of_openEntry hentry
      rw [hstore] at h hchanges
      cases h
      refine ⟨hchanges, fun _ number content hget => ?_⟩
      cases hfile.symm.trans hget
      rfl

namespace Sound

variable {e after : Engine}

/-- What is known of an engine stays if its tables do, and no file of theirs or of an index changes
but those of new indexes. -/
theorem of_changes {places : Set Place} (h : e.Sound) (hconfig : after.config = e.config)
    (hsame : ∀ name, after.catalog.table? name = e.catalog.table? name)
    (hchanges : Disk.ChangesWithin places e.host.disk after.host.disk)
    (htables : ∀ name t, e.catalog.table? name = some t → Path.place t.path ∉ places)
    (hindexes : ∀ x ∈ after.catalog.indexes,
      (x ∈ e.catalog.indexes ∧ Path.place x.path ∉ places) ∨
        (isFileName x.name = true ∧ x.path = e.config.indexPath x.name) ∧
          (∀ name t, e.catalog.table? name = some t → Path.place t.path ≠ Path.place x.path) ∧
            x.IsCurrent after) : after.Sound where
  columns name t ht := h.columns name t ((hsame name).symm.trans ht)
  stores name t ht number content hget := by
    rw [hsame] at ht
    exact h.stores name t ht number content
      ((hchanges.files _ (htables name t ht) number content).mp hget)
  apart a b t u ht hu := h.apart a b t u ((hsame a).symm.trans ht) ((hsame b).symm.trans hu)
  named x hx := by
    rw [hconfig]
    rcases hindexes x hx with ⟨hold, -⟩ | ⟨hnamed, -⟩
    · exact h.named x hold
    · exact hnamed
  separate x hx name t ht := by
    rw [hsame] at ht
    rcases hindexes x hx with ⟨hold, -⟩ | ⟨-, hseparate, -⟩
    · exact h.separate x hold name t ht
    · exact hseparate name t ht
  current x hx := by
    rcases hindexes x hx with ⟨hold, hplace⟩ | ⟨-, -, hcurrent⟩
    · exact (h.current x hold).of_changes hchanges hplace fun t ht =>
        ⟨htables x.table t ht, (hsame x.table).trans ht⟩
    · exact hcurrent

/-! ## Tables -/

section Tables

variable {t : TableEntry}

theorem entered {made : Except StorageError Unit} (h : e.Sound) (hentered : Entered e t made after)
    (hcolumns : t.schema.length ≤ 65535) (hfree : ¬e.host.disk.IsFile (Path.place t.path))
    (hothers : ∀ name other, e.catalog.table? name = some other →
      Path.place other.path ≠ Path.place t.path) : after.Sound := by
  obtain ⟨hnew, hindexes, htables⟩ := Catalog.table?_of_addTable hentered.catalog
  obtain ⟨hchanges, hempty⟩ := ensureFile_spec hentered.file
  have hold : ∀ {name t'}, after.catalog.table? name = some t' →
      name = t.name ∧ t' = t ∨ name ≠ t.name ∧ e.catalog.table? name = some t' := by
    intro name t' ht'
    rw [htables] at ht'
    split at ht'
    next heq => exact Or.inl ⟨heq, (Option.some.inj ht').symm⟩
    next hne => exact Or.inr ⟨hne, ht'⟩
  constructor
  case columns =>
    intro name t' ht'
    rcases hold ht' with ⟨-, rfl⟩ | ⟨-, ht'⟩
    · exact hcolumns
    · exact h.columns name t' ht'
  case stores =>
    intro name t' ht' number content hget
    rcases hold ht' with ⟨-, rfl⟩ | ⟨-, ht'⟩
    · rw [hempty hfree number content hget]
      exact ⟨[], t'.schema.stores_nil⟩
    · exact h.stores name t' ht' number content
        ((hchanges.files _ (hothers name t' ht') number content).mp hget)
  case apart =>
    intro a b t₁ t₂ h₁ h₂ hplace
    rcases hold h₁ with ⟨rfl, rfl⟩ | ⟨-, h₁⟩ <;> rcases hold h₂ with ⟨rfl, rfl⟩ | ⟨-, h₂⟩
    · rfl
    · exact absurd hplace.symm (hothers b t₂ h₂)
    · exact absurd hplace (hothers a t₁ h₁)
    · exact h.apart a b t₁ t₂ h₁ h₂ hplace
  case named =>
    intro x hx
    rw [hindexes] at hx
    rw [hentered.config]
    exact h.named x hx
  case separate =>
    intro x hx name t' ht'
    rw [hindexes] at hx
    rcases hold ht' with ⟨-, rfl⟩ | ⟨-, ht'⟩
    · intro hplace
      exact hfree (hplace ▸ (h.current x hx).isFile)
    · exact h.separate x hx name t' ht'
  case current =>
    intro x hx
    rw [hindexes] at hx
    refine (h.current x hx).of_changes hchanges ?_ ?_
    · rintro hplace
      exact hfree (hplace ▸ (h.current x hx).isFile)
    · intro t' ht'
      refine ⟨hothers _ t' ht', ?_⟩
      rw [htables, if_neg]
      · exact ht'
      · rintro heq
        rw [heq, hnew] at ht'
        cases ht'

theorem createTable (h : e.Sound) {plan : Plan} (hwithin : (Statement.define (.table plan)).Within e)
    (hapart : (Statement.define (.table plan)).KeepsApart e) : (e.createTable plan).2.Sound := by
  have henter : ∀ {t made after}, e.entryOf plan = .ok t → Entered e t made after → after.Sound := by
    intro t made after hentry hentered
    have hmem := Except.toOption_eq_some.mpr hentry
    obtain ⟨hfree, hothers⟩ := hapart t hmem (by rw [hentered.catalog]; rfl)
    exact h.entered hentered (hwithin t hmem) hfree fun name other hother =>
      hothers other (List.mem_of_find?_eq_some hother)
  have hcreates := e.createsTable plan
  generalize (e.createTable plan).1 = result, (e.createTable plan).2 = after at hcreates ⊢
  cases hcreates with
  | refused => exact h
  | failed hentry hentered => exact henter hentry hentered
  | created hentry hentered => exact henter hentry hentered

/-- Rows are given to a table without indexes, and to no other one. -/
theorem setRows (h : e.Sound) {table : String} {rows : List Row} {stats : TableStats} {size : ℕ}
    (hload : e.loadable table rows = .ok t) (hadmits : t.schema.Admits rows)
    (hconfig : after.config = e.config)
    (hstore : e.host.disk.storeRows t.path rows = (.ok size, after.host.disk))
    (hstats : e.catalog.updateStats table stats = .ok after.catalog) : after.Sound := by
  obtain ⟨htable, hunindexed, hwide⟩ := loadable_eq_ok hload
  obtain ⟨hindexes, htables⟩ := Catalog.table?_of_updateStats hstats
  have hchanges := Disk.changesWithin_storeRows e.host.disk t.path rows
  obtain ⟨made, hentry⟩ := Disk.openEntry_storeRows hstore
  have hfile := Disk.get?_of_openEntry hentry
  rw [hstore] at hchanges
  have hold : ∀ {name t'}, after.catalog.table? name = some t' →
      ∃ t₀, e.catalog.table? name = some t₀ ∧ t'.path = t₀.path ∧ t'.schema = t₀.schema := by
    intro name t' ht'
    rw [htables] at ht'
    obtain ⟨t₀, ht₀, rfl⟩ := Option.map_eq_some_iff.mp ht'
    refine ⟨t₀, ht₀, ?_⟩
    split <;> exact ⟨rfl, rfl⟩
  constructor
  case columns =>
    intro name t' ht'
    obtain ⟨t₀, ht₀, -, hschema⟩ := hold ht'
    rw [hschema]
    exact h.columns name t₀ ht₀
  case stores =>
    intro name t' ht' number content hget
    obtain ⟨t₀, ht₀, hpath, hschema⟩ := hold ht'
    rw [hpath] at hget
    rw [hschema]
    rcases eq_or_ne (Path.place t₀.path) (Path.place t.path) with hsame | hne
    · obtain rfl := h.apart name table t₀ t ht₀ htable hsame
      obtain rfl := Option.some.inj (htable.symm.trans ht₀)
      cases hfile.symm.trans hget
      exact ⟨rows, rfl, hwide, hadmits⟩
    · exact h.stores name t₀ ht₀ number content ((hchanges.files _ hne number content).mp hget)
  case apart =>
    intro a b t₁ t₂ h₁ h₂ hplace
    obtain ⟨u₁, hu₁, hpath₁, -⟩ := hold h₁
    obtain ⟨u₂, hu₂, hpath₂, -⟩ := hold h₂
    rw [hpath₁, hpath₂] at hplace
    exact h.apart a b u₁ u₂ hu₁ hu₂ hplace
  case named =>
    rw [hindexes, hconfig]
    exact h.named
  case separate =>
    intro x hx name t' ht'
    obtain ⟨t₀, ht₀, hpath, -⟩ := hold ht'
    rw [hindexes] at hx
    rw [hpath]
    exact h.separate x hx name t₀ ht₀
  case current =>
    intro x hx
    rw [hindexes] at hx
    have hother := hunindexed x hx
    refine (h.current x hx).of_changes hchanges (h.separate x hx table t htable).symm ?_
    intro t₀ ht₀
    refine ⟨fun hsame => hother (h.apart x.table table t₀ t ht₀ htable hsame), ?_⟩
    rw [Catalog.table?_of_updateStats_ne hstats hother]
    exact ht₀

theorem fillTable (h : e.Sound) {table : String} {rows : List Row}
    (hadmits : ∀ t, e.catalog.table? table = some t → t.schema.Admits rows) :
    (e.fillTable table rows).2.Sound := by
  have hfills := e.fillsTable table rows
  generalize (e.fillTable table rows).1 = result, (e.fillTable table rows).2 = after at hfills ⊢
  cases hfills with
  | refused => exact h
  | failed hload hstore =>
    have hchanges := Disk.changesWithin_of_storeRows_error hstore
    exact h.of_changes rfl (fun _ => rfl) hchanges (fun _ _ _ => Set.notMem_empty _)
      fun x hx => Or.inl ⟨hx, Set.notMem_empty _⟩
  | filled hload hconfig hstore hstats =>
    exact h.setRows hload (hadmits _ (loadable_eq_ok hload).1) hconfig hstore hstats

end Tables

/-! ## Indexes -/

section Indexes

variable {name table column : String} {ascending : Bool} {task : IndexTask}

/-- An index that was built lists the rows of its table. -/
theorem isCurrent_of_build (h : e.Sound) (htask : Tasked e name table column ascending task)
    (hcolumn : (Bytes.ofText column).length ≤ Index.maxNameLength)
    (htables : ∀ other, after.catalog.table? other = e.catalog.table? other)
    (hapart : Path.place task.table.path ≠ Path.place (e.config.indexPath name))
    (hwrote : Disk.Wrote e.host.disk (e.config.indexPath name) after.host.disk)
    {entries : List (Row × ℕ)} {summary : Index.Summary}
    (hread : e.host.disk.readColumn task.table.path task.position = .ok entries)
    (hbuild : Index.build e.host.disk (e.config.indexPath name) [⟨column, task.type⟩]
      [⟨column, ascending, false⟩] e.config.loadFactor.toNat e.config.verifyOrder entries =
        (.ok summary, after.host.disk)) : task.entry.IsCurrent after := by
  obtain ⟨number, content, hentry⟩ := Disk.exists_openEntry_of_readColumn hread
  obtain ⟨rows, hstores⟩ := h.stores table task.table htask.registered number content
    (Disk.get?_of_openEntry hentry)
  have hrows := TableEntry.Holds.of_stores hstores hentry
  obtain ⟨c, hget, htype⟩ := htask.typed
  rw [← htype] at hbuild
  obtain ⟨hopens, hcovers⟩ := hrows.covers_of_build (h.columns table task.table htask.registered)
    hget hread hbuild table
  obtain ⟨r, hr⟩ := hopens.mpr hcolumn
  obtain ⟨listed, hcovers⟩ := hcovers r hr
  rw [htask.entry]
  exact ⟨task.table, rows, task.position, r, _, (htables table).trans htask.registered,
    hrows.of_changes hwrote.changesWithin hapart, htask.find, hr, hcovers.lists, hcovers.perm.map _⟩

theorem createIndex (h : e.Sound)
    (hwithin : (Statement.define (.index name table column ascending)).Within e)
    (hapart : (Statement.define (.index name table column ascending)).KeepsApart e) :
    (e.createIndex name table column ascending).2.Sound := by
  have hplaces : ∀ {task}, e.indexTask name table column ascending = .ok task →
      (∀ other t, e.catalog.table? other = some t →
        Path.place t.path ≠ Path.place (e.config.indexPath name)) ∧
      ∀ x ∈ e.catalog.indexes, Path.place x.path ≠ Path.place (e.config.indexPath name) := by
    intro task hchecked
    have htask := indexTask_eq_ok hchecked
    have htables := hapart task (Except.toOption_eq_some.mpr hchecked)
    rw [htask.entry] at htables
    refine ⟨fun other t ht => htables t (List.mem_of_find?_eq_some ht), fun x hx heq =>
      htask.fresh x hx ?_⟩
    obtain ⟨hname, hpath⟩ := h.named x hx
    rw [hpath] at heq
    exact indexFile_injective (Path.place_join_inj (isName_indexFile hname)
      (isName_indexFile htask.isFileName) heq)
  have hcreates := e.createsIndex name table column ascending
  generalize (e.createIndex name table column ascending).1 = result,
    (e.createIndex name table column ascending).2 = after at hcreates ⊢
  cases hcreates with
  | refused => exact h
  | failed _ hchecked hconfig hcatalog hwrote =>
    obtain ⟨htables, hindexes⟩ := hplaces hchecked
    refine h.of_changes hconfig (fun _ => by rw [hcatalog]) hwrote.changesWithin htables ?_
    intro x hx
    rw [hcatalog] at hx
    exact Or.inl ⟨hx, hindexes x hx⟩
  | @created task _ _ _ hchecked hconfig hcatalog hread hbuild hwrote =>
    have htask := indexTask_eq_ok hchecked
    obtain ⟨htables, hindexes⟩ := hplaces hchecked
    have hsame : ∀ other, after.catalog.table? other = e.catalog.table? other := by
      intro other
      rw [hcatalog]
      rfl
    refine h.of_changes hconfig hsame hwrote.changesWithin htables ?_
    intro x hx
    rw [hcatalog] at hx
    rcases List.mem_append.mp hx with hold | hnew
    · exact Or.inl ⟨hold, hindexes x hold⟩
    · right
      obtain rfl := List.mem_singleton.mp hnew
      have hcurrent := h.isCurrent_of_build htask hwithin hsame
        (htables table _ htask.registered) hwrote hread hbuild
      rw [htask.entry] at hcurrent ⊢
      exact ⟨⟨htask.isFileName, rfl⟩, htables, hcurrent⟩

end Indexes

/-! ## Any statements -/

theorem perform (h : e.Sound) {s : Statement} (hwithin : s.Within e) (hapart : s.KeepsApart e) :
    (e.perform s).Sound := by
  cases s with
  | define d =>
    cases d with
    | table plan => exact h.createTable hwithin hapart
    | index name table column ascending => exact h.createIndex hwithin hapart
  | load table rows => exact h.fillTable hwithin

theorem performAll (h : e.Sound) {statements : List Statement}
    (hwithin : Always (fun e s => s.Within e) e statements)
    (hapart : Always (fun e s => s.KeepsApart e) e statements) : (e.performAll statements).Sound := by
  induction statements generalizing e with
  | nil => exact h
  | cons s statements ih => exact ih (h.perform hwithin.1 hapart.1) hwithin.2 hapart.2

theorem start (config : Config) (host : Host) : (Engine.start config host).Sound where
  columns _ _ h := nomatch h
  stores _ _ h := nomatch h
  apart _ _ _ _ h := nomatch h
  named _ h := nomatch h
  separate _ h := nomatch h
  current _ h := nomatch h

end Sound

/-- After any statements, whether they fail or not, every index is current if every table was given
a file of its own. -/
theorem isCurrent_of_performAll (config : Config) (host : Host) (statements : List Statement)
    (hwithin : Always (fun e s => s.Within e) (start config host) statements)
    (hapart : Always (fun e s => s.KeepsApart e) (start config host) statements) :
    ∀ x ∈ ((start config host).performAll statements).catalog.indexes,
      x.IsCurrent ((start config host).performAll statements) :=
  ((Sound.start config host).performAll hwithin hapart).current

/-! ## A file for each table, and one file for two -/

section TwoTables

open Sample

theorem admits_one : schema.Admits [[.int4 1]] where
  values row hrow := admits_rows.values row (List.mem_of_mem_head? (List.mem_singleton.mp hrow ▸ rfl))
  records := by decide
  file := by decide

/-- Two tables, a row and an index for the first one, and then no rows for the second one. -/
def twoTables (path : Option String) : List Statement :=
  [.define (.table (.createTable "t" schema .rowFile path)), .load "t" [[.int4 1]],
    .define (.index "i" "t" "a" true), .define (.table (.createTable "u" schema .rowFile path)),
    .load "u" []]

def afterTwoTables (path : Option String) : Engine :=
  (start Sample.config Sample.host).performAll (twoTables path)

theorem within_twoTables {path : Option String} (hpath : path = none ∨ path = some "./rows") :
    Always (fun e s => s.Within e) (start Sample.config Sample.host) (twoTables path) := by
  have htyped : ∀ {e : Engine}, (∀ t ∈ e.catalog.table? "t", t.schema = schema) →
      Statement.Within e (.load "t" [[.int4 1]]) := fun hschema t ht => hschema t ht ▸ admits_one
  have hempty : ∀ {e : Engine}, Statement.Within e (.load "u" []) := fun t _ =>
    t.schema.stores_nil.admits
  have hcolumns : ∀ {e : Engine} {plan : Plan},
      (∀ t ∈ (e.entryOf plan).toOption, t.schema.length ≤ 65535) →
        Statement.Within e (.define (.table plan)) := id
  have hname : (Bytes.ofText "a").length ≤ Index.maxNameLength := by decide
  rcases hpath with rfl | rfl
  · exact ⟨hcolumns (by decide +kernel), htyped (by decide +kernel), hname,
      hcolumns (by decide +kernel), hempty, trivial⟩
  · exact ⟨hcolumns (by decide +kernel), htyped (by decide +kernel), hname,
      hcolumns (by decide +kernel), hempty, trivial⟩

theorem isCurrent_of_twoTables :
    Always (fun e s => s.Within e) (start Sample.config Sample.host) (twoTables none) ∧
    Always (fun e s => s.KeepsApart e) (start Sample.config Sample.host) (twoTables none) ∧
    ∃ x ∈ (afterTwoTables none).catalog.indexes, x.name = "i" ∧ x.IsCurrent (afterTwoTables none) := by
  have hwithin := within_twoTables (Or.inl rfl)
  have hapart : Always (fun e s => s.KeepsApart e) (start Sample.config Sample.host)
      (twoTables none) :=
    ⟨by decide +kernel, trivial, by decide +kernel, by decide +kernel, trivial, trivial⟩
  have hmem : IndexEntry.new "i" "t" "a" "./i.idx" true ∈ (afterTwoTables none).catalog.indexes := by
    decide +kernel
  exact ⟨hwithin, hapart, _, hmem, rfl, isCurrent_of_performAll _ _ _ hwithin hapart _ hmem⟩

/-- Where both tables have one file, loading rows into the second one leaves the index of the first
one with places of rows that are gone. -/
theorem not_isCurrent_of_shared :
    Always (fun e s => s.Within e) (start Sample.config Sample.host) (twoTables (some "./rows")) ∧
    ∃ x ∈ (afterTwoTables (some "./rows")).catalog.indexes,
      ¬x.IsCurrent (afterTwoTables (some "./rows")) := by
  refine ⟨within_twoTables (Or.inr rfl), IndexEntry.new "i" "t" "a" "./i.idx" true,
    by decide +kernel, ?_⟩
  have hpath : ∀ t ∈ (afterTwoTables (some "./rows")).catalog.table? "t", t.path = "./rows" := by
    decide +kernel
  have hfile : (afterTwoTables (some "./rows")).host.disk.openEntry "./rows" =
      .ok (.file 0 []) := by decide +kernel
  have hindex : (Index.Reader.open? (afterTwoTables (some "./rows")).host.disk "./i.idx").map
      (·.header.entryCount) = .ok 1 := by decide +kernel
  rintro ⟨t, rows, position, r, entries, ht, hrows, -, hopen, hlists, hperm⟩
  obtain ⟨number, hentry⟩ := hrows.exists_openEntry
  rw [hpath t ht, hfile] at hentry
  have hnone : rows = [] := by
    cases rows with
    | nil => rfl
    | cons row rows =>
      have hlength := congrArg List.length (Entry.file.inj (Except.ok.inj hentry)).2
      rw [List.flatMap_cons, List.length_append, Record.length_encode, List.length_nil] at hlength
      omega
  rw [show Index.Reader.open? (afterTwoTables (some "./rows")).host.disk "./i.idx" = .ok r
    from hopen] at hindex
  subst hnone
  obtain rfl : entries = [] := List.perm_nil.mp hperm
  have hone : r.header.entryCount = 1 := Except.ok.inj hindex
  cases hone.symm.trans hlists.count

end TwoTables

end Engine

end BlockQuery
