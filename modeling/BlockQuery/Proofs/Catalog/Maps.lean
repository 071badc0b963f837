import BlockQuery.Proofs.Catalog.Entries
import BlockQuery.Proofs.Catalog.Overloads
import BlockQuery.Proofs.Row.Order

/-!
# A catalog is three maps

After any calls a catalog answers like three maps: of table names to tables, of index
names to indexes, and of normalised function names with argument types to functions.
The maps see the successful calls only, and each of their indexes is on a column of one
of their tables.
-/

namespace BlockQuery.Catalog

/-- A call that changes a catalog. -/
inductive Change where
  | addTable (t : TableEntry)
  | dropTable (name : String)
  | updateStats (name : String) (stats : TableStats)
  | addIndex (x : IndexEntry)
  | dropIndex (name : String)
  | register (f : FunctionEntry)
  | unregister (name : String) (arguments : List DataType)

def make (c : Catalog) : Change → Except CatalogError Catalog
  | .addTable t => c.addTable t
  | .dropTable name => c.dropTable name
  | .updateStats name stats => c.updateStats name stats
  | .addIndex x => c.addIndex x
  | .dropIndex name => c.dropIndex name
  | .register f => c.register f
  | .unregister name arguments => c.unregister name arguments

/-- The catalog that a call leaves behind, be it successful or not. -/
def after (c : Catalog) : Change → Catalog
  | .register f =>
    if Text.isAllBlank f.name then c else { c with functions := (c.functions.register f).2 }
  | .unregister name arguments =>
    { c with functions := (c.functions.unregister name arguments).2 }
  | change => (c.make change).toOption.getD c

def afterAll (c : Catalog) (changes : List Change) : Catalog := changes.foldl after c

structure Maps where
  tables : String → Option TableEntry
  indexes : String → Option IndexEntry
  functions : String × List DataType → Option FunctionEntry

namespace Maps

def empty : Maps := ⟨fun _ => none, fun _ => none, fun _ => none⟩

def builtin : Maps :=
  { empty with functions := fun key => builtinAggregates.find? fun f => (f.key, f.arguments) = key }

def make (m : Maps) : Change → Except CatalogError Maps
  | .addTable t =>
    if Text.isAllBlank t.name then .error .emptyTableName
    else if (m.tables t.name).isSome then .error (.tableExists t.name)
    else .ok { m with tables := Function.update m.tables t.name (some t) }
  | .dropTable name =>
    if (m.tables name).isSome then
      .ok { m with
        tables := Function.update m.tables name none
        indexes := fun x => (m.indexes x).filter (·.table != name) }
    else .error (.noSuchTable name)
  | .updateStats name stats =>
    match m.tables name with
    | some t =>
      .ok { m with tables := Function.update m.tables name (some { t with stats := some stats }) }
    | none => .error (.noSuchTable name)
  | .addIndex x =>
    if Text.isAllBlank x.name then .error .emptyIndexName
    else match m.tables x.table with
      | none => .error (.noSuchTable x.table)
      | some t =>
        if !t.schema.has x.column then .error (.noSuchColumn x.table x.column)
        else if (m.indexes x.name).isSome then .error (.indexExists x.name)
        else .ok { m with indexes := Function.update m.indexes x.name (some x) }
  | .dropIndex name =>
    if (m.indexes name).isSome then
      .ok { m with indexes := Function.update m.indexes name none }
    else .error (.noSuchIndex name)
  | .register f =>
    if Text.isAllBlank f.name then .error .emptyFunctionName
    else if (m.functions (f.key, f.arguments)).isSome then .error (.functionExists f.signature)
    else .ok { m with functions := Function.update m.functions (f.key, f.arguments) (some f) }
  | .unregister name arguments =>
    if (m.functions (functionKey name, arguments)).isSome then
      .ok { m with functions := Function.update m.functions (functionKey name, arguments) none }
    else .error (.noSuchFunction (signature name arguments))

/-- The maps after a call: a failed one is passed over. -/
def after (m : Maps) (change : Change) : Maps := (m.make change).toOption.getD m

def afterAll (m : Maps) (changes : List Change) : Maps := changes.foldl after m

/-- Every entry stands under its own name, and every index is on a column of a table. -/
structure Sound (m : Maps) : Prop where
  tables : ∀ name t, m.tables name = some t → t.name = name
  functions : ∀ key f, m.functions key = some f → (f.key, f.arguments) = key
  indexes : ∀ name x, m.indexes name = some x → x.name = name ∧
    ∃ t i, m.tables x.table = some t ∧ t.schema.find x.column = .ok i

end Maps

/-- The order of the indexes of one table. -/
def compareIndexes (x y : IndexEntry) : Ordering :=
  (compareText x.column y.column).then (compareText x.name y.name)

/-- All questions are answered as the maps say. -/
structure Answers (c : Catalog) (m : Maps) : Prop where
  getTable : ∀ name, c.getTable name = (m.tables name).elim (.error (.noSuchTable name)) .ok
  hasTable : ∀ name, c.hasTable name = (m.tables name).isSome
  tableNames : c.tableNames.Pairwise (compareText · · = .lt) ∧
    ∀ name, name ∈ c.tableNames ↔ (m.tables name).isSome
  getIndex : ∀ name, c.getIndex name = (m.indexes name).elim (.error (.noSuchIndex name)) .ok
  hasIndex : ∀ name, c.hasIndex name = (m.indexes name).isSome
  hasIndexOn : ∀ table column, c.hasIndexOn table column = true ↔
    ∃ name x, m.indexes name = some x ∧ x.table = table ∧ x.column = column
  indexesOf : ∀ table, (c.indexesOf table).Pairwise (compareIndexes · · = .lt) ∧
    ∀ x, x ∈ c.indexesOf table ↔ (∃ name, m.indexes name = some x) ∧ x.table = table
  getFunction : ∀ name arguments, c.getFunction name arguments =
    (m.functions (functionKey name, arguments)).elim
      (.error (.noSuchFunction (signature name arguments))) .ok
  hasFunction : ∀ name arguments,
    c.hasFunction name arguments = (m.functions (functionKey name, arguments)).isSome

/-- Two steps that fail with the same error, or lead to states that belong together. -/
inductive Alike (R : Catalog → Maps → Prop) :
    Except CatalogError Catalog → Except CatalogError Maps → Prop
  | ok {c : Catalog} {m : Maps} : R c m → Alike R (.ok c) (.ok m)
  | error {e : CatalogError} : Alike R (.error e) (.error e)

theorem Alike.mono {R S : Catalog → Maps → Prop} (h : ∀ c m, R c m → S c m)
    {c : Except CatalogError Catalog} {m : Except CatalogError Maps} (halike : Alike R c m) :
    Alike S c m := by
  cases halike with
  | ok hR => exact .ok (h _ _ hR)
  | error => exact .error

/-! ## The maps stay sound -/

theorem update_eq_some {α β : Type} [DecidableEq α] {f : α → Option β} {k x : α} {v : Option β}
    {y : β} : Function.update f k v x = some y ↔ x = k ∧ v = some y ∨ x ≠ k ∧ f x = some y := by
  by_cases hx : x = k
  · subst hx
    simp
  · simp [hx]

namespace Maps

theorem sound_empty : empty.Sound where
  tables := nofun
  functions := nofun
  indexes := nofun

theorem sound_builtin : builtin.Sound where
  tables := nofun
  functions := by
    intro key f hf
    simpa using List.find?_some hf
  indexes := nofun

variable {m changed : Maps}

theorem Sound.addTable (h : m.Sound) {t : TableEntry} (hmake : m.make (.addTable t) = .ok changed) :
    changed.Sound := by
  rw [make] at hmake
  split_ifs at hmake with hblank hthere
  cases hmake
  refine { h with tables := ?_, indexes := ?_ }
  · intro name u hu
    rcases update_eq_some.mp hu with ⟨rfl, heq⟩ | ⟨-, hold⟩
    · cases heq
      rfl
    · exact h.tables name u hold
  · intro name x hx
    obtain ⟨hname, u, i, hu, hi⟩ := h.indexes name x hx
    refine ⟨hname, u, i, update_eq_some.mpr (Or.inr ⟨?_, hu⟩), hi⟩
    rintro heq
    rw [← heq, hu] at hthere
    exact hthere rfl

/-- The indexes of a table go with it, so that none is left without its table. -/
theorem Sound.dropTable (h : m.Sound) {name : String}
    (hmake : m.make (.dropTable name) = .ok changed) : changed.Sound := by
  rw [make] at hmake
  split_ifs at hmake
  cases hmake
  refine { h with tables := ?_, indexes := ?_ }
  · intro other t ht
    rcases update_eq_some.mp ht with ⟨-, heq⟩ | ⟨-, hold⟩
    · cases heq
    · exact h.tables other t hold
  · intro k x hx
    obtain ⟨hx, hkept⟩ := Option.filter_eq_some_iff.mp hx
    obtain ⟨hname, t, i, ht, hi⟩ := h.indexes k x hx
    exact ⟨hname, t, i, update_eq_some.mpr (Or.inr ⟨bne_iff_ne.mp hkept, ht⟩), hi⟩

theorem Sound.updateStats (h : m.Sound) {name : String} {stats : TableStats}
    (hmake : m.make (.updateStats name stats) = .ok changed) : changed.Sound := by
  rw [make] at hmake
  split at hmake
  next t ht =>
    cases hmake
    refine { h with tables := ?_, indexes := ?_ }
    · intro other u hu
      rcases update_eq_some.mp hu with ⟨rfl, heq⟩ | ⟨-, hold⟩
      · cases heq
        exact h.tables other t ht
      · exact h.tables other u hold
    · intro k x hx
      obtain ⟨hname, u, i, hu, hi⟩ := h.indexes k x hx
      by_cases htable : x.table = name
      · rw [htable, ht] at hu
        cases hu
        exact ⟨hname, _, i, update_eq_some.mpr (Or.inl ⟨htable, rfl⟩), hi⟩
      · exact ⟨hname, u, i, update_eq_some.mpr (Or.inr ⟨htable, hu⟩), hi⟩
  next => cases hmake

theorem Sound.addIndex (h : m.Sound) {x : IndexEntry} (hmake : m.make (.addIndex x) = .ok changed) :
    changed.Sound := by
  rw [make] at hmake
  split at hmake
  next => cases hmake
  next =>
    split at hmake
    next => cases hmake
    next t ht =>
      split_ifs at hmake with hhas
      cases hmake
      refine { h with indexes := ?_ }
      intro name y hy
      rcases update_eq_some.mp hy with ⟨rfl, heq⟩ | ⟨-, hold⟩
      · cases heq
        refine ⟨rfl, t, ?_⟩
        rw [Schema.has] at hhas
        cases hfind : t.schema.find x.column with
        | error fault => simp [hfind, Except.isOk, Except.toBool] at hhas
        | ok i => exact ⟨i, ht, rfl⟩
      · exact h.indexes name y hold

theorem Sound.dropIndex (h : m.Sound) {name : String}
    (hmake : m.make (.dropIndex name) = .ok changed) : changed.Sound := by
  rw [make] at hmake
  split_ifs at hmake
  cases hmake
  refine { h with indexes := ?_ }
  intro k x hx
  rcases update_eq_some.mp hx with ⟨-, heq⟩ | ⟨-, hold⟩
  · cases heq
  · exact h.indexes k x hold

theorem Sound.register (h : m.Sound) {f : FunctionEntry}
    (hmake : m.make (.register f) = .ok changed) : changed.Sound := by
  rw [make] at hmake
  split_ifs at hmake
  cases hmake
  refine { h with functions := ?_ }
  intro key g hg
  rcases update_eq_some.mp hg with ⟨rfl, heq⟩ | ⟨-, hold⟩
  · cases heq
    rfl
  · exact h.functions key g hold

theorem Sound.unregister (h : m.Sound) {name : String} {arguments : List DataType}
    (hmake : m.make (.unregister name arguments) = .ok changed) : changed.Sound := by
  rw [make] at hmake
  split_ifs at hmake
  cases hmake
  refine { h with functions := ?_ }
  intro key g hg
  rcases update_eq_some.mp hg with ⟨-, heq⟩ | ⟨-, hold⟩
  · cases heq
  · exact h.functions key g hold

theorem Sound.make (h : m.Sound) {change : Change} (hmake : m.make change = .ok changed) :
    changed.Sound := by
  cases change with
  | addTable t => exact h.addTable hmake
  | dropTable name => exact h.dropTable hmake
  | updateStats name stats => exact h.updateStats hmake
  | addIndex x => exact h.addIndex hmake
  | dropIndex name => exact h.dropIndex hmake
  | register f => exact h.register hmake
  | unregister name arguments => exact h.unregister hmake

theorem Sound.after (h : m.Sound) (change : Change) : (m.after change).Sound := by
  rw [Maps.after]
  cases hmake : m.make change with
  | error e => exact h
  | ok changed => exact h.make hmake

end Maps

/-! ## Entries with a name -/

section Named

variable {α : Type} {name : α → String} {xs : List α}

theorem find?_append_eq_update {x : α} (hnew : xs.find? (name · == name x) = none) :
    (fun k => (xs ++ [x]).find? (name · == k)) =
      Function.update (fun k => xs.find? (name · == k)) (name x) (some x) := by
  funext k
  rw [List.find?_append]
  by_cases hk : k = name x
  · subst hk
    rw [hnew, Function.update_self]
    simp
  · have hne : (name x == k) = false := beq_eq_false_iff_ne.mpr (Ne.symm hk)
    rw [Function.update_of_ne hk]
    simp [hne]

theorem nodup_append_of_find?_eq_none (hnames : (xs.map name).Nodup) {x : α}
    (hnew : xs.find? (name · == name x) = none) : ((xs ++ [x]).map name).Nodup := by
  rw [List.map_append, List.map_singleton]
  refine List.nodup_append.mpr ⟨hnames, List.nodup_singleton _, ?_⟩
  rintro k hk other hother rfl
  obtain ⟨y, hy, hname⟩ := List.mem_map.mp hk
  apply List.find?_eq_none.mp hnew y hy
  rw [hname, List.mem_singleton.mp hother, beq_self_eq_true]

theorem find?_filter_eq_update (n : String) :
    (fun k => (xs.filter (name · != n)).find? (name · == k)) =
      Function.update (fun k => xs.find? (name · == k)) n none := by
  funext k
  rw [List.find?_filter]
  by_cases hk : k = n
  · subst hk
    rw [Function.update_self, List.find?_eq_none]
    simp
  · rw [Function.update_of_ne hk]
    congr 1
    funext x
    by_cases hx : name x = k
    · simp [hx, hk]
    · simp [hx]

theorem mem_iff_find?_eq_some (hnames : (xs.map name).Nodup) {x : α} :
    x ∈ xs ↔ xs.find? (name · == name x) = some x := by
  constructor
  · intro hx
    obtain ⟨y, hy⟩ := Option.isSome_iff_exists.mp
      (List.find?_isSome (p := (name · == name x)).mpr ⟨x, hx, beq_self_eq_true _⟩)
    have hname : name y = name x := eq_of_beq (List.find?_some (p := (name · == name x)) hy)
    rw [hy, List.inj_on_of_nodup_map hnames (List.mem_of_find?_eq_some hy) hx hname]
  · exact List.mem_of_find?_eq_some

theorem exists_find?_iff_mem (hnames : (xs.map name).Nodup) {x : α} :
    (∃ k, xs.find? (name · == k) = some x) ↔ x ∈ xs := by
  constructor
  · rintro ⟨k, hk⟩
    exact List.mem_of_find?_eq_some hk
  · exact fun hx => ⟨name x, (mem_iff_find?_eq_some hnames).mp hx⟩

/-- With distinct names it does not matter whether one entry is looked up first or all
are filtered first. -/
theorem find?_filter_of_nodup (hnames : (xs.map name).Nodup) (p : α → Bool) (k : String) :
    (xs.filter p).find? (name · == k) = (xs.find? (name · == k)).filter p := by
  induction xs with
  | nil => rfl
  | cons x xs ih =>
    obtain ⟨hfresh, hnames⟩ := List.nodup_cons.mp hnames
    by_cases hx : name x = k
    · have hrest : xs.find? (name · == k) = none := by
        apply List.find?_eq_none.mpr
        intro y hy hyk
        exact hfresh (hx ▸ eq_of_beq hyk ▸ List.mem_map_of_mem hy)
      have hih := ih hnames
      rw [hrest] at hih
      by_cases hp : p x = true
      · simp [hp, hx, Option.filter]
      · simpa [List.filter_cons, hp, hx, Option.filter] using hih
    · by_cases hp : p x = true
      · simpa [List.filter_cons, hp, hx] using ih hnames
      · simpa [List.filter_cons, hp, hx] using ih hnames

end Named

/-! ## Orders without ties -/

theorem transCmp_compareIndexes : Std.TransCmp compareIndexes := by
  have hcolumn := transCmp_comap transCmp_compareText IndexEntry.column
  have hname := transCmp_comap transCmp_compareText IndexEntry.name
  exact inferInstanceAs (Std.TransCmp (compareLex _ _))

/-- Without ties the entries are in strict order once they are sorted. -/
theorem pairwise_lt_mergeSort {α : Type} {cmp : α → α → Ordering} (htrans : Std.TransCmp cmp)
    {xs : List α} (hdistinct : xs.Pairwise (cmp · · ≠ .eq)) :
    (xs.mergeSort fun a b => (cmp a b).isLE).Pairwise (cmp · · = .lt) := by
  have hsorted := pairwise_mergeSort htrans xs
  have hsymm : ∀ {a b : α}, cmp a b ≠ .eq → cmp b a ≠ .eq := by
    intro a b hne heq
    rw [htrans.eq_swap, heq] at hne
    exact hne rfl
  have hdistinct := ((List.mergeSort_perm xs fun a b => (cmp a b).isLE).pairwise_iff hsymm).mpr
    hdistinct
  apply (hsorted.and hdistinct).imp
  rintro a b ⟨hle, hne⟩
  exact (Ordering.isLE_iff_eq_lt_or_eq_eq.mp hle).resolve_right hne

/-! ## The lists of a catalog and its maps -/

/-- The maps of a catalog are what is found in its lists, in which no name is twice. -/
structure Refines (c : Catalog) (m : Maps) : Prop where
  tables : c.table? = m.tables
  indexes : c.index? = m.indexes
  functions : c.functions.overload? = m.functions
  tableNames : (c.tables.map (·.name)).Nodup
  indexNames : (c.indexes.map (·.name)).Nodup
  functionKeys : (c.functions.map (·.1)).Nodup

variable {c changed : Catalog} {m : Maps} {change : Change}

theorem after_of_ok (h : c.make change = .ok changed) : c.after change = changed := by
  cases change with
  | register f =>
    change c.register f = .ok changed at h
    rw [register] at h
    rw [after]
    split_ifs at h ⊢
    generalize c.functions.register f = result at h ⊢
    obtain ⟨_ | _, functions⟩ := result
    · cases h
    · cases h
      rfl
  | unregister name arguments =>
    change c.unregister name arguments = .ok changed at h
    rw [unregister] at h
    rw [after]
    generalize c.functions.unregister name arguments = result at h ⊢
    obtain ⟨_ | _, functions⟩ := result
    · cases h
    · cases h
      rfl
  | _ => simp only [after, h, Except.toOption, Option.getD_some]

/-- A call that fails leaves the catalog as it was. -/
theorem after_of_error {e : CatalogError} (hkeys : (c.functions.map (·.1)).Nodup)
    (h : c.make change = .error e) : c.after change = c := by
  cases change with
  | register f =>
    change c.register f = .error e at h
    rw [register, Overloads.register_eq] at h
    rw [after, Overloads.register_eq]
    split_ifs at h ⊢
    · rfl
    · rfl
    · cases h
  | unregister name arguments =>
    change c.unregister name arguments = .error e at h
    rw [unregister] at h
    rw [after]
    rcases Overloads.unregister_cases hkeys name arguments with
      ⟨-, hrefused⟩ | ⟨-, functions, hchanged, -⟩
    · rw [hrefused]
    · rw [hchanged] at h
      cases h
  | _ => simp only [after, h, Except.toOption, Option.getD_none]

namespace Refines

theorem hasTable (h : Refines c m) (name : String) : c.hasTable name = (m.tables name).isSome := by
  rw [Catalog.hasTable, h.tables]

theorem hasIndex (h : Refines c m) (name : String) : c.hasIndex name = (m.indexes name).isSome := by
  rw [Catalog.hasIndex, h.indexes]

theorem getTable (h : Refines c m) (name : String) :
    c.getTable name = (m.tables name).elim (.error (.noSuchTable name)) .ok := by
  rw [Catalog.getTable, h.tables]
  cases m.tables name <;> rfl

theorem getFunction (h : Refines c m) (name : String) (arguments : List DataType) :
    c.getFunction name arguments = (m.functions (functionKey name, arguments)).elim
      (.error (.noSuchFunction (signature name arguments))) .ok := by
  have hfound : c.function? name arguments = m.functions (functionKey name, arguments) := by
    rw [← h.functions]
    rfl
  rw [Catalog.getFunction, hfound]
  cases m.functions (functionKey name, arguments) <;> rfl

theorem mem_indexes (h : Refines c m) (x : IndexEntry) :
    x ∈ c.indexes ↔ ∃ name, m.indexes name = some x := by
  rw [← h.indexes]
  exact (exists_find?_iff_mem h.indexNames).symm

theorem answers (h : Refines c m) : c.Answers m where
  getTable := h.getTable
  hasTable := h.hasTable
  tableNames := by
    constructor
    · apply pairwise_lt_mergeSort transCmp_compareText
      apply h.tableNames.imp
      exact fun hne heq => hne (eq_of_compareText heq)
    · intro name
      rw [← h.tables, Catalog.tableNames, List.mem_mergeSort, table?, List.find?_isSome]
      simp
  getIndex := by
    intro name
    rw [Catalog.getIndex, h.indexes]
    cases m.indexes name <;> rfl
  hasIndex := h.hasIndex
  hasIndexOn := by
    intro table column
    rw [Catalog.hasIndexOn, List.any_eq_true]
    constructor
    · rintro ⟨x, hx, hon⟩
      obtain ⟨name, hname⟩ := (h.mem_indexes x).mp hx
      exact ⟨name, x, hname, by simpa using hon⟩
    · rintro ⟨name, x, hname, htable, hcolumn⟩
      exact ⟨x, (h.mem_indexes x).mpr ⟨name, hname⟩, by simp [htable, hcolumn]⟩
  indexesOf := by
    intro table
    constructor
    · apply pairwise_lt_mergeSort transCmp_compareIndexes
      apply (List.pairwise_map.mp (h.indexNames.sublist (List.filter_sublist.map _))).imp
      exact fun hne heq => hne (eq_of_compareText (Ordering.then_eq_eq.mp heq).2)
    · intro x
      rw [mem_indexesOf, h.mem_indexes]
  getFunction := h.getFunction
  hasFunction := by
    intro name arguments
    rw [Catalog.hasFunction, h.getFunction]
    cases m.functions (functionKey name, arguments) <;> rfl

theorem alike_addTable (h : Refines c m) (t : TableEntry) :
    Alike Refines (c.addTable t) (m.make (.addTable t)) := by
  rw [addTable, Maps.make, h.hasTable]
  split_ifs with hblank hthere
  · exact .error
  · exact .error
  · have hnone : c.table? t.name = none := by
      rw [h.tables]
      exact Option.not_isSome_iff_eq_none.mp hthere
    refine .ok { h with tables := ?_, tableNames := nodup_append_of_find?_eq_none h.tableNames hnone }
    rw [← h.tables]
    exact find?_append_eq_update hnone

theorem alike_dropTable (h : Refines c m) (name : String) :
    Alike Refines (c.dropTable name) (m.make (.dropTable name)) := by
  rw [dropTable, Maps.make, h.hasTable]
  split_ifs with hthere
  · refine .ok { h with tables := ?_, indexes := ?_, tableNames := ?_, indexNames := ?_ }
    · rw [← h.tables]
      exact find?_filter_eq_update name
    · rw [← h.indexes]
      funext k
      exact find?_filter_of_nodup h.indexNames _ k
    · exact h.tableNames.sublist (List.filter_sublist.map _)
    · exact h.indexNames.sublist (List.filter_sublist.map _)
  · exact .error

theorem alike_updateStats (h : Refines c m) (name : String) (stats : TableStats) :
    Alike Refines (c.updateStats name stats) (m.make (.updateStats name stats)) := by
  have hthere := h.hasTable name
  rw [Maps.make]
  cases ht : m.tables name with
  | none =>
    rw [ht, Option.isSome_none] at hthere
    rw [updateStats, if_neg (Bool.eq_false_iff.mp hthere)]
    exact .error
  | some t =>
    rw [ht, Option.isSome_some] at hthere
    have hmake : c.updateStats name stats = .ok { c with tables := c.tables.map fun t =>
        if t.name == name then { t with stats := some stats } else t } := by
      rw [updateStats, if_pos hthere]
    rw [hmake]
    refine .ok { h with tables := ?_, tableNames := ?_ }
    · funext other
      change _ = Function.update m.tables name (some { t with stats := some stats }) other
      by_cases hother : other = name
      · have hfound : c.table? name = some t := by rw [h.tables, ht]
        rw [hother, Function.update_self, (table?_of_updateStats hmake).2, hfound, Option.map_some,
          name_of_table? hfound, if_pos (beq_self_eq_true name)]
      · rw [Function.update_of_ne hother, table?_of_updateStats_ne hmake hother, h.tables]
    · have hnames : ((fun t : TableEntry => t.name) ∘ fun t : TableEntry =>
          if t.name == name then { t with stats := some stats } else t) = (·.name) := by
        funext t
        dsimp only [Function.comp_apply]
        split <;> rfl
      rw [List.map_map, hnames]
      exact h.tableNames

theorem alike_addIndex (h : Refines c m) (x : IndexEntry) :
    Alike Refines (c.addIndex x) (m.make (.addIndex x)) := by
  rw [addIndex, Maps.make, h.getTable, h.hasIndex]
  split
  next => exact .error
  next =>
    cases ht : m.tables x.table with
    | none => exact .error
    | some t =>
      change Alike Refines (if (!t.schema.has x.column) = true then _ else
        if (m.indexes x.name).isSome = true then _ else _) (if _ then _ else _)
      split
      next => exact .error
      next =>
        split
        next => exact .error
        next hnew =>
          have hnone : c.index? x.name = none := by
            rw [h.indexes]
            exact Option.not_isSome_iff_eq_none.mp hnew
          refine .ok { h with
            indexes := ?_, indexNames := nodup_append_of_find?_eq_none h.indexNames hnone }
          rw [← h.indexes]
          exact find?_append_eq_update hnone

theorem alike_dropIndex (h : Refines c m) (name : String) :
    Alike Refines (c.dropIndex name) (m.make (.dropIndex name)) := by
  rw [dropIndex, Maps.make, h.hasIndex]
  split_ifs with hthere
  · refine .ok { h with
      indexes := ?_, indexNames := h.indexNames.sublist (List.filter_sublist.map _) }
    rw [← h.indexes]
    exact find?_filter_eq_update name
  · exact .error

theorem alike_register (h : Refines c m) (f : FunctionEntry) :
    Alike Refines (c.register f) (m.make (.register f)) := by
  rw [register, Maps.make, Overloads.register_eq, h.functions]
  split_ifs with hblank hthere
  · exact .error
  · exact .error
  · have hnone : c.functions.overload? (f.key, f.arguments) = none := by
      rw [h.functions]
      exact Option.not_isSome_iff_eq_none.mp hthere
    refine .ok { h with
      functions := ?_, functionKeys := Overloads.keys_push f h.functionKeys }
    rw [← h.functions]
    exact Overloads.overload?_push hnone

theorem alike_unregister (h : Refines c m) (name : String) (arguments : List DataType) :
    Alike Refines (c.unregister name arguments) (m.make (.unregister name arguments)) := by
  rw [unregister, Maps.make, ← h.functions]
  rcases Overloads.unregister_cases h.functionKeys name arguments with
    ⟨hnone, hrefused⟩ | ⟨hsome, changed, hchanged, hkeys, hremoved⟩
  · rw [hrefused, hnone]
    exact .error
  · rw [hchanged, if_pos hsome]
    exact .ok { h with functions := hremoved, functionKeys := hkeys }

theorem alike_make (h : Refines c m) (change : Change) :
    Alike Refines (c.make change) (m.make change) := by
  cases change with
  | addTable t => exact h.alike_addTable t
  | dropTable name => exact h.alike_dropTable name
  | updateStats name stats => exact h.alike_updateStats name stats
  | addIndex x => exact h.alike_addIndex x
  | dropIndex name => exact h.alike_dropIndex name
  | register f => exact h.alike_register f
  | unregister name arguments => exact h.alike_unregister name arguments

theorem after (h : Refines c m) (change : Change) : Refines (c.after change) (m.after change) := by
  have halike := h.alike_make change
  rw [Maps.after]
  cases hmake : c.make change with
  | error e =>
    rw [hmake] at halike
    generalize m.make change = result at halike ⊢
    cases halike
    rw [after_of_error h.functionKeys hmake]
    exact h
  | ok changed =>
    rw [hmake] at halike
    generalize m.make change = result at halike ⊢
    cases halike with
    | ok hrefines =>
      rw [after_of_ok hmake]
      exact hrefines

theorem empty : Refines Catalog.empty Maps.empty where
  tables := rfl
  indexes := rfl
  functions := rfl
  tableNames := List.nodup_nil
  indexNames := List.nodup_nil
  functionKeys := List.nodup_nil

theorem builtin : Refines Catalog.builtin Maps.builtin where
  tables := funext fun _ => rfl
  indexes := funext fun _ => rfl
  functions := by
    have htexts : (builtinAggregates.map fun f =>
        ((Text.trimmed f.name).toList.map Char.toUpper, f.arguments)).Nodup := by decide
    have hdistinct : (builtinAggregates.map fun f => (f.key, f.arguments)).Nodup := by
      apply List.Nodup.of_map fun k : String × List DataType => (k.1.toList, k.2)
      simpa [Function.comp_def, FunctionEntry.key, functionKey] using htexts
    funext k
    exact Overloads.overload?_foldl_push (o := []) hdistinct (fun _ _ => rfl) k
  tableNames := List.nodup_nil
  indexNames := List.nodup_nil
  functionKeys := Overloads.keys_foldl_push (o := []) List.nodup_nil

end Refines

/-! ## Every run -/

/-- The answers of a catalog, and what each further call does, are those of the maps. -/
structure Agrees (c : Catalog) (m : Maps) : Prop where
  answers : c.Answers m
  sound : m.Sound
  alike : ∀ change, Alike Answers (c.make change) (m.make change)
  refused : ∀ change e, c.make change = .error e → c.after change = c

theorem Refines.agrees (h : Refines c m) (hsound : m.Sound) : c.Agrees m where
  answers := h.answers
  sound := hsound
  alike := fun change => (h.alike_make change).mono fun _ _ => Refines.answers
  refused := fun _ _ => after_of_error h.functionKeys

theorem Refines.afterAll (h : Refines c m) (hsound : m.Sound) (changes : List Change) :
    Refines (c.afterAll changes) (m.afterAll changes) ∧ (m.afterAll changes).Sound := by
  induction changes generalizing c m with
  | nil => exact ⟨h, hsound⟩
  | cons change changes ih => exact ih (h.after change) (hsound.after change)

theorem agrees_afterAll (changes : List Change) :
    (empty.afterAll changes).Agrees (Maps.empty.afterAll changes) ∧
      (builtin.afterAll changes).Agrees (Maps.builtin.afterAll changes) := by
  obtain ⟨hempty, hemptySound⟩ := Refines.empty.afterAll Maps.sound_empty changes
  obtain ⟨hbuiltin, hbuiltinSound⟩ := Refines.builtin.afterAll Maps.sound_builtin changes
  exact ⟨hempty.agrees hemptySound, hbuiltin.agrees hbuiltinSound⟩

end BlockQuery.Catalog
