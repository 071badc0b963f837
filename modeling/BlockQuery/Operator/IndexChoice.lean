import BlockQuery.Operator

/-!
# Choosing an index

A scan of a table can go by an index on a column that the predicate compares
with literals.  An equation is looked up as such; other comparisons bound a
range of the index.  The predicate is checked again on the rows found, so the
choice decides about speed and order only.
-/

namespace BlockQuery

/-- Whether a value can be looked up among keys of a type. -/
def Datum.isKeyFor (type : DataType) : Datum → Bool
  | .null => false
  | .bool _ => type == .bool
  | .text _ => type == .text
  | .int4 _ | .int8 _ | .float8 _ => type.isNumeric

/-- A comparison of a column with a value. -/
structure KeyTest where
  column : String
  op : Comparison
  value : Datum
deriving DecidableEq, Repr

namespace KeyTest

/-- A conjunct read as a test of a column of a schema that an index can answer. -/
def ofExpr? (schema : Schema) (e : Expr) : Option KeyTest := do
  let (name, op, value) ← e.columnComparison?
  let column ← (schema.find name).toOption.bind fun i => schema[i]?
  guard (value.isKeyFor column.type)
  return ⟨column.simple, op, value⟩

/-- The tests of a predicate, in the order of its conjuncts. -/
def ofPredicate (schema : Schema) (predicate : Expr) : List KeyTest :=
  predicate.conjuncts.filterMap (ofExpr? schema)

def lower? (t : KeyTest) : Option Index.Bound :=
  match t.op with
  | .gt => some (.excluded [t.value])
  | .gtEq => some (.included [t.value])
  | _ => none

def upper? (t : KeyTest) : Option Index.Bound :=
  match t.op with
  | .lt => some (.excluded [t.value])
  | .ltEq => some (.included [t.value])
  | _ => none

/-- The look-up that answers some tests of the key of an index: the first
equation, or else the range between the first bounds on either side.  In a
descending index the bounds trade places. -/
def lookup? (ascending : Bool) (tests : List KeyTest) : Option IndexLookup :=
  match tests.find? (·.op == .eq) with
  | some t => some (.eq [t.value])
  | none =>
    match tests.findSome? lower?, tests.findSome? upper? with
    | none, none => none
    | lower, upper =>
      let low := lower.getD .unbounded
      let high := upper.getD .unbounded
      some (if ascending then .range low high else .range high low)

end KeyTest

/-- Whether the keys of an index ascend. -/
def IndexBinding.ascending (b : IndexBinding) : Bool :=
  (b.reader.header.specs.head?.map (·.ascending)).getD true

/-- The look-up that an index offers for some tests. -/
def IndexBinding.lookup? (b : IndexBinding) (tests : List KeyTest) : Option IndexLookup :=
  KeyTest.lookup? b.ascending (tests.filter (·.column == b.column))

/-- An index with the look-up that it offers. -/
structure IndexChoice where
  binding : IndexBinding
  lookup : IndexLookup
deriving Repr

namespace IndexChoice

/-- Whether one choice is at least as good as another: equations come before
ranges, and then the names of the columns decide. -/
def notWorse (a b : IndexChoice) : Bool :=
  if a.lookup.isEquality = b.lookup.isEquality then
    (compareText a.binding.column b.binding.column).isLE
  else a.lookup.isEquality

/-- The first of the best choices. -/
def best? : List IndexChoice → Option IndexChoice
  | [] => none
  | c :: cs => some (cs.foldl (fun best c => if best.notWorse c then best else c) c)

/-- The index by which a scan of a table finds the rows of a predicate. -/
def ofPredicate? (ctx : TaskContext) (table : String) (schema : Schema) (predicate : Expr) :
    Option IndexChoice :=
  let tests := KeyTest.ofPredicate schema predicate
  best? ((ctx.indexesOn table).filterMap fun b => (b.lookup? tests).map fun l => ⟨b, l⟩)

/-- The scan that follows a choice. -/
def scan (c : IndexChoice) (schema : Schema) : IndexScan :=
  ⟨schema, c.binding.data, c.binding.reader, c.lookup⟩

end IndexChoice
end BlockQuery
