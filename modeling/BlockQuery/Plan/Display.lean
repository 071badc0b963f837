import BlockQuery.Plan

/-!
# Plans as text

A plan is written as one line per node, indented by two blanks per level.
-/

namespace BlockQuery

def JoinType.name : JoinType → String
  | inner => "INNER"
  | leftOuter => "LEFT OUTER"
  | cross => "CROSS"

def StoreType.name : StoreType → String
  | rowFile => "ROWFILE"

def Aggregate.display (a : Aggregate) : String :=
  a.function.name ++ "(" ++ ((a.argument.map Expr.display).getD "*") ++ ") AS " ++ a.name

def SortSpec.display (spec : SortSpec) : String := spec.column ++ " " ++ spec.direction

/-- A target, without a name if it is the column of that name. -/
def Target.display (t : Target) : String :=
  if t.expr = .column t.name then t.name else t.expr.display ++ " AS " ++ t.name

def ScanSource.display : ScanSource → String
  | table name => "SCAN " ++ name
  | block seq => s!"SCAN block #{seq.toNat}"

namespace Plan

def kind : Plan → String
  | root _ => "ROOT"
  | scan _ => "SCAN"
  | join .. => "JOIN"
  | filter .. => "FILTER"
  | groupBy .. => "GROUP_BY"
  | sort .. => "SORT"
  | project .. => "PROJECTION"
  | createTable .. => "CREATE_TABLE"

/-- The line of a node. -/
def describe : Plan → String
  | root _ => "ROOT"
  | scan s =>
    s.source.display ++ match s.filter with
      | some e => " WHERE " ++ e.display
      | none => ""
  | join type condition _ _ _ =>
    type.name ++ " JOIN" ++ match condition with
      | some e => " ON " ++ e.display
      | none => ""
  | filter predicate _ => "FILTER " ++ predicate.display
  | groupBy keys aggregates _ _ =>
    "GROUP BY [" ++ ", ".intercalate keys ++ "] " ++
      ", ".intercalate (aggregates.map Aggregate.display)
  | sort specs _ => "SORT " ++ ", ".intercalate (specs.map SortSpec.display)
  | project targets _ _ => "PROJECT " ++ ", ".intercalate (targets.map Target.display)
  | createTable table schema _ _ => "CREATE TABLE " ++ table ++ " " ++ schema.display

/-- The lines of a plan that stands at a level. -/
def linesFrom (level : Nat) (p : Plan) : List String :=
  (String.ofList (List.replicate (2 * level) ' ') ++ p.describe) :: match p with
    | root input | filter _ input | groupBy _ _ input _ | sort _ input | project _ input _ =>
      input.linesFrom (level + 1)
    | join _ _ left right _ => left.linesFrom (level + 1) ++ right.linesFrom (level + 1)
    | scan _ | createTable .. => []

/-- The text of a plan, every line with its line break. -/
def display (p : Plan) : String :=
  (p.linesFrom 0).foldl (fun text line => text ++ line ++ "\n") ""

end Plan
end BlockQuery
