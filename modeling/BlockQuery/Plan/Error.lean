import BlockQuery.Expr

/-!
# Errors in building and reading plans
-/

namespace BlockQuery

inductive AggregateFunction where
  | count
  | sum
  | min
  | max
  | avg
deriving DecidableEq, Repr

def AggregateFunction.name : AggregateFunction → String
  | count => "count"
  | sum => "sum"
  | min => "min"
  | max => "max"
  | avg => "avg"

/-- The version of the written form of plans. -/
def planVersion : Nat := 1

inductive PlanError where
  | lookup (e : LookupError)
  | notNumeric (left : DataType) (op : Arithmetic) (right : DataType)
  | starArgument (function : AggregateFunction)
  | aggregateType (function : AggregateFunction) (argument : DataType)
  | version (found : Nat)
  | missingVersion
  | malformed
deriving DecidableEq, Repr

def PlanError.message : PlanError → String
  | lookup e => e.message
  | notNumeric left op right =>
    "Type mismatch: " ++ left.name ++ " " ++ op.symbol ++ " " ++ right.name ++
      " needs numeric operands"
  | starArgument function => "Invalid aggregate: " ++ function.name ++ "(*) is not allowed"
  | aggregateType function argument =>
    "Invalid aggregate: " ++ function.name ++ " over " ++ argument.name
  | version found => s!"Unsupported plan version {found} (supported: {planVersion})"
  | missingVersion => "Plan codec error: missing plan version"
  | malformed => "Plan codec error: malformed plan"

end BlockQuery
