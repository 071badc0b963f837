import BlockQuery.Plan.Error

/-!
# Types of expressions
-/

namespace BlockQuery

/-- The type of the result of an arithmetic operation on two numeric types. -/
def DataType.wider : DataType → DataType → DataType
  | .float8, _ | _, .float8 => .float8
  | .int8, _ | _, .int8 => .int8
  | _, _ => .int4

/-- The type of an operation on operands of the given types.  Only arithmetic
looks at them. -/
def BinaryOp.resultType (left right : DataType) : BinaryOp → Except PlanError DataType
  | comparison _ | connective _ => .ok .bool
  | arithmetic op =>
    if left.isNumeric && right.isNumeric then .ok (left.wider right)
    else .error (.notNumeric left op right)

/-- The type of an expression over rows of a schema.  A null literal counts as
text; what is under a negation or a test is not looked at. -/
def Expr.typeIn (schema : Schema) : Expr → Except PlanError DataType
  | column name =>
    match schema.find name with
    | .ok i => .ok ((schema[i]?.map (·.type)).getD .text)
    | .error e => .error (.lookup e)
  | literal value => .ok (value.type?.getD .text)
  | binary op left right => do
    let l ← left.typeIn schema
    let r ← right.typeIn schema
    op.resultType l r
  | not _ | isNull .. | like .. => .ok .bool

end BlockQuery
