import BlockQuery.Expr
import BlockQuery.Expr.Like
import BlockQuery.Row

/-!
# Evaluation of expressions

An expression is bound to a schema, which turns column names into positions and
checks the size of patterns, and then evaluated on rows.  Nulls follow
three-valued logic: a connective is decided by one operand where it can be, and
every other operation on a null is null.  Arithmetic on integers is exact or an
error.
-/

namespace BlockQuery

inductive ArithmeticFault where
  | overflow
  | divisionByZero
  | notNumeric
deriving DecidableEq, Repr

inductive EvalError where
  | missing (name : String) (position width : Nat)
  | notNeedsBool (value : Datum)
  | likeNeedsText (value : Datum)
  | connectiveNeedsBool (op : Connective) (value : Datum)
  | incomparable (left : Datum) (op : Comparison) (right : Datum)
  | arithmetic (fault : ArithmeticFault) (left : Datum) (op : Arithmetic) (right : Datum)
  | notBoolean (value : Datum)
  | sumNeedsInteger (value : Datum)
  | sumNeedsNumber (value : Datum)
  | averageNeedsNumber (value : Datum)
  | sumOverflow
  | patternTooLarge (pattern : String)
  | other (text : String)
deriving DecidableEq, Repr

def EvalError.message : EvalError → String
  | missing name position width =>
    s!"Column {name} at position {position} missing from row of {width} values"
  | notNeedsBool value => "NOT requires bool, got " ++ value.display
  | likeNeedsText value => "LIKE requires text, got " ++ value.display
  | connectiveNeedsBool op value => op.symbol ++ " requires bool operands, got " ++ value.display
  | incomparable left op right =>
    "Cannot compare " ++ left.display ++ " " ++ op.symbol ++ " " ++ right.display
  | arithmetic fault left op right =>
    let term := left.display ++ " " ++ op.symbol ++ " " ++ right.display
    match fault with
    | .overflow => "Overflow in " ++ term
    | .divisionByZero => "Division by zero in " ++ term
    | .notNumeric => term ++ " needs numeric operands"
  | notBoolean value => "Predicate evaluated to non-boolean " ++ value.display
  | sumNeedsInteger value => "sum over non-integer " ++ value.display
  | sumNeedsNumber value => "sum over non-number " ++ value.display
  | averageNeedsNumber value => "avg over non-number " ++ value.display
  | sumOverflow => "sum overflow"
  | patternTooLarge pattern =>
    s!"Bad LIKE pattern '{pattern}': Compiled regex exceeds size limit of {Like.maxSize} bytes."
  | other text => text

/-! ## Operations on values -/

/-- Whether two values that are not null may be compared. -/
def Datum.comparable : Datum → Datum → Bool
  | text _, text _ | bool _, bool _ => true
  | a, b => a.isNumeric && b.isNumeric

def Comparison.eval (op : Comparison) (left right : Datum) : Except EvalError Datum :=
  if left.isNull || right.isNull then .ok .null
  else if left.comparable right then .ok (.bool (op.holds (left.totalCompare right)))
  else .error (.incomparable left op right)

/-- The truth of a value as an operand of a connective; null is unknown. -/
def Connective.operand (op : Connective) : Datum → Except EvalError (Option Bool)
  | .bool b => .ok (some b)
  | .null => .ok none
  | value => .error (.connectiveNeedsBool op value)

/-- The value that decides a connective whatever the other operand is. -/
def Connective.deciding : Connective → Bool
  | and => false
  | or => true

/-- A connective in three-valued logic. -/
def Connective.combine (op : Connective) (left right : Option Bool) : Option Bool :=
  if left = some op.deciding ∨ right = some op.deciding then some op.deciding
  else if left.isNone ∨ right.isNone then none
  else some (!op.deciding)

def Connective.eval (op : Connective) (left right : Datum) : Except EvalError Datum := do
  let l ← op.operand left
  let r ← op.operand right
  return ((op.combine l r).map Datum.bool).getD .null

/-- An operation on integers whose result has to lie within bounds.  For a
remainder it is the quotient that has to. -/
def Arithmetic.onIntegers (low high : Int) (op : Arithmetic) (a b : Int) :
    Except ArithmeticFault Int :=
  let within (n : Int) : Except ArithmeticFault Int :=
    if low ≤ n ∧ n ≤ high then .ok n else .error .overflow
  match op with
  | plus => within (a + b)
  | minus => within (a - b)
  | times => within (a * b)
  | divide => if b = 0 then .error .divisionByZero else within (a.tdiv b)
  | modulo =>
    if b = 0 then .error .divisionByZero else (within (a.tdiv b)).map fun _ => a.tmod b

def Arithmetic.onFloats (op : Arithmetic) (a b : Float8) : Except ArithmeticFault Float8 :=
  match op with
  | plus => .ok (a.add b)
  | minus => .ok (a.sub b)
  | times => .ok (a.mul b)
  | divide => if b.isZero then .error .divisionByZero else .ok (a.div b)
  | modulo => if b.isZero then .error .divisionByZero else .ok (a.rem b)

def int4Low : Int := -0x80000000

def int4High : Int := 0x7fffffff

def int8Low : Int := -0x8000000000000000

def int8High : Int := 0x7fffffffffffffff

/-- Arithmetic on values: in 32 bits between narrow integers, as doubles if a
double takes part, and in 64 bits otherwise. -/
def Arithmetic.onValues (op : Arithmetic) : Datum → Datum → Except ArithmeticFault Datum
  | .int4 a, .int4 b =>
    (op.onIntegers int4Low int4High a.toInt b.toInt).map fun n => .int4 (Int32.ofInt n)
  | a, b =>
    if a.type? = some .float8 ∨ b.type? = some .float8 then
      match a.toFloat8?, b.toFloat8? with
      | some x, some y => (op.onFloats x y).map .float8
      | _, _ => .error .notNumeric
    else
      match a.toInt?, b.toInt? with
      | some x, some y =>
        (op.onIntegers int8Low int8High x y).map fun n => .int8 (Int64.ofInt n)
      | _, _ => .error .notNumeric

def Arithmetic.eval (op : Arithmetic) (left right : Datum) : Except EvalError Datum :=
  if left.isNull || right.isNull then .ok .null
  else (op.onValues left right).mapError fun fault => .arithmetic fault left op right

def BinaryOp.eval : BinaryOp → Datum → Datum → Except EvalError Datum
  | comparison op => op.eval
  | connective op => op.eval
  | arithmetic op => op.eval

/-- The result that the left operand alone decides. -/
def BinaryOp.decided? : BinaryOp → Datum → Option Datum
  | connective op, .bool b => if b = op.deciding then some (.bool b) else none
  | _, _ => none

/-! ## Bound expressions -/

inductive BoundExpr where
  | column (position : Nat) (name : String)
  | literal (value : Datum)
  | binary (op : BinaryOp) (left right : BoundExpr)
  | not (inner : BoundExpr)
  | isNull (inner : BoundExpr) (negated : Bool)
  | like (inner : BoundExpr) (pattern : List Like.Part) (negated : Bool)
deriving DecidableEq, Repr, Inhabited

/-- Why an expression cannot be bound to a schema. -/
inductive BindError where
  /-- A column that means none or several of the schema. -/
  | lookup (cause : LookupError) (schema : Schema)
  | pattern (pattern : String)
deriving DecidableEq, Repr

/-- An expression with its columns looked up in a schema. -/
def Expr.bind (schema : Schema) : Expr → Except BindError BoundExpr
  | column name =>
    match schema.find name with
    | .ok i => .ok (.column i name)
    | .error e => .error (.lookup e schema)
  | literal value => .ok (.literal value)
  | binary op left right => do
    let l ← left.bind schema
    let r ← right.bind schema
    return .binary op l r
  | not inner => (inner.bind schema).map .not
  | isNull inner negated => (inner.bind schema).map (.isNull · negated)
  | like inner pattern negated => do
    let e ← inner.bind schema
    let ps := Like.parts pattern
    if Like.fits ps then return .like e ps negated else throw (.pattern pattern)

namespace BoundExpr

def eval (row : Row) : BoundExpr → Except EvalError Datum
  | column position name =>
    match row[position]? with
    | some value => .ok value
    | none => .error (.missing name position row.length)
  | literal value => .ok value
  | binary op left right => do
    let l ← left.eval row
    match op.decided? l with
    | some value => return value
    | none => op.eval l (← right.eval row)
  | not inner => do
    match ← inner.eval row with
    | .bool b => return .bool !b
    | .null => return .null
    | value => throw (.notNeedsBool value)
  | isNull inner negated => do
    let value ← inner.eval row
    return .bool (value.isNull != negated)
  | like inner pattern negated => do
    match ← inner.eval row with
    | .text s => return .bool (Like.accepts pattern s != negated)
    | .null => return .null
    | value => throw (.likeNeedsText value)

/-- Whether a row is kept by a predicate; an unknown outcome drops it. -/
def keeps (e : BoundExpr) (row : Row) : Except EvalError Bool := do
  match ← e.eval row with
  | .bool b => return b
  | .null => return false
  | value => throw (.notBoolean value)

end BoundExpr
end BlockQuery
