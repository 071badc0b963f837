import BlockQuery.Schema

/-!
# Expressions

The scalar expressions of query plans: columns by name, literals, binary
operations, negation, null tests and text patterns.  This module holds what can
be said of an expression without evaluating it.
-/

namespace BlockQuery

inductive Comparison where
  | eq
  | notEq
  | lt
  | ltEq
  | gt
  | gtEq
deriving DecidableEq, Repr

namespace Comparison

def symbol : Comparison → String
  | eq => "="
  | notEq => "<>"
  | lt => "<"
  | ltEq => "<="
  | gt => ">"
  | gtEq => ">="

/-- The comparison that holds of `b` and `a` when this one holds of `a` and `b`. -/
def flipped : Comparison → Comparison
  | lt => gt
  | ltEq => gtEq
  | gt => lt
  | gtEq => ltEq
  | eq => eq
  | notEq => notEq

/-- Whether a comparison holds of values in that order. -/
def holds : Comparison → Ordering → Bool
  | eq, o => o == .eq
  | notEq, o => o != .eq
  | lt, o => o == .lt
  | ltEq, o => o != .gt
  | gt, o => o == .gt
  | gtEq, o => o != .lt

@[simp] theorem flipped_flipped (c : Comparison) : c.flipped.flipped = c := by
  cases c <;> rfl

theorem holds_flipped (c : Comparison) (o : Ordering) : c.flipped.holds o.swap = c.holds o := by
  cases c <;> cases o <;> rfl

end Comparison

inductive Connective where
  | and
  | or
deriving DecidableEq, Repr

def Connective.symbol : Connective → String
  | and => "AND"
  | or => "OR"

inductive Arithmetic where
  | plus
  | minus
  | times
  | divide
  | modulo
deriving DecidableEq, Repr

def Arithmetic.symbol : Arithmetic → String
  | plus => "+"
  | minus => "-"
  | times => "*"
  | divide => "/"
  | modulo => "%"

inductive BinaryOp where
  | comparison (c : Comparison)
  | connective (c : Connective)
  | arithmetic (a : Arithmetic)
deriving DecidableEq, Repr

namespace BinaryOp

def symbol : BinaryOp → String
  | comparison c => c.symbol
  | connective c => c.symbol
  | arithmetic a => a.symbol

/-- The operation with its operands exchanged; only comparisons change. -/
def flipped : BinaryOp → BinaryOp
  | comparison c => comparison c.flipped
  | op => op

end BinaryOp

inductive Expr where
  | column (name : String)
  | literal (value : Datum)
  | binary (op : BinaryOp) (left right : Expr)
  | not (inner : Expr)
  | isNull (inner : Expr) (negated : Bool)
  | like (inner : Expr) (pattern : String) (negated : Bool)
deriving DecidableEq, Repr, Inhabited

namespace Expr

def compare (c : Comparison) (left right : Expr) : Expr := binary (.comparison c) left right

def and (left right : Expr) : Expr := binary (.connective .and) left right

/-- The conjunction of expressions from left to right; there is none of no expressions. -/
def conjunction? : List Expr → Option Expr
  | [] => none
  | e :: es => some (es.foldl and e)

/-- The operands of the conjunctions at the top of an expression, in order. -/
def conjuncts : Expr → List Expr
  | binary (.connective .and) left right => left.conjuncts ++ right.conjuncts
  | e => [e]

/-- The columns of an expression after those already met, each name once. -/
def columnsAfter (met : List String) : Expr → List String
  | column name => if met.contains name then met else met ++ [name]
  | literal _ => met
  | binary _ left right => right.columnsAfter (left.columnsAfter met)
  | not inner | isNull inner _ | like inner _ _ => inner.columnsAfter met

/-- The names of the columns of an expression, in order of first appearance. -/
def columns (e : Expr) : List String := e.columnsAfter []

/-- A comparison of a column with a literal, with the column on the left. -/
def columnComparison? : Expr → Option (String × Comparison × Datum)
  | binary (.comparison c) (column name) (literal value) => some (name, c, value)
  | binary (.comparison c) (literal value) (column name) => some (name, c.flipped, value)
  | _ => none

/-- The sides of an equation between a column of each of two schemas, the
column of the left schema first. -/
def equiPair? (left right : Schema) : Expr → Option (String × String)
  | binary (.comparison .eq) (column a) (column b) =>
    if left.has a && right.has b then some (a, b)
    else if left.has b && right.has a then some (b, a)
    else none
  | _ => none

/-- The pairs of columns that a join condition equates, one of each side. -/
def equiPairs (left right : Schema) (e : Expr) : List (String × String) :=
  e.conjuncts.filterMap (equiPair? left right)

/-- The text of an expression.  Only the connectives are put in parentheses. -/
def display : Expr → String
  | column name => name
  | literal value => value.display
  | binary (.connective c) left right =>
    "(" ++ left.display ++ " " ++ c.symbol ++ " " ++ right.display ++ ")"
  | binary op left right => left.display ++ " " ++ op.symbol ++ " " ++ right.display
  | not inner => "NOT " ++ inner.display
  | isNull inner negated => inner.display ++ " IS " ++ (if negated then "NOT " else "") ++ "NULL"
  | like inner pattern negated =>
    inner.display ++ " " ++ (if negated then "NOT " else "") ++ "LIKE '" ++ pattern ++ "'"

end Expr
end BlockQuery
