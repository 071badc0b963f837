import BlockQuery.RowSource.IndexScan
import BlockQuery.Terse.Expr

/-!
# Index lookups in terse form

A lookup is an object that holds the key to find or the two bounds of a range.
A bound is null, or an object that tells by the name of its member whether the
key in it belongs to the range.
-/

namespace BlockQuery

def Row.ofTerse? (v : Json) : Option Row := v.toListOf? Datum.ofTerse?

def Index.Bound.ofTerse? : Json → Option Index.Bound
  | .null => some .unbounded
  | .object [("inc", key)] => (Row.ofTerse? key).map .included
  | .object [("exc", key)] => (Row.ofTerse? key).map .excluded
  | _ => none

def IndexLookup.ofTerse? : Json → Option IndexLookup
  | .object [("eq", key)] => (Row.ofTerse? key).map .eq
  | .object [("range", .array [lower, upper])] => do
    return .range (← Index.Bound.ofTerse? lower) (← Index.Bound.ofTerse? upper)
  | _ => none

end BlockQuery
