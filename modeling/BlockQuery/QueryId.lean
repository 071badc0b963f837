import BlockQuery.Json.Parser
import BlockQuery.Json.Printer

/-!
# Query ids

A query is known by 128 bits.  They are read from the usual written forms of
such ids: 32 hexadecimal digits, with hyphens between groups of 8, 4, 4, 4 and
12, and the latter in braces or after `urn:uuid:`.
-/

namespace BlockQuery

structure QueryId where
  bits : BitVec 128
deriving DecidableEq, Repr

namespace QueryId

def ofNat (n : Nat) : QueryId := ⟨BitVec.ofNat 128 n⟩

/-- The hexadecimal digits of an id, in lower case. -/
def digits (id : QueryId) : List Char :=
  (List.range 32).map fun i => Json.hexDigit (id.bits.toNat >>> (4 * (31 - i)))

/-- The name of a query in logs and paths. -/
def display (id : QueryId) : String := "q_" ++ String.ofList id.digits

/-- The id with hyphens between its groups. -/
def hyphenated (id : QueryId) : String :=
  let ds := id.digits
  String.ofList (ds.take 8 ++ '-' :: (ds.drop 8).take 4 ++ '-' :: (ds.drop 12).take 4 ++
    '-' :: (ds.drop 16).take 4 ++ '-' :: ds.drop 20)

def ofDigits? (cs : List Char) : Option QueryId := do
  let ds ← cs.mapM Json.hexValue?
  return ofNat (ds.foldl (fun n d => 16 * n + d) 0)

/-- Takes out the hyphens, which have to stand between the groups. -/
def groups? (cs : List Char) : Option (List Char) :=
  let hyphens := [8, 13, 18, 23].map fun i => cs[i]?
  if cs.length = 36 ∧ hyphens.all (· == some '-') then
    some (cs.take 8 ++ (cs.drop 9).take 4 ++ (cs.drop 14).take 4 ++ (cs.drop 19).take 4 ++
      cs.drop 24)
  else none

/-- The inside of braces. -/
def braced? : List Char → Option (List Char)
  | '\x7b' :: cs => if cs.getLast? = some '\x7d' then some cs.dropLast else none
  | _ => none

def ofText? (s : String) : Option QueryId :=
  let cs := s.toList
  if cs.length = 32 then ofDigits? cs
  else if cs.length = 36 then (groups? cs).bind ofDigits?
  else if cs.length = 38 then ((braced? cs).bind groups?).bind ofDigits?
  else if cs.take 9 = "urn:uuid:".toList then (groups? (cs.drop 9)).bind ofDigits?
  else none

end QueryId
end BlockQuery
