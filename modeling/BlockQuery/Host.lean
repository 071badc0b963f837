import BlockQuery.Counters
import BlockQuery.Disk
import BlockQuery.Log
import BlockQuery.QueryId

/-!
# The host

What all work of the program shares: the disk, the log, the counters, and the
numbers that queries get.
-/

namespace BlockQuery

structure Host where
  disk : Disk
  log : Log
  counters : Counters
  /-- The number of the next query. -/
  nextQuery : Nat
deriving Repr

namespace Host

def report (host : Host) (e : Event) (fields : LogFields) : Host :=
  { host with log := host.log.report e fields }

def count (host : Host) (counter : Counter) (n : Nat) : Host :=
  { host with counters := host.counters.add counter n }

/-- A query id that was not given before. -/
def newQuery (host : Host) : QueryId × Host :=
  (QueryId.ofNat host.nextQuery, { host with nextQuery := host.nextQuery + 1 })

end Host
end BlockQuery
