import BlockQuery.Datum
import BlockQuery.Json.Printer

/-!
# The log

A line of the log is a JSON object: the time, the event and its level, and then
the fields of the event by name.  Lines below the minimum level are left out.
Failures go to the error output and all other lines to the ordinary one.
-/

namespace BlockQuery

inductive LogLevel where
  | trace
  | info
  | warn
  | error
  | fatal
deriving DecidableEq, Repr

namespace LogLevel

def name : LogLevel → String
  | trace => "TRACE"
  | info => "INFO"
  | warn => "WARN"
  | error => "ERROR"
  | fatal => "FATAL"

def rank : LogLevel → Nat
  | trace => 0
  | info => 1
  | warn => 2
  | error => 3
  | fatal => 4

def isFailure (level : LogLevel) : Bool := decide (error.rank ≤ level.rank)

end LogLevel

/-- What is written for times.  Work that the log tells of takes no time in
itself, so this comes from outside. -/
structure Clock where
  stamp : String
  /-- The time that a piece of work took, in milliseconds. -/
  elapsed : String
deriving DecidableEq, Repr

abbrev LogFields := List (String × String)

namespace LogFields

/-- The names that every line has. -/
def reserved : List String := ["ts", "event", "severity"]

/-- The fields without those whose name was met before. -/
def firstOfEach (met : List String) : LogFields → LogFields
  | [] => []
  | f :: fs => if met.contains f.1 then firstOfEach met fs else f :: firstOfEach (f.1 :: met) fs

/-- The fields as a line shows them: sorted by name, each name once. -/
def shown (fields : LogFields) : LogFields :=
  firstOfEach reserved (fields.mergeSort fun a b => (compareText a.1 b.1).isLE)

end LogFields

/-- The text of a line. -/
def logLine (stamp : String) (level : LogLevel) (event : String) (fields : LogFields) : String :=
  Json.compact (.object ([("ts", .text stamp), ("event", .text event),
    ("severity", .text level.name)] ++ fields.shown.map fun (name, value) => (name, .text value)))

structure Log where
  minimum : LogLevel
  clock : Clock
  /-- The lines of the ordinary output. -/
  out : List String
  /-- The lines of the error output. -/
  err : List String
deriving DecidableEq, Repr

namespace Log

/-- A log without lines. -/
def start (minimum : LogLevel) (clock : Clock) : Log := ⟨minimum, clock, [], []⟩

def write (log : Log) (level : LogLevel) (event : String) (fields : LogFields) : Log :=
  if level.rank < log.minimum.rank then log
  else
    let line := logLine log.clock.stamp level event fields
    if level.isFailure then { log with err := log.err ++ [line] }
    else { log with out := log.out ++ [line] }

end Log

/-! ## Events

What the program reports in its log.
-/

inductive Event where
  | configLoaded
  | tableCreated
  | indexRegistered
  | queryReceived
  | queryRejected
  | queryCompleted
  | planBuilt
  | planOptimized
  | ruleApplied
  | blockDispatched
  | blockCompleted
  | blockFailed
  | indexBuilt
  | indexOpened
  | indexDamaged
  | dataDamaged
  | explainBegun
  | explainCompleted
deriving DecidableEq, Repr

namespace Event

def all : List Event :=
  [configLoaded, tableCreated, indexRegistered, queryReceived, queryRejected, queryCompleted,
    planBuilt, planOptimized, ruleApplied, blockDispatched, blockCompleted, blockFailed,
    indexBuilt, indexOpened, indexDamaged, dataDamaged, explainBegun, explainCompleted]

theorem mem_all (e : Event) : e ∈ all := by cases e <;> decide

def name : Event → String
  | configLoaded => "CONFIG_LOADED"
  | tableCreated => "TABLE_CREATED"
  | indexRegistered => "INDEX_REGISTERED"
  | queryReceived => "QUERY_BEGIN"
  | queryRejected => "QUERY_REJECTED"
  | queryCompleted => "QUERY_COMPLETE"
  | planBuilt => "GLOBAL_PLAN_BUILT"
  | planOptimized => "GLOBAL_PLAN_OPTIMIZED"
  | ruleApplied => "GLOBAL_PLAN_REWRITE"
  | blockDispatched => "BLOCK_DISPATCHED"
  | blockCompleted => "BLOCK_COMPLETE"
  | blockFailed => "BLOCK_FAILED"
  | indexBuilt => "INDEX_BUILT"
  | indexOpened => "INDEX_OPENED"
  | indexDamaged => "INDEX_CORRUPTION"
  | dataDamaged => "DATA_CORRUPTION"
  | explainBegun => "EXPLAIN_BEGIN"
  | explainCompleted => "EXPLAIN_COMPLETE"

/-- Whether an event tells of damaged data. -/
def isFatal : Event → Bool
  | indexDamaged | dataDamaged => true
  | _ => false

/-- Whether an event tells of work that was not done. -/
def isFailure : Event → Bool
  | queryRejected | blockFailed => true
  | _ => false

def level (e : Event) : LogLevel :=
  if e.isFatal then .fatal else if e.isFailure then .error else .info

end Event

/-- An event written at its level. -/
def Log.report (log : Log) (e : Event) (fields : LogFields) : Log :=
  log.write e.level e.name fields

end BlockQuery
