import BlockQuery.Engine
import BlockQuery.Engine.Scheduler
import BlockQuery.Engine.Worker
import BlockQuery.MasterPlan.Explanation
import BlockQuery.MasterPlan.Partition
import BlockQuery.MasterPlan.Improvement

/-!
# Queries

A query is planned into blocks, which are dispatched and run one at a time; the
output of the last one is the answer.  What the blocks write is in a directory
of the query, which is removed afterwards.
-/

namespace BlockQuery

/-! ## Planning -/

namespace Host

def builtFields (p : MasterPlan) : LogFields :=
  [("query_id", p.query.display), ("blocks", toString p.blocks.length),
    ("edges", toString p.edgeCount)]

def ruleFields (query : QueryId) (r : RuleUse) : LogFields :=
  [("query_id", query.display), ("rule", r.rule.name), ("blocks", toString r.blocks)]

def optimizedFields (before after : MasterPlan) (uses : Nat) : LogFields :=
  [("query_id", after.query.display), ("rewrites", toString uses),
    ("blocks_before", toString before.blocks.length),
    ("blocks_after", toString after.blocks.length)]

/-- Plans a query under a configuration, with the names in it resolved by a
catalog if there is one. -/
def plan (host : Host) (config : Config) (catalog : Option Catalog) (query : QueryId)
    (root : Plan) : Except PlannerError MasterPlan × Host :=
  match MasterPlan.ofPlan catalog query root with
  | .error e => (.error e, host)
  | .ok raw =>
    let host := host.report .planBuilt (builtFields raw)
    let (done, result) :=
      raw.improve (PlanRule.standard config.broadcastThreshold) config.maxRuleUses.toNat
    let host := done.foldl (fun host r => host.report .ruleApplied (ruleFields query r)) host
    match result with
    | .error e => (.error e, host)
    | .ok p =>
      let host := host.report .planOptimized (optimizedFields raw p done.length)
      (.ok p, (host.count .plansBuilt 1).count .rulesApplied done.length)

/-- Explains a query. -/
def explain (host : Host) (config : Config) (catalog : Option Catalog) (root : Plan) :
    Explanation × Host :=
  let (query, host) := (host.report .explainBegun []).newQuery
  let (result, host) := host.plan config catalog query root
  let (explanation, accepted) := match result with
    | .ok p => (Explanation.ofPlan p, "true")
    | .error e => (Explanation.ofError e, "false")
  (explanation, host.report .explainCompleted [("accepted", accepted)])

/-- Opens an index and reports it. -/
def openIndex (host : Host) (path : String) : Except Index.Error Index.Reader × Host :=
  match Index.Reader.open? host.disk path with
  | .error e => (.error e, host)
  | .ok r =>
    (.ok r, host.report .indexOpened [("path", path), ("entries", toString r.header.entryCount),
      ("top_entries", toString r.header.topCount), ("load_factor", toString r.header.loadFactor)])

end Host

/-! ## Running -/

/-- A query that is running. -/
structure QueryRun where
  scheduler : Scheduler
  worker : Worker
  channel : Channel
  host : Host
deriving Repr

namespace QueryRun

def start (p : MasterPlan) (ctx : TaskContext) (workDir : String) (host : Host) : QueryRun :=
  ⟨.start p, .start ctx workDir, .start, host⟩

def advance (r : QueryRun) : Except DispatchError (Option DispatchHandle) × QueryRun :=
  let (result, scheduler, channel, host) :=
    r.scheduler.advance Channel.dispatcher r.channel r.host
  (result, { r with scheduler := scheduler, channel := channel, host := host })

def step (r : QueryRun) : Except EngineError (Option BlockOutput) × QueryRun :=
  let (result, worker, channel, host) := r.worker.step r.channel r.host
  (result, { r with worker := worker, channel := channel, host := host })

/-- Submits and runs up to a number of blocks, one at a time.  The signal tells
for every block, by the number of blocks that are left, after how many calls of
its source the execution is cancelled, if it is. -/
def runToEnd (signal : Nat → Option Nat) : Nat → QueryRun → Except EngineError Unit × QueryRun
  | 0, r => (.ok (), r)
  | n + 1, r =>
    match r.advance with
    | (.error e, r) => (.error (.dispatch e), r)
    | (.ok none, r) => (.ok (), r)
    | (.ok (some _), r) =>
      match { r with worker := { r.worker with cancelAt := signal (n + 1) } }.step with
      | (.error e, r) => (.error e, r)
      | (.ok _, r) => runToEnd signal n r

/-- The rows of a block, if it has run. -/
def output? (r : QueryRun) (seq : UInt32) : Except StorageError (Option (List Row)) :=
  match r.worker.output? seq with
  | none => .ok none
  | some o => (r.host.disk.readRows o.fragment.path).map some

/-- The rows of the last block. -/
def answer (r : QueryRun) : Except EngineError (List Row) :=
  let terminal := r.scheduler.plan.terminal
  match r.output? terminal.seq with
  | .error e => .error (.storage e)
  | .ok none => .error (.dispatch (.notDispatched terminal))
  | .ok (some rows) => .ok rows

end QueryRun

structure QueryResult where
  query : QueryId
  schema : Schema
  rows : List Row
deriving DecidableEq, Repr

namespace Engine

/-- The tables that a plan scans, each once and in order. -/
def scannedTables (p : MasterPlan) : List String :=
  ((p.blocks.flatMap fun b => b.plan.scannedTables).mergeSort
    fun a b => (compareText a b).isLE).eraseDups

/-- Opens indexes on the rows of a file for an execution. -/
def bindIndexes (data : Fragment) (table : String) :
    List IndexEntry → TaskContext → Host → Except Index.Error TaskContext × Host
  | [], ctx, host => (.ok ctx, host)
  | entry :: rest, ctx, host =>
    match host.openIndex entry.path with
    | (.error e, host) => (.error e, host)
    | (.ok reader, host) =>
      bindIndexes data table rest (ctx.addIndex ⟨table, entry.column, data, reader⟩) host

/-- Takes tables with their indexes into the context of an execution. -/
def bindTables (catalog : Catalog) :
    List String → TaskContext → Host → Except EngineError TaskContext × Host
  | [], ctx, host => (.ok ctx, host)
  | table :: rest, ctx, host =>
    match catalog.getTable table with
    | .error e => (.error (.catalog e), host)
    | .ok t =>
      let data : Fragment := ⟨table, t.path⟩
      match bindIndexes data table (catalog.indexesOf table) (ctx.addTable table data) host with
      | (.error e, host) => (.error (.index e), host)
      | (.ok ctx, host) => bindTables catalog rest ctx host

/-- Plans a query that was received. -/
def receive (e : Engine) (root : Plan) : Except EngineError MasterPlan × Engine :=
  let (query, host) := e.host.newQuery
  let host := host.report .queryReceived [("query_id", query.display)]
  match host.plan e.config (some e.catalog) query root with
  | (.ok p, host) => (.ok p, { e with host := host })
  | (.error fault, host) =>
    (.error (.planning fault), { e with
      host := (host.count .queriesRejected 1).report .queryRejected
        [("query_id", query.display), ("code", fault.code), ("reason", fault.message)] })

/-- Explains a query with the names of the catalog. -/
def explain (e : Engine) (root : Plan) : Explanation × Engine :=
  let (explanation, host) := e.host.explain e.config (some e.catalog) root
  (explanation, { e with host := host })

/-- Explains a query without looking up its names. -/
def explainAlone (e : Engine) (root : Plan) : Explanation × Engine :=
  let (explanation, host) := e.host.explain e.config none root
  (explanation, { e with host := host })

/-- Runs the blocks of a plan in a work directory. -/
def answerIn (catalog : Catalog) (p : MasterPlan) (workDir : String) (signal : Nat → Option Nat)
    (host : Host) : Except EngineError (List Row) × Host :=
  match bindTables catalog (scannedTables p) .empty host with
  | (.error e, host) => (.error e, host)
  | (.ok ctx, host) =>
    match QueryRun.runToEnd signal p.blocks.length (.start p ctx workDir host) with
    | (.error e, r) => (.error e, r.host)
    | (.ok _, r) => (r.answer, r.host)

/-- Runs a plan and removes what its blocks wrote. -/
def answer (e : Engine) (p : MasterPlan) (signal : Nat → Option Nat) (host : Host) :
    Except EngineError (List Row) × Host :=
  let workDir := e.config.queryDir p.query.display
  let (result, host) := answerIn e.catalog p workDir signal host
  (result, { host with disk := host.disk.removeTree workDir })

/-- Answers a query, unless the signal cancels it while one of its blocks runs. -/
def executeUntil (e : Engine) (root : Plan) (signal : Nat → Option Nat) :
    Except EngineError QueryResult × Engine :=
  match e.receive root with
  | (.error fault, e) => (.error fault, e)
  | (.ok p, e) =>
    let query := p.query.display
    let (scope, log) := Scope.enter "QUERY_EXEC" [("query_id", query)] e.host.log
    match e.answer p signal { e.host with log := log } with
    | (.error fault, host) =>
      let level := if fault.isFatal then LogLevel.fatal else LogLevel.error
      let (_, log) := scope.fail level fault.message host.log
      (.error fault, { e with host := { host with log := log } })
    | (.ok rows, host) =>
      let (_, log) := scope.complete [("rows", toString rows.length)] host.log
      let host := { host with log := log }.report .queryCompleted
        [("query_id", query), ("blocks", toString p.blocks.length)]
      let schema := ((p.block? p.terminal).map (·.plan.schema)).getD []
      (.ok ⟨p.query, schema, rows⟩, { e with host := host })

/-- Answers a query, unless the signal cancels it before one of its blocks. -/
def execute (e : Engine) (root : Plan) (signal : Nat → Bool) :
    Except EngineError QueryResult × Engine :=
  e.executeUntil root fun left => if signal left then some 0 else none

end Engine
end BlockQuery
