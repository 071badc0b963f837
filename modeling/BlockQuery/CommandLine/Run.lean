import BlockQuery.CommandLine.Arguments
import BlockQuery.Engine.Query
import BlockQuery.Index.Description
import BlockQuery.Json.Sorted
import BlockQuery.Plan.Document

/-!
# Commands

A command reads files and prints what it found out, as text or as a JSON object
on one line.  A plan that is rejected is explained and is an error as well.
-/

namespace BlockQuery.CommandLine

inductive CommandError where
  | config (e : ConfigError)
  | plan (e : PlanError)
  | index (e : Index.Error)
  | io (e : IoError)
  | rejected (code reason : String)
deriving DecidableEq, Repr

namespace CommandError

def code : CommandError → String
  | config _ => "TESSERA_CLI_CONFIG_ERROR"
  | plan _ => "TESSERA_CLI_PLAN_ERROR"
  | index _ => "TESSERA_CLI_INDEX_ERROR"
  | io _ => "TESSERA_CLI_IO_ERROR"
  | rejected .. => "TESSERA_CLI_REJECTED"

def message : CommandError → String
  | config e => e.message
  | plan e => e.message
  | index e => e.display
  | io e => e.message
  | rejected code reason => code ++ ": " ++ reason

def display (e : CommandError) : String := e.code ++ ": " ++ e.message

end CommandError

/-- How a command ended, what it printed, and the host afterwards. -/
structure Outcome where
  result : Except CommandError Unit
  printed : String
  host : Host

/-- The line that carries a document. -/
def response (v : Json) : String :=
  (Json.object [("data", v.sorted), ("status", .text "ok")]).compact ++ "\n"

/-- A text with a line break at its end. -/
def wholeLines (text : String) : String := if text.endsWith "\n" then text else text ++ "\n"

def render (json : Bool) (v : Json) (text : String) : String :=
  if json then response v else wholeLines text

def verdict : Explanation → Except CommandError Unit
  | .accepted .. => .ok ()
  | .rejected code reason => .error (.rejected code reason)

/-- The plan that a file holds. -/
def readPlan (disk : Disk) (path : String) : Except CommandError Plan := do
  let text ← (disk.readText path).mapError .io
  (Plan.decode text).mapError .plan

def explain (configPath planPath : String) (json : Bool) (host : Host) : Outcome :=
  match Config.load configPath host with
  | (.error e, host) => ⟨.error (.config e), "", host⟩
  | (.ok config, host) =>
    match readPlan host.disk planPath with
    | .error e => ⟨.error e, "", host⟩
    | .ok root =>
      let (explanation, host) := host.explain config none root
      ⟨verdict explanation, render json explanation.toJson explanation.display, host⟩

def indexInfo (path : String) (json : Bool) (host : Host) : Outcome :=
  match host.openIndex path with
  | (.error e, host) => ⟨.error (.index e), "", host⟩
  | (.ok reader, host) => ⟨.ok (), render json reader.toJson reader.describe, host⟩

def Command.run (host : Host) : Command → Outcome
  | .explain config plan json => CommandLine.explain config plan json host
  | .indexInfo index json => CommandLine.indexInfo index json host

/-- The files that a command reads. -/
def Command.files : Command → List String
  | .explain config plan _ => [config, plan]
  | .indexInfo index _ => [index]

end BlockQuery.CommandLine
