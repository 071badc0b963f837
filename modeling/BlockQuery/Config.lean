import BlockQuery.Host
import BlockQuery.Json.Parser
import BlockQuery.Json.Record

/-!
# Configuration

What the engine is told about its surroundings: the directory of its data, the
shape of new indexes, and the bounds of improving plans.  A configuration is a JSON
object; all but the directory have values for where they are missing.
-/

namespace BlockQuery

structure Config where
  dataDir : String
  /-- The number of entries in a block of a new index. -/
  loadFactor : UInt32
  maxRuleUses : UInt64
  /-- The most rows that the side of a join may have to be broadcast. -/
  broadcastThreshold : UInt64
  /-- Whether the entries of a new index are checked to be in order. -/
  verifyOrder : Bool
deriving DecidableEq, Repr

inductive ConfigFault where
  | noDataDir
  | noLoadFactor
  | noRuleUses
deriving DecidableEq, Repr

def ConfigFault.message : ConfigFault → String
  | noDataDir => "data_dir must not be empty"
  | noLoadFactor => "index_load_factor must be > 0"
  | noRuleUses => "optimizer_max_rewrites must be > 0"

inductive ConfigError where
  | unreadable (path : String) (cause : IoError)
  | malformed
  | invalid (fault : ConfigFault)
deriving DecidableEq, Repr

def ConfigError.message : ConfigError → String
  | unreadable path cause => "Failed to read config " ++ path ++ ": " ++ cause.message
  | malformed => "Invalid config JSON"
  | invalid fault => "Invalid config: " ++ fault.message

namespace Config

/-- The configuration of a directory, with all else as usual. -/
def ofDataDir (dataDir : String) : Config := ⟨dataDir, 100, 64, 10000, true⟩

def validate (c : Config) : Except ConfigFault Unit :=
  if c.dataDir.isEmpty then .error .noDataDir
  else if c.loadFactor = 0 then .error .noLoadFactor
  else if c.maxRuleUses = 0 then .error .noRuleUses
  else .ok ()

def toJson (c : Config) : Json :=
  .object [("data_dir", .text c.dataDir), ("index_load_factor", .whole c.loadFactor.toNat),
    ("optimizer_max_rewrites", .whole c.maxRuleUses.toNat),
    ("broadcast_threshold_rows", .whole c.broadcastThreshold.toNat),
    ("verify_index_order", .bool c.verifyOrder)]

def ofJson? (v : Json) : Option Config := do
  match ← v.fields? ["data_dir", "index_load_factor", "optimizer_max_rewrites",
      "broadcast_threshold_rows", "verify_index_order"] with
  | [some dataDir, loadFactor, maxRuleUses, threshold, verifyOrder] =>
    let usual := ofDataDir (← dataDir.toText?)
    return { usual with
      loadFactor := ← Json.toDefault? Json.toUInt32? usual.loadFactor loadFactor
      maxRuleUses := ← Json.toDefault? Json.toUInt64? usual.maxRuleUses maxRuleUses
      broadcastThreshold := ← Json.toDefault? Json.toUInt64? usual.broadcastThreshold threshold
      verifyOrder := ← Json.toDefault? Json.toBool? usual.verifyOrder verifyOrder }
  | _ => none

/-- The valid configuration that a file holds. -/
def read (disk : Disk) (path : String) : Except ConfigError Config := do
  let text ← (disk.readText path).mapError (.unreadable path)
  match (Json.parse? text).bind ofJson? with
  | none => throw .malformed
  | some config =>
    config.validate.mapError .invalid
    return config

/-- Reads a configuration and reports it. -/
def load (path : String) (host : Host) : Except ConfigError Config × Host :=
  match read host.disk path with
  | .error e => (.error e, host)
  | .ok config =>
    (.ok config, host.report .configLoaded [("path", path), ("data_dir", config.dataDir)])

def tablePath (c : Config) (table : String) : String := Path.join c.dataDir (table ++ ".rows")

def indexPath (c : Config) (index : String) : String := Path.join c.dataDir (index ++ ".idx")

/-- The directory of what a query writes while it runs. -/
def queryDir (c : Config) (query : String) : String :=
  Path.join (Path.join c.dataDir "queries") query

end Config
end BlockQuery
