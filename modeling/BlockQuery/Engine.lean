import BlockQuery.Config
import BlockQuery.Engine.Error

/-!
# The engine

An engine keeps tables and indexes and answers queries on them.  Its state is
a configuration, a catalog and the host that it runs on.
-/

namespace BlockQuery

structure Engine where
  config : Config
  catalog : Catalog
  host : Host
deriving Repr

namespace Engine

/-- An engine on a host, with the functions that every catalog has. -/
def start (config : Config) (host : Host) : Engine := ⟨config, .builtin, host⟩

end Engine
end BlockQuery
