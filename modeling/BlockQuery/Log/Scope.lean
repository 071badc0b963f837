import BlockQuery.Log

/-!
# Scopes

A scope is a piece of work whose begin and end are in the log.  It ends by
being completed or by failing; one that is left before that is reported.
-/

namespace BlockQuery

structure Scope where
  name : String
  fields : LogFields
  ended : Bool
deriving DecidableEq, Repr

namespace Scope

def enter (name : String) (fields : LogFields) (log : Log) : Scope × Log :=
  (⟨name, fields, false⟩, log.write .info (name ++ "_BEGIN") fields)

def complete (s : Scope) (extra : LogFields) (log : Log) : Scope × Log :=
  ({ s with ended := true },
    log.write .info (s.name ++ "_COMPLETE")
      (s.fields ++ extra ++ [("elapsed_ms", log.clock.elapsed)]))

def fail (s : Scope) (level : LogLevel) (reason : String) (log : Log) : Scope × Log :=
  ({ s with ended := true },
    log.write level (s.name ++ "_FAILED") (s.fields ++ [("reason", reason)]))

def leave (s : Scope) (log : Log) : Log :=
  if s.ended then log
  else log.write .warn (s.name ++ "_INCOMPLETE") [("reason", "scope dropped without completion")]

end Scope
end BlockQuery
