import RoadHierarchy.Failure

/-! # Failures of a run -/

namespace RoadHierarchy

/-- What a text was to be read as. -/
inductive Document where
  | graph
  | settings

/-- Why a run ended without a result. -/
inductive RunFailure where
  | unopened (path : String)
  | malformed (document : Document) (path : String)
  /-- The directory of the run cannot be created; the reason is in the system's words. -/
  | directory (reason : String)
  | contraction (failure : Failure)

namespace RunFailure

/-- The text a failed run is reported with. -/
def message : RunFailure → String
  | unopened path => s!"opening {path}"
  | malformed .graph path => s!"parsing graph from {path}"
  | malformed .settings path => s!"parsing settings from {path}"
  | directory reason => reason
  | contraction failure => failure.message

end RunFailure

end RoadHierarchy
