import RoadHierarchy.CommandLine.Arguments
import RoadHierarchy.CommandLine.LogFilter
import RoadHierarchy.Run.Preprocess

/-! # The program

The command line reads its settings from the defaults, then from a file, then from its options, and
runs the preprocessing.
-/

namespace RoadHierarchy.CommandLine

/-- How the program ended. -/
inductive Ending where
  /-- The command line was not well formed. -/
  | misused
  /-- Help or the version was asked for. -/
  | informed
  /-- A run came to its end; `validFilter` tells whether the log filter was well formed. -/
  | ran (validFilter : Bool) (result : Except RunFailure RunResult)

variable {m : Type → Type} [Monad m]

/-- The settings that an invocation asks for. -/
def settings (host : Host m) (v : Invocation) : Run.Action m Settings := do
  let base ← match v.config with
    | some path => Run.load host .settings path Settings.ofYaml?
    | none => pure {}
  return v.override base

/-- Runs an invocation. The settings are read before the network. -/
def perform (host : Host m) (input : String) (v : Invocation) : Run.Action m RunResult := do
  let s ← settings host v
  Run.preprocess host input s (v.outputDir.getD "runs") v.dot.isSome

/-- Does what the arguments ask for. -/
def execute (host : Host m) (arguments : List String) : m Ending := do
  match read? arguments with
  | none => return .misused
  | some .inform => return .informed
  | some (.run input v) =>
      return .ran (LogFilter.isValid (v.verbosity.getD "info")) (← (perform host input v).run)

end RoadHierarchy.CommandLine
