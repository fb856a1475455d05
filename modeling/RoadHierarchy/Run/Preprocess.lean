import RoadHierarchy.Contraction.Json
import RoadHierarchy.Graph.Dot
import RoadHierarchy.HopPath.Combine
import RoadHierarchy.HopPath.Json
import RoadHierarchy.Json.Parser
import RoadHierarchy.Json.Printer
import RoadHierarchy.Run.Failure
import RoadHierarchy.Run.Host
import RoadHierarchy.Settings.Yaml

/-! # Preprocessing runs

A run reads an extracted network, builds its hierarchy, combines the expansions of the shortcuts,
and writes all of it into a directory of its own.
-/

namespace RoadHierarchy

/-- The version that a run is recorded under. -/
def version : String := "0.3.0"

/-- What a run has computed, and where it was written. -/
structure RunResult where
  directory : String
  hierarchy : Hierarchy
  hopIndex : HopIndex

/-- Reads a network from JSON. -/
def Extract.ofText? (text : String) : Option Extract :=
  (Json.parse? text).bind Extract.ofJson?

/-- The hop index of a hierarchy, with its paths combined. -/
def Hierarchy.hopIndex (h : Hierarchy) : Except Failure HopIndex := do
  let index ← HopIndex.ofGraph h.graph
  return index.combine.2

namespace Run

variable {m : Type → Type} [Monad m]

/-- A run that may fail. -/
abbrev Action (m : Type → Type) : Type → Type := ExceptT RunFailure m

/-- Takes an action of the host. -/
def act {α : Type} (action : m α) : Action m α := ExceptT.lift action

/-- A failure of the contraction ends the run. -/
def check {α : Type} (result : Except Failure α) : Action m α :=
  match result with
  | .ok value => return value
  | .error failure => throw (.contraction failure)

/-- Reads the document at a path. -/
def load {α : Type} (host : Host m) (document : Document) (path : String)
    (decode : String → Option α) : Action m α := do
  match ← act (host.read path) with
  | .error .missing => throw (.unopened path)
  | .error .unreadable => throw (.malformed document path)
  | .ok text =>
      match decode text with
      | some value => return value
      | none => throw (.malformed document path)

/-- Creates a directory. -/
def createDirectory (host : Host m) (path : String) : Action m Unit := do
  match ← act (host.createDirectory path) with
  | some reason => throw (.directory reason)
  | none => return ()

/-- A name below a directory. -/
def below (directory name : String) : String :=
  if directory.endsWith "/" then directory ++ name else directory ++ "/" ++ name

/-- The record of when and how a run was started. -/
def metadata (timestamp : String) (commandLine : List String) : Json :=
  .ofFields
    [("command_args", .ofList .ofString commandLine), ("timestamp", .ofString timestamp),
      ("version", .ofString version)]

/-- Writes a value in the pretty layout. -/
def writeJson (host : Host m) (directory name : String) (value : Json) : Action m Unit :=
  act (host.write (below directory name) value.pretty)

/-- Creates the directory of a run, which is named for the time, and records the run in it. -/
def createRunDirectory (host : Host m) (base : String) : Action m String := do
  createDirectory host base
  let timestamp ← act host.timestamp
  let name := timestamp.map fun c => if c = ':' || c = '.' then '-' else c
  let directory := below base name
  createDirectory host directory
  writeJson host directory "metadata.json" (metadata timestamp host.commandLine)
  return directory

/-- Builds a hierarchy and takes the time. -/
def build (host : Host m) (s : Settings) (g : Graph) : Action m (Hierarchy × Option Nat) := do
  let started ← act host.clock
  let (_, hierarchy) ← check (Hierarchy.build s g)
  let ended ← act host.clock
  return (hierarchy, return (← ended) - (← started))

/-- Preprocesses the network in a file and writes the results below `base`. -/
def preprocess (host : Host m) (input : String) (s : Settings) (base : String) (drawn : Bool) :
    Action m RunResult := do
  let extract ← load host .graph input Extract.ofText?
  let graph ← check (Graph.ofExtract extract)
  let directory ← createRunDirectory host base
  let (hierarchy, elapsed) ← build host s graph
  let hopIndex ← check hierarchy.hopIndex
  writeJson host directory "hierarchy.json" (hierarchy.toJson s elapsed)
  writeJson host directory "hop_indices.json" hopIndex.toJson
  if drawn then act (host.write (below directory "hierarchy.dot") hierarchy.graph.toDot)
  return ⟨directory, hierarchy, hopIndex⟩

end Run

end RoadHierarchy
