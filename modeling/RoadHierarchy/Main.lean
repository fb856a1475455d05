import RoadHierarchy.CommandLine.Program
import Std.Time.Format
import Std.Time.Zoned

/-! # Entry point -/

namespace RoadHierarchy.CommandLine

/-- Runs an action of the system and gives its words if it fails. -/
def reasonOf (action : IO Unit) : IO (Option String) := do
  try
    action
    return none
  catch problem => return some (toString problem)

/-- The text of a file of the system. -/
def readSystem (path : String) : IO (Except ReadFailure String) := do
  let opened ← (IO.FS.Handle.mk path .read).toBaseIO
  match opened with
  | .error _ => return .error .missing
  | .ok handle =>
      match ← (handle.readToEnd).toBaseIO with
      | .error _ => return .error .unreadable
      | .ok text => return .ok text

/-- The time of day in UTC. -/
def timestampNow : IO String := do
  let instant ← Std.Time.Timestamp.now
  let now := Std.Time.DateTime.ofTimestamp instant Std.Time.TimeZone.ZoneRules.UTC
  return now.format "uuuu-MM-dd'T'HH:mm:ss.SSSSSSSSSxxx"

/-- The machine the program runs on. -/
def system (arguments : List String) : Host IO where
  read := readSystem
  createDirectory path := reasonOf (IO.FS.createDirAll path)
  write path text := IO.FS.writeFile path text
  timestamp := timestampNow
  clock := some <$> IO.monoNanosNow
  commandLine := "road-hierarchy" :: arguments

/-- How the program is used. -/
def usage : String :=
  "Usage: road-hierarchy --input <FILE> [--config <FILE>] [--output-dir <DIRECTORY>] [--dot]\n" ++
  "  [--verbosity <FILTER>] [--search-space-hop-limit <N>] [--k-neighborhood <N>]\n" ++
  "  [--edge-quotient-factor <X>] [--hierarchy-depths-factor <X>]\n" ++
  "  [--original-edge-quotient-factor <X>] [--num-threads <N>] [--batch-size <N>]"

/-- Reports how the program ended and gives its exit code. -/
def report : Ending → IO UInt32
  | .misused => do
      IO.eprintln usage
      return 2
  | .informed => do
      IO.println s!"road-hierarchy {version}"
      IO.println usage
      return 0
  | .ran validFilter result => do
      if !validFilter then IO.eprintln "invalid verbosity filter, falling back to info"
      match result with
      | .ok _ => return 0
      | .error failure => do
          IO.eprintln s!"Error: {failure.message}"
          return 1

end RoadHierarchy.CommandLine

/-- Runs the program on the arguments of the command line. -/
def main (arguments : List String) : IO UInt32 := do
  let host := RoadHierarchy.CommandLine.system arguments
  RoadHierarchy.CommandLine.report (← RoadHierarchy.CommandLine.execute host arguments)
