/-! # Hosts

What a run needs from the machine it runs on: texts of files, directories, a clock and a calendar.
A host can act on the real machine or on a record of files.
-/

namespace RoadHierarchy

/-- Why a file has no text. -/
inductive ReadFailure where
  /-- The file cannot be opened. -/
  | missing
  /-- The file was opened, but what it holds cannot be read as text. -/
  | unreadable

/-- The actions a run may take. -/
structure Host (m : Type → Type) where
  /-- The text of the file at a path. -/
  read : String → m (Except ReadFailure String)
  /-- Creates a directory and those above it; gives the system's words when it cannot. -/
  createDirectory : String → m (Option String)
  /-- Writes a text into the file at a path. -/
  write : String → String → m Unit
  /-- The time of day as RFC 3339 has it. -/
  timestamp : m String
  /-- The reading of a steady clock in nanoseconds, if there is one. -/
  clock : m (Option Nat)
  /-- The words of the command line, the program's name first. -/
  commandLine : List String

end RoadHierarchy
