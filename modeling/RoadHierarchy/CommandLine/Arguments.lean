import RoadHierarchy.Decimal.Reading
import RoadHierarchy.Settings.Basic

/-! # Command line arguments

Options are written `--name value`, `--name=value`, `-n value` or `-nvalue`. Each may be given once.
A value that starts with a hyphen must be joined to its option, and nothing may stand on its own.
-/

namespace RoadHierarchy.CommandLine

/-- The options. -/
inductive Flag where
  | input
  | config
  | outputDir
  | dot
  | verbosity
  | hopLimit
  | neighborhood
  | edgeFactor
  | depthFactor
  | inputEdgeFactor
  | threads
  | batchSize
  | help
  | version
  deriving DecidableEq

namespace Flag

/-- The long names. -/
def ofName? : String → Option Flag
  | "input" => some input
  | "config" => some config
  | "output-dir" => some outputDir
  | "dot" => some dot
  | "verbosity" => some verbosity
  | "search-space-hop-limit" => some hopLimit
  | "k-neighborhood" => some neighborhood
  | "edge-quotient-factor" => some edgeFactor
  | "hierarchy-depths-factor" => some depthFactor
  | "original-edge-quotient-factor" => some inputEdgeFactor
  | "num-threads" => some threads
  | "batch-size" => some batchSize
  | "help" => some help
  | "version" => some version
  | _ => none

/-- The letters. -/
def ofLetter? : Char → Option Flag
  | 'i' => some input
  | 'c' => some config
  | 'o' => some outputDir
  | 'v' => some verbosity
  | 'k' => some neighborhood
  | 'j' => some threads
  | 'h' => some help
  | 'V' => some version
  | _ => none

/-- Options that are given without a value. -/
def isSwitch (flag : Flag) : Bool :=
  flag == dot || flag == help || flag == version

/-- Options that end the reading of the command line. -/
def isInformative (flag : Flag) : Bool :=
  flag == help || flag == version

end Flag

/-- What a command line asks for. -/
structure Invocation where
  input : Option String := none
  config : Option String := none
  outputDir : Option String := none
  dot : Option Unit := none
  verbosity : Option String := none
  hopLimit : Option Nat := none
  neighborhood : Option Nat := none
  edgeFactor : Option Float := none
  depthFactor : Option Float := none
  inputEdgeFactor : Option Float := none
  threads : Option Nat := none
  batchSize : Option Nat := none

/-- A path is not empty. -/
def path? (text : String) : Option String :=
  if text.isEmpty then none else some text

/-- A natural number of 64 bits, after an optional plus. -/
def word? (text : String) : Option Nat :=
  let digits := match text.toList with
    | '+' :: rest => rest
    | chars => chars
  let value := Decimal.natOfDigits digits
  if digits.isEmpty || !digits.all Char.isDigit || 0x10000000000000000 ≤ value then none else some value

/-- A whole number with an optional sign that is a natural number of 32 bits. -/
def count? (text : String) : Option Nat :=
  (Decimal.readExponent? text.toList).bind fun value =>
    if 0 ≤ value ∧ value < 0x100000000 then some value.toNat else none

/-- A decimal, infinity or no number. -/
def factor? (text : String) : Option Float :=
  Decimal.readAny? text.toList

/-- Fills a place that must be free. -/
def once {α : Type} (place value : Option α) : Option (Option α) :=
  if place.isSome then none else value.map some

namespace Invocation

/-- Sets the option of a flag; fails for a value it cannot have and for a flag that is repeated. -/
def set (v : Invocation) (flag : Flag) (text : String) : Option Invocation :=
  match flag with
  | .input => (once v.input (path? text)).map fun input => { v with input }
  | .config => (once v.config (path? text)).map fun config => { v with config }
  | .outputDir => (once v.outputDir (path? text)).map fun outputDir => { v with outputDir }
  | .dot => (once v.dot (some ())).map fun dot => { v with dot }
  | .verbosity => (once v.verbosity (some text)).map fun verbosity => { v with verbosity }
  | .hopLimit => (once v.hopLimit (count? text)).map fun hopLimit => { v with hopLimit }
  | .neighborhood =>
      (once v.neighborhood (count? text)).map fun neighborhood => { v with neighborhood }
  | .edgeFactor => (once v.edgeFactor (factor? text)).map fun edgeFactor => { v with edgeFactor }
  | .depthFactor =>
      (once v.depthFactor (factor? text)).map fun depthFactor => { v with depthFactor }
  | .inputEdgeFactor =>
      (once v.inputEdgeFactor (factor? text)).map fun inputEdgeFactor => { v with inputEdgeFactor }
  | .threads => (once v.threads (word? text)).map fun threads => { v with threads }
  | .batchSize => (once v.batchSize (word? text)).map fun batchSize => { v with batchSize }
  | .help => some v
  | .version => some v

/-- The settings with what the command line sets in place of what a file or the defaults say. -/
def override (v : Invocation) (s : Settings) : Settings where
  searchSpaceHopLimit := v.hopLimit.getD s.searchSpaceHopLimit
  kNeighborhood := v.neighborhood.getD s.kNeighborhood
  edgeQuotientFactor := v.edgeFactor.getD s.edgeQuotientFactor
  hierarchyDepthsFactor := v.depthFactor.getD s.hierarchyDepthsFactor
  inputEdgeQuotientFactor := v.inputEdgeFactor.getD s.inputEdgeQuotientFactor
  numThreads := v.threads.getD s.numThreads
  batchSize := v.batchSize.getD s.batchSize

end Invocation

/-- What one argument says. -/
inductive Argument where
  /-- A flag, with the value that is joined to it. -/
  | given (flag : Flag) (joined : Option String)
  /-- Two hyphens: no flag follows. -/
  | endOfFlags
  | unknown

/-- A value that is joined to a letter may have an equals sign before it. -/
def joinedValue (text : List Char) : Option String :=
  match text with
  | [] => none
  | '=' :: rest => some (String.ofList rest)
  | _ => some (String.ofList text)

/-- An argument with two hyphens before a name. -/
def readLong (text : List Char) : Argument :=
  let (name, tail) := text.span (· != '=')
  match Flag.ofName? (String.ofList name), tail with
  | none, _ => .unknown
  | some flag, [] => .given flag none
  | some flag, _ :: value =>
      if flag.isSwitch then .unknown else .given flag (some (String.ofList value))

/-- Reads one argument. A letter for help or the version counts whatever follows it. -/
def Argument.read (text : String) : Argument :=
  match text.toList with
  | ['-', '-'] => .endOfFlags
  | '-' :: '-' :: name => readLong name
  | '-' :: letter :: rest =>
      match Flag.ofLetter? letter with
      | none => .unknown
      | some flag => .given flag (if flag.isSwitch then none else joinedValue rest)
  | _ => .unknown

/-- Whether an argument can be the value of the flag before it. A single hyphen can. -/
def canBeValue (text : String) : Bool :=
  match text.toList with
  | '-' :: _ :: _ => false
  | _ => true

/-- What is to be done. -/
inductive Request where
  /-- Help or the version is asked for. -/
  | inform
  | run (input : String) (invocation : Invocation)

/-- A command line without an input asks for nothing that can be done. -/
def Invocation.toRequest? (v : Invocation) : Option Request :=
  v.input.map fun input => .run input v

/-- Reads arguments from left to right. -/
def readWithin? (v : Invocation) : List String → Option Request
  | [] => v.toRequest?
  | text :: rest =>
      match Argument.read text with
      | .unknown => none
      | .endOfFlags => if rest.isEmpty then v.toRequest? else none
      | .given flag joined =>
          if flag.isInformative then some .inform
          else
            match flag.isSwitch, joined with
            | true, _ => do readWithin? (← v.set flag "") rest
            | false, some value => do readWithin? (← v.set flag value) rest
            | false, none =>
                match rest with
                | [] => none
                | value :: later => do
                    if canBeValue value then readWithin? (← v.set flag value) later else none

/-- The request of a command line; none if it is not well formed. -/
def read? (arguments : List String) : Option Request :=
  readWithin? {} arguments

end RoadHierarchy.CommandLine
