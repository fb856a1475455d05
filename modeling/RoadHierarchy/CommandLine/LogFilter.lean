/-! # Log filters

A log filter is a list of directives with commas between them. A directive is a level, or a target
and a span in any order with a level after an equals sign. Whether a filter is well formed decides
whether it is used or replaced by the default.
-/

namespace RoadHierarchy.LogFilter

/-- A log level by name, in either case of letters, or by number. -/
def isLevel (text : List Char) : Bool :=
  let name := String.ofList (text.map Char.toLower)
  ["trace", "debug", "info", "warn", "error", "off", "0", "1", "2", "3", "4", "5"].contains name

/-- Blocks beyond ASCII that hold signs and no letters, by first and last code. -/
def signBlocks : List (Nat × Nat) :=
  [(0x80, 0xA9), (0xAB, 0xB4), (0xB6, 0xB9), (0xBB, 0xBF), (0xD7, 0xD7), (0xF7, 0xF7),
    (0x2000, 0x203E), (0x2041, 0x2053), (0x2055, 0x2070), (0x20A0, 0x20CF), (0x2190, 0x2BFF),
    (0x3000, 0x3004), (0xE000, 0xF8FF), (0x1F000, 0x1FAFF), (0xE0000, 0xE00FF), (0xF0000, 0x10FFFF)]

/-- A letter, a digit, an underscore, a colon or a hyphen. -/
def isTargetChar (c : Char) : Bool :=
  c.isAlphanum || c == '_' || c == ':' || c == '-' ||
    (0x80 ≤ c.toNat && !signBlocks.any fun (first, last) => first ≤ c.toNat && c.toNat ≤ last)

/-- Drops a target or a bracketed span from the start of a text. -/
def dropPart? (text : List Char) : Option (List Char) :=
  match text with
  | '[' :: inside =>
      match inside.dropWhile (· != ']') with
      | _ :: rest => some rest
      | [] => none
  | _ =>
      let rest := text.dropWhile isTargetChar
      if rest.length < text.length then some rest else none

/-- Nothing, or a level after an equals sign, which may be left out. -/
def isLevelSuffix (text : List Char) : Bool :=
  match text with
  | [] => true
  | '=' :: level => level.isEmpty || isLevel level
  | _ => false

/-- One or two parts and a level. -/
def isTargeted (text : List Char) : Bool :=
  match dropPart? text with
  | none => false
  | some rest => isLevelSuffix rest || (dropPart? rest).any isLevelSuffix

/-- A directive is well formed. -/
def isDirective (text : List Char) : Bool :=
  isLevel text || isTargeted text

/-- Every directive of a filter is well formed; empty ones do not count. -/
def isValid (filter : String) : Bool :=
  ((filter.toList.splitOnP (· == ',')).filter (!·.isEmpty)).all isDirective

end RoadHierarchy.LogFilter
