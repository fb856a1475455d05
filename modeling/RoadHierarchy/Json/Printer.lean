import RoadHierarchy.Json.Basic

/-! # Printing JSON

The compact layout has no blanks. The pretty layout gives every item and field a line of its own,
indented by two spaces a level; what has no parts stays on one line.
-/

namespace RoadHierarchy.Json

/-- A hexadecimal digit in lower case. -/
def hexChar (n : Nat) : Char := Nat.digitChar (n % 16)

/-- Escapes quotes, backslashes and control characters, and nothing else. -/
def escape (c : Char) : List Char :=
  match c with
  | '"' => ['\\', '"']
  | '\\' => ['\\', '\\']
  | '\x08' => ['\\', 'b']
  | '\x0c' => ['\\', 'f']
  | '\n' => ['\\', 'n']
  | '\r' => ['\\', 'r']
  | '\t' => ['\\', 't']
  | c => if c < ' ' then ['\\', 'u', '0', '0', hexChar (c.toNat / 16), hexChar c.toNat] else [c]

/-- A text in quotes. -/
def quote (text : String) : String :=
  "\"" ++ String.ofList (text.toList.flatMap escape) ++ "\""

/-- Punctuation around parts that are printed already. -/
structure Layout where
  /-- Puts the parts of an array or object between two brackets, at the given level. -/
  enclose : Nat → String → List String → String → String
  /-- Stands between a key and its value. -/
  colon : String

/-- No blanks at all. -/
def Layout.compact : Layout :=
  ⟨fun _ opening parts closing => opening ++ ",".intercalate parts ++ closing, ":"⟩

/-- A line break and the indentation of a level. -/
def newline (level : Nat) : String :=
  "\n" ++ String.ofList (List.replicate (2 * level) ' ')

/-- Parts on lines of their own. -/
def Layout.pretty : Layout where
  enclose level opening parts closing :=
    if parts.isEmpty then opening ++ closing
    else
      let inner := newline (level + 1)
      opening ++ inner ++ ("," ++ inner).intercalate parts ++ newline level ++ closing
  colon := ": "

mutual

/-- Prints a value at a level of nesting. -/
def print (layout : Layout) (level : Nat) : Json → String
  | .null => "null"
  | .bool value => if value then "true" else "false"
  | .number value => String.ofList value.toChars
  | .string text => quote (text.getD "")
  | .array items => layout.enclose level "[" (printItems layout (level + 1) items) "]"
  | .object fields => layout.enclose level "\x7b" (printFields layout (level + 1) fields) "\x7d"

/-- Prints the items of an array. -/
def printItems (layout : Layout) (level : Nat) : List Json → List String
  | [] => []
  | item :: rest => print layout level item :: printItems layout level rest

/-- Prints the fields of an object. -/
def printFields (layout : Layout) (level : Nat) : List (Option String × Json) → List String
  | [] => []
  | (key, value) :: rest =>
      (quote (key.getD "") ++ layout.colon ++ print layout level value) ::
        printFields layout level rest

end

/-- The text without blanks. -/
def compact (value : Json) : String := print .compact 0 value

/-- The text with a line for every part. -/
def pretty (value : Json) : String := print .pretty 0 value

end RoadHierarchy.Json
