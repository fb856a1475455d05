import RoadHierarchy.Json.Basic

/-! # JSON tokens

A text is cut into punctuation and values without parts. Blanks between tokens are dropped.
-/

namespace RoadHierarchy.Json

/-- Punctuation, or a value without parts. -/
inductive Token where
  | openArray
  | closeArray
  | openObject
  | closeObject
  | comma
  | colon
  | atom (value : Json)

/-- Space, tab, line feed and carriage return. -/
def isBlank (c : Char) : Bool :=
  c == ' ' || c == '\t' || c == '\n' || c == '\r'

/-- A part of a string: a character, or a 16-bit unit given by an escape. -/
inductive TextPart where
  | char (c : Char)
  | unit (u : Nat)

/-- The value of a hexadecimal digit. -/
def hexDigit? (c : Char) : Option Nat :=
  if c.isDigit then some (c.toNat - '0'.toNat)
  else if 'a' ≤ c ∧ c ≤ 'f' then some (c.toNat - 'a'.toNat + 10)
  else if 'A' ≤ c ∧ c ≤ 'F' then some (c.toNat - 'A'.toNat + 10)
  else none

/-- The value of hexadecimal digits. -/
def hexValue? (digits : List Char) : Option Nat :=
  digits.foldlM (fun value digit => (hexDigit? digit).map (value * 16 + ·)) 0

/-- The character of a one-letter escape. -/
def simpleEscape? : Char → Option Char
  | '"' => some '"'
  | '\\' => some '\\'
  | '/' => some '/'
  | 'b' => some '\x08'
  | 'f' => some '\x0c'
  | 'n' => some '\n'
  | 'r' => some '\r'
  | 't' => some '\t'
  | _ => none

/-- The parts of a string up to its closing quote, and what follows. Control characters must be
escaped. -/
def textParts? : List Char → Option (List TextPart × List Char)
  | [] => none
  | '"' :: rest => some ([], rest)
  | '\\' :: 'u' :: a :: b :: c :: d :: rest => do
      let u ← hexValue? [a, b, c, d]
      let (parts, tail) ← textParts? rest
      return (.unit u :: parts, tail)
  | '\\' :: letter :: rest => do
      let c ← simpleEscape? letter
      let (parts, tail) ← textParts? rest
      return (.char c :: parts, tail)
  | c :: rest => do
      if c < ' ' || c == '\\' then none
      else
        let (parts, tail) ← textParts? rest
        return (.char c :: parts, tail)

/-- The characters of a string. A unit of a surrogate pair stands for nothing on its own. -/
def joinParts? : List TextPart → Option (List Char)
  | [] => some []
  | .char c :: rest => (joinParts? rest).map (c :: ·)
  | .unit high :: .unit low :: rest =>
      if 0xD800 ≤ high ∧ high < 0xDC00 then
        if 0xDC00 ≤ low ∧ low < 0xE000 then
          let code := 0x10000 + (high - 0xD800) * 0x400 + (low - 0xDC00)
          (joinParts? rest).map (Char.ofNat code :: ·)
        else none
      else if 0xDC00 ≤ high ∧ high < 0xE000 then none
      else (joinParts? (.unit low :: rest)).map (Char.ofNat high :: ·)
  | .unit u :: rest =>
      if 0xD800 ≤ u ∧ u < 0xE000 then none else (joinParts? rest).map (Char.ofNat u :: ·)

/-- One zero, or digits that start with another digit. -/
def wholeDigits? (text : List Char) : Option (List Char × List Char) :=
  match text with
  | '0' :: rest => some (['0'], rest)
  | _ =>
      let (digits, rest) := Decimal.spanDigits text
      if digits.isEmpty then none else some (digits, rest)

/-- The digits after a point, if one follows. -/
def fractionDigits? (text : List Char) : Option (List Char × List Char) :=
  match text with
  | '.' :: rest =>
      let (digits, tail) := Decimal.spanDigits rest
      if digits.isEmpty then none else some (digits, tail)
  | _ => some ([], text)

/-- The sign and digits of an exponent, if one follows. -/
def exponentDigits? (text : List Char) : Option (Option (Bool × List Char) × List Char) :=
  match text with
  | [] => some (none, [])
  | mark :: rest =>
      if mark == 'e' || mark == 'E' then
        let (negative, unsigned) := Decimal.splitSign rest
        let (digits, tail) := Decimal.spanDigits unsigned
        if digits.isEmpty then none else some (some (negative, digits), tail)
      else some (none, text)

/-- A number and what follows it. -/
def number? (text : List Char) : Option (Number × List Char) := do
  let (negative, unsigned) := match text with
    | '-' :: rest => (true, rest)
    | _ => (false, text)
  let (whole, afterWhole) ← wholeDigits? unsigned
  let (fraction, afterFraction) ← fractionDigits? afterWhole
  let (exponent, rest) ← exponentDigits? afterFraction
  return (⟨negative, whole, fraction, exponent⟩, rest)

/-- The token that a text starts with, and what follows it. -/
def token? (text : List Char) : Option (Token × List Char) :=
  match text with
  | '[' :: rest => some (.openArray, rest)
  | ']' :: rest => some (.closeArray, rest)
  | '\x7b' :: rest => some (.openObject, rest)
  | '\x7d' :: rest => some (.closeObject, rest)
  | ',' :: rest => some (.comma, rest)
  | ':' :: rest => some (.colon, rest)
  | 'n' :: 'u' :: 'l' :: 'l' :: rest => some (.atom .null, rest)
  | 't' :: 'r' :: 'u' :: 'e' :: rest => some (.atom (.bool true), rest)
  | 'f' :: 'a' :: 'l' :: 's' :: 'e' :: rest => some (.atom (.bool false), rest)
  | '"' :: rest =>
      (textParts? rest).map fun (parts, tail) =>
        (.atom (.string ((joinParts? parts).map String.ofList)), tail)
  | _ => (number? text).map fun (value, rest) => (.atom (.number value), rest)

/-- At most as many tokens as there are steps. -/
def tokensWithin? : Nat → List Char → Option (List Token)
  | 0, _ => none
  | steps + 1, text =>
      match text.dropWhile isBlank with
      | [] => some []
      | start => do
          let (token, rest) ← token? start
          return token :: (← tokensWithin? steps rest)

/-- The tokens of a text. Every token takes a character, so there are no more tokens than
characters. -/
def tokens? (text : String) : Option (List Token) :=
  tokensWithin? (text.length + 1) text.toList

end RoadHierarchy.Json
