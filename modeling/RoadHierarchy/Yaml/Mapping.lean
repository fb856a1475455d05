import RoadHierarchy.Json.Lexer

/-! # Flat YAML mappings

A document that is one mapping from keys, plain or quoted, to plain scalars, in block or in flow
style, or that is empty. Anything else that YAML can say is refused, since no setting is written
that way.
-/

namespace RoadHierarchy.Yaml

/-- The entries of a mapping: keys and the text of plain scalars. -/
abbrev Entries := List (String × List Char)

/-- Space and tab. -/
def isBlank (c : Char) : Bool := c == ' ' || c == '\t'

/-- Line ends other than the line feed; carriage return and line feed together are one line end. -/
def isOtherBreak (c : Char) : Bool :=
  c == '\r' || c == '\u0085' || c == '\u2028' || c == '\u2029'

/-- Every line end becomes a line feed. -/
def unifyBreaks : List Char → List Char
  | [] => []
  | '\r' :: '\n' :: rest => '\n' :: unifyBreaks rest
  | c :: rest => (if isOtherBreak c then '\n' else c) :: unifyBreaks rest

/-- The characters that a YAML text may hold. -/
def isAllowed (c : Char) : Bool :=
  c == '\t' || c == '\n' || c == '\r' || c == '\u0085' ||
    (' ' ≤ c && c ≤ '~') || ('\u00a0' ≤ c && c ≤ '\ud7ff') ||
    ('\ue000' ≤ c && c ≤ '\ufffd' && c != '\ufeff') || 0x10000 ≤ c.toNat

/-- The lines of a text whose line ends are line feeds. -/
def linesOf : List Char → List (List Char)
  | [] => [[]]
  | '\n' :: rest => [] :: linesOf rest
  | c :: rest =>
      match linesOf rest with
      | [] => [[c]]
      | line :: lines => (c :: line) :: lines

/-- A text without the blanks at its end. -/
def trimEnd (text : List Char) : List Char :=
  (text.reverse.dropWhile fun c => isBlank c || c == '\n').reverse

/-- The text before a comment, which starts at a hash sign after a blank. -/
def beforeComment : List Char → List Char
  | [] => []
  | [c] => [c]
  | c :: '#' :: rest => if isBlank c then [] else c :: beforeComment ('#' :: rest)
  | c :: rest => c :: beforeComment rest

/-- Nothing but blanks, or a comment. -/
def isVoid (text : List Char) : Bool :=
  match text.dropWhile isBlank with
  | [] => true
  | c :: _ => c == '#'

/-- A line that says nothing: spaces, and perhaps a comment. A tab may not stand before it. -/
def isIdle (line : List Char) : Bool :=
  match line.dropWhile (· == ' ') with
  | [] => true
  | c :: _ => c == '#'

/-- The value of an escape that gives a code in hexadecimal, and what follows it. -/
def codeEscape? (length : Nat) (text : List Char) : Option (Char × List Char) := do
  if text.length < length then none
  else
    let code ← Json.hexValue? (text.take length)
    return (Char.ofNat code, text.drop length)

/-- A double-quoted key up to its closing quote. Escapes may give codes; no key holds a character
that the other escapes stand for. -/
def doubleQuotedWithin? : Nat → List Char → Option (List Char × List Char)
  | 0, _ => none
  | steps + 1, text =>
      match text with
      | [] => none
      | '"' :: rest => some ([], rest)
      | '\n' :: _ => none
      | '\\' :: mark :: rest => do
          let length ← match mark with
            | 'x' => some 2
            | 'u' => some 4
            | 'U' => some 8
            | _ => none
          let (c, after) ← codeEscape? length rest
          let (key, tail) ← doubleQuotedWithin? steps after
          return (c :: key, tail)
      | c :: rest => do
          let (key, tail) ← doubleQuotedWithin? steps rest
          return (c :: key, tail)

/-- A single-quoted key up to its closing quote. No key holds a quote. -/
def singleQuoted? (text : List Char) : Option (List Char × List Char) :=
  let (key, rest) := text.span fun c => c != '\x27' && c != '\n'
  match rest with
  | '\x27' :: tail => some (key, tail)
  | _ => none

/-- The quoted key that a text starts with, if it starts with a quote. -/
def quotedKey? (text : List Char) : Option (Option (List Char × List Char)) :=
  match text with
  | '"' :: rest => (doubleQuotedWithin? (rest.length + 1) rest).map some
  | '\x27' :: rest => (singleQuoted? rest).map some
  | _ => some none

/-- A plain key up to its colon, which must be followed by a blank or the end of the line. -/
def plainKey? : List Char → Option (List Char × List Char)
  | [] => none
  | [':'] => some ([], [])
  | ':' :: c :: rest =>
      if isBlank c || c == '\n' then some ([], c :: rest)
      else (plainKey? (c :: rest)).map fun (key, tail) => (':' :: key, tail)
  | c :: rest => (plainKey? rest).map fun (key, tail) => (c :: key, tail)

/-- The key of a block entry and the text of its value, which is empty when the value is not on the
line. -/
def blockEntry? (line : List Char) : Option (String × List Char) := do
  let (key, rest) ← match ← quotedKey? line with
    | some (key, after) =>
        match after.dropWhile isBlank with
        | [':'] => some (key, [])
        | ':' :: c :: rest => if isBlank c then some (key, c :: rest) else none
        | _ => none
    | none => (plainKey? line).map fun (key, rest) => (trimEnd key, rest)
  return (String.ofList key, trimEnd ((beforeComment rest).dropWhile isBlank))

/-- Whether a line ends the document: three points, alone on the line. -/
def isEndMark (line : List Char) : Bool :=
  match line with
  | '.' :: '.' :: '.' :: rest => isVoid rest && (rest.head?.all isBlank)
  | _ => false

/-- What follows the mark that starts a document, if the line has it. -/
def startMark? (line : List Char) : Option (List Char) :=
  match line with
  | '-' :: '-' :: '-' :: rest => if rest.head?.all isBlank then some rest else none
  | _ => none

/-- After the end of the document there are only comments and further end marks. -/
def isTrailer (lines : List (List Char)) : Bool :=
  match lines with
  | [] => true
  | line :: rest =>
      if isEndMark line then rest.all fun later => isIdle later || isEndMark later
      else isIdle line && isTrailer rest

/-- The indentation of a line and what follows it. -/
def splitIndent (line : List Char) : Nat × List Char :=
  let (spaces, rest) := line.span (· == ' ')
  (spaces.length, rest)

/-- A scalar of its own on a line, without the comment after it. -/
def looseScalar (text : List Char) : List Char :=
  trimEnd (beforeComment text)

/-- The entries of a block mapping with the given indentation. A key whose value is not on its line
waits for it on a later line that is indented further. -/
def blockEntries? (indent : Nat) (waiting : Option String) : List (List Char) → Option Entries
  | [] => if waiting.isSome then none else some []
  | line :: rest =>
      let (depth, text) := splitIndent line
      if isEndMark line then if waiting.isNone && isTrailer rest then some [] else none
      else if text.isEmpty || text.head? == some '#' then blockEntries? indent waiting rest
      else if (startMark? line).isSome || text.head?.any isBlank then none
      else
        match waiting with
        | some key =>
            if indent < depth then
              (blockEntries? indent none rest).map ((key, looseScalar text) :: ·)
            else none
        | none =>
            if depth = indent then
              match blockEntry? text with
              | none => none
              | some (key, []) => blockEntries? indent (some key) rest
              | some (key, value) => (blockEntries? indent none rest).map ((key, value) :: ·)
            else none

/-- Drops blanks, line ends and comments inside a flow mapping. -/
def skipFlowWithin : Nat → List Char → List Char
  | 0, text => text
  | steps + 1, text =>
      match text.dropWhile fun c => isBlank c || c == '\n' with
      | '#' :: rest => skipFlowWithin steps (rest.dropWhile (· != '\n'))
      | rest => rest

/-- Drops blanks, line ends and comments inside a flow mapping. -/
def skipFlow (text : List Char) : List Char :=
  skipFlowWithin (text.length + 1) text

/-- Characters that end a plain scalar inside a flow mapping. -/
def isFlowMark (c : Char) : Bool :=
  c == ',' || c == '\x7b' || c == '\x7d' || c == '[' || c == ']'

/-- A key inside a flow mapping and what follows its colon, which stands on the key's line. -/
def flowKey? (text : List Char) : Option (String × List Char) := do
  match ← quotedKey? text with
  | some (key, after) =>
      match after.dropWhile isBlank with
      | ':' :: rest => return (String.ofList key, rest)
      | _ => none
  | none =>
      let (key, rest) ← plainKey? text
      if key.any fun c => isFlowMark c || c == '\n' then none
      else return (String.ofList (trimEnd key), rest)

/-- A plain scalar inside a flow mapping with the blanks after it, and what follows. A flow mark or
a comment ends it. -/
def splitFlowScalar : List Char → List Char × List Char
  | [] => ([], [])
  | c :: rest =>
      if isFlowMark c then ([], c :: rest)
      else if (isBlank c || c == '\n') && rest.head? == some '#' then ([], rest)
      else
        let (value, after) := splitFlowScalar rest
        (c :: value, after)

/-- A plain scalar inside a flow mapping, and what follows it. -/
def flowScalar (text : List Char) : List Char × List Char :=
  let (value, after) := splitFlowScalar text
  (trimEnd value, after)

/-- The entries of a flow mapping after its opening brace, and what follows it. A comma may stand
after the last entry. -/
def flowEntriesWithin? : Nat → List Char → Option (Entries × List Char)
  | 0, _ => none
  | steps + 1, text =>
      match skipFlow text with
      | '\x7d' :: rest => some ([], rest)
      | start => do
          let (key, afterKey) ← flowKey? start
          let (value, afterValue) := flowScalar (skipFlow afterKey)
          match skipFlow afterValue with
          | ',' :: rest =>
              let (entries, tail) ← flowEntriesWithin? steps rest
              return ((key, value) :: entries, tail)
          | '\x7d' :: rest => return ([(key, value)], rest)
          | _ => none

/-- The entries of a document that is one flow mapping. -/
def flowDocument? (text : List Char) : Option Entries := do
  let (entries, rest) ← flowEntriesWithin? (text.length + 1) text
  match linesOf rest with
  | [] => return entries
  | line :: later => if isVoid line && isTrailer later then return entries else none

/-- The text of lines. -/
def joinLines (lines : List (List Char)) : List Char :=
  List.intercalate ['\n'] lines

/-- The entries of a document without a start mark, or of what follows the line of the mark. -/
def documentEntries? (lines : List (List Char)) : Option Entries :=
  match lines.dropWhile isIdle with
  | [] => some []
  | line :: rest =>
      let (depth, text) := splitIndent line
      match text with
      | '\x7b' :: opened => flowDocument? (joinLines (opened :: rest))
      | _ => if isEndMark line then none else blockEntries? depth none (line :: rest)

/-- The entries of a document with a start mark: what follows the mark on its line, and the lines
after that. Only a flow mapping may stand on the line of the mark, and nothing need follow it. -/
def markedEntries? (beside : List Char) (lines : List (List Char)) : Option Entries :=
  match beside.dropWhile isBlank with
  | '\x7b' :: opened => flowDocument? (joinLines (opened :: lines))
  | content =>
      if !isVoid content then none
      else if isTrailer lines then some []
      else documentEntries? lines

/-- The entries of a text that is one flat mapping, or empty. -/
def entries? (text : String) : Option Entries :=
  let chars := match text.toList with
    | '\ufeff' :: rest => rest
    | chars => chars
  if !chars.all isAllowed then none
  else
    let lines := linesOf (unifyBreaks chars)
    match lines.dropWhile isIdle with
    | [] => some []
    | line :: rest =>
        match startMark? line with
        | some beside => markedEntries? beside rest
        | none => documentEntries? lines

end RoadHierarchy.Yaml
