import DiagramScope.Toml.Scalar

/-!
Reading TOML text: keys and values, the lines of a document, and the table that they build. Arrays
and tables in braces may be nested eighty deep, which also bounds the recursion.
-/

set_option autoImplicit false
set_option relaxedAutoImplicit false

namespace DiagramScope.Toml

abbrev Reader (α : Type) : Type := StateT (List Char) (Except Fault) α

namespace Reader

def isSpace (c : Char) : Bool := c = ' ' || c = '\t'

def isVisible (c : Char) : Bool := c = '\t' || (0x20 ≤ c.toNat && c.toNat ≠ 0x7F)

def skipSpaces : Reader Unit := modify fun cs => cs.dropWhile isSpace

def accept (c : Char) : Reader Bool := do
  match ← get with
  | d :: rest => if d = c then set rest; pure true else pure false
  | [] => pure false

def expect (c : Char) : Reader Unit := do
  if ← accept c then pure () else throw .unexpectedText

def afterLineBreak? : List Char → Option (List Char)
  | '\n' :: rest => some rest
  | '\r' :: '\n' :: rest => some rest
  | _ => none

def afterComment (cs : List Char) : List Char :=
  match cs with
  | '#' :: rest => rest.dropWhile isVisible
  | _ => cs

/-- Skips spaces, comments and line breaks. The bound is the number of characters. -/
def skipLinesWithin : (bound : Nat) → List Char → List Char
  | 0, cs => cs
  | bound + 1, cs =>
    let cs := afterComment (cs.dropWhile isSpace)
    match afterLineBreak? cs with
    | some rest => skipLinesWithin bound rest
    | none => cs

def skipLines : Reader Unit := modify fun cs => skipLinesWithin (cs.length + 1) cs

def endLine : Reader Unit := do
  skipSpaces
  let cs := afterComment (← get)
  match afterLineBreak? cs, cs with
  | some rest, _ => set rest
  | none, [] => set ([] : List Char)
  | none, _ => throw .unexpectedText

def charOf? (n : Nat) : Option Char := if n.isValidChar then some (Char.ofNat n) else none

def hexEscape (digits : Nat) (cs : List Char) : Except Fault (Char × List Char) :=
  let code := cs.take digits
  if code.length = digits && code.all (Scalar.isDigitOf 16) then
    match charOf? (Scalar.natural 16 code) with
    | some c => .ok (c, cs.drop digits)
    | none => .error .badEscape
  else .error .badEscape

def escape : List Char → Except Fault (Char × List Char)
  | 'b' :: rest => .ok ('\x08', rest)
  | 't' :: rest => .ok ('\t', rest)
  | 'n' :: rest => .ok ('\n', rest)
  | 'f' :: rest => .ok ('\x0c', rest)
  | 'r' :: rest => .ok ('\r', rest)
  | 'e' :: rest => .ok ('\x1b', rest)
  | '"' :: rest => .ok ('"', rest)
  | '\\' :: rest => .ok ('\\', rest)
  | 'x' :: rest => hexEscape 2 rest
  | 'u' :: rest => hexEscape 4 rest
  | 'U' :: rest => hexEscape 8 rest
  | _ => .error .badEscape

def afterBlankLines : List Char → List Char
  | '\r' :: '\n' :: rest => afterBlankLines rest
  | c :: rest => if isSpace c || c = '\n' then afterBlankLines rest else c :: rest
  | [] => []

/-- The text behind a backslash at the end of a line and the blank lines after it, if one stands
there. -/
def afterLineJoin? (cs : List Char) : Option (List Char) :=
  (afterLineBreak? (cs.dropWhile isSpace)).map afterBlankLines

structure Style where
  quote : Char
  escapes : Bool
  manyLines : Bool

/-- The text behind the closing quotes of a string and the quotes in front of them that belong to
it, if the string ends here. Up to two quotes may stand in front of the closing three. -/
def afterClosing? (style : Style) (cs : List Char) : Option (Nat × List Char) :=
  let q := style.quote
  let run := (cs.takeWhile (· = q)).length
  if style.manyLines then
    if 3 ≤ run then
      let inner := min (run - 3) 2
      some (inner, cs.drop (inner + 3))
    else none
  else if 1 ≤ run then some (0, cs.drop 1)
  else none

/-- Reads the inside of a string and its closing quotes. Line breaks are kept as they are written.
The bound is the number of characters. -/
def stringBody (style : Style) : (bound : Nat) → List Char → Except Fault (List Char × List Char)
  | 0, _ => .error .unclosedText
  | bound + 1, cs =>
    match afterClosing? style cs with
    | some (inner, rest) => .ok (List.replicate inner style.quote, rest)
    | none =>
      match cs with
      | [] => .error .unclosedText
      | '\\' :: rest =>
        if style.escapes then
          match (if style.manyLines then afterLineJoin? rest else none) with
          | some rest => stringBody style bound rest
          | none => do
            let (c, rest) ← escape rest
            let (content, rest) ← stringBody style bound rest
            pure (c :: content, rest)
        else do
          let (content, rest) ← stringBody style bound rest
          pure ('\\' :: content, rest)
      | c :: rest =>
        if isVisible c || (style.manyLines && (afterLineBreak? cs).isSome) then do
          let (content, rest) ← stringBody style bound rest
          pure (c :: content, rest)
        else .error .unclosedText

def stringOf (style : Style) (cs : List Char) : Except Fault (String × List Char) := do
  let cs := if style.manyLines then (afterLineBreak? cs).getD cs else cs
  let (content, rest) ← stringBody style (cs.length + 1) cs
  pure (String.ofList content, rest)

def string (manyLines : Bool) (quote : Char) : Reader String := fun cs =>
  let escapes : Bool := quote = '"'
  if manyLines && cs.take 3 = [quote, quote, quote] then
    stringOf ⟨quote, escapes, true⟩ (cs.drop 3)
  else stringOf ⟨quote, escapes, false⟩ (cs.drop 1)

def isBareKeyPart (c : Char) : Bool := c.isAlpha || c.isDigit || c = '_' || c = '-'

def keyPart : Reader String := do
  let cs ← get
  match cs with
  | '"' :: _ => string false '"'
  | '\'' :: _ => string false '\''
  | _ =>
    let part := cs.takeWhile isBareKeyPart
    if part.isEmpty then throw .unexpectedText
    set (cs.dropWhile isBareKeyPart)
    pure (String.ofList part)

def keyParts : (bound : Nat) → Reader (List String)
  | 0 => pure []
  | bound + 1 => do
    skipSpaces
    if ← accept '.' then
      skipSpaces
      let part ← keyPart
      let more ← keyParts bound
      pure (part :: more)
    else pure []

def key : Reader (List String) := do
  let first ← keyPart
  let more ← keyParts (← get).length
  pure (first :: more)

def pair (value : Reader Value) : Reader (List String × Value) := do
  let k ← key
  skipSpaces
  expect '='
  skipSpaces
  let v ← value
  pure (k, v)

/-- Reads elements separated by commas up to a closing character. A comma may stand behind the last
element, and elements may stand on lines of their own. -/
def elements {α : Type} (element : Reader α) (close : Char) : (bound : Nat) → Reader (List α)
  | 0 => throw .unexpectedText
  | bound + 1 => do
    skipLines
    if ← accept close then pure []
    else
      let first ← element
      skipLines
      if ← accept ',' then
        let more ← elements element close bound
        pure (first :: more)
      else
        expect close
        pure [first]

def isWordPart (c : Char) : Bool :=
  c.isAlpha || c.isDigit || c = '_' || c = '+' || c = '-' || c = '.'

def word : Reader Value := do
  let cs ← get
  let w := cs.takeWhile isWordPart
  match Scalar.value? w with
  | some v => set (cs.dropWhile isWordPart); pure v
  | none => throw (.badValue (String.ofList w))

/-- The number of arrays and braces that may be open at once. -/
def maxNesting : Nat := 80

/-- Reads a value in which at most `depth` arrays and braces are open at once. -/
def value : (depth : Nat) → Reader Value
  | 0 => do
    match ← get with
    | '[' :: _ => throw .nestedTooDeeply
    | '\x7b' :: _ => throw .nestedTooDeeply
    | '"' :: _ => return .text (← string true '"')
    | '\'' :: _ => return .text (← string true '\'')
    | _ => word
  | depth + 1 => do
    let cs ← get
    match cs with
    | '[' :: rest =>
      set rest
      return .array false (← elements (value depth) ']' cs.length)
    | '\x7b' :: rest =>
      set rest
      let pairs ← elements (pair (value depth)) '\x7d' cs.length
      return .table .braces (← (Entries.insertPairs [] pairs : Except Fault Entries))
    | '"' :: _ => return .text (← string true '"')
    | '\'' :: _ => return .text (← string true '\'')
    | _ => word

def pairs : (bound : Nat) → Reader (List (List String × Value))
  | 0 => throw .unexpectedText
  | bound + 1 => do
    skipLines
    match ← get with
    | [] => pure []
    | '[' :: _ => pure []
    | _ =>
      let first ← pair (value maxNesting)
      endLine
      let more ← pairs bound
      pure (first :: more)

/-- Reads a header. The flag tells the header of an array of tables. -/
def header : Reader (Bool × List String) := do
  expect '['
  let ofTables ← accept '['
  skipSpaces
  let k ← key
  skipSpaces
  expect ']'
  if ofTables then expect ']'
  endLine
  pure (ofTables, k)

def sections : (bound : Nat) → Entries → Reader Entries
  | 0, _ => throw .unexpectedText
  | bound + 1, root => do
    match ← get with
    | [] => pure root
    | _ =>
      let (ofTables, k) ← header
      let ps ← pairs ((← get).length + 1)
      let fill := fun (entries : Entries) => entries.insertPairs ps
      let root ← ((if ofTables then Entries.fillElement fill k root
        else Entries.fillTable fill k root) : Except Fault Entries)
      sections bound root

end Reader

/-- Reads a document. A byte order mark may stand in front. -/
def parse (text : String) : Except Fault Entries := do
  let cs := match text.toList with
    | '\ufeff' :: rest => rest
    | cs => cs
  let (ps, rest) ← Reader.pairs (cs.length + 1) cs
  let root ← Entries.insertPairs [] ps
  let (root, _) ← Reader.sections (rest.length + 1) root rest
  pure root

end DiagramScope.Toml
