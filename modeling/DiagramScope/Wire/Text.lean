import DiagramScope.Decimal.Text
import DiagramScope.Wire

/-!
Wire values as TOML text: a table of type and value for every node of the tree, with the items of a
list as an array of tables.
-/

set_option autoImplicit false
set_option relaxedAutoImplicit false

namespace DiagramScope.Wire

/-- A float, which always shows a point or a word. -/
def floatText (x : Float) : String :=
  match Decimal.Binary64.ofFloat x with
  | .nan => "nan"
  | .infinite negative => if negative then "-inf" else "inf"
  | exact =>
    match exact.toInt? with
    | some _ => Decimal.plain x ++ ".0"
    | none => Decimal.plain x

/-- What the characters of a text demand of the way in which it is quoted. -/
structure Demands where
  lineFeed : Bool
  control : Bool
  backslash : Bool
  /-- The longest runs of double and of single quotes. -/
  doubleRun : Nat
  singleRun : Nat

def longestRun (q : Char) (cs : List Char) : Nat :=
  (cs.foldl (fun (best, current) c =>
    if c = q then (max best (current + 1), current + 1) else (best, 0)) (0, 0)).1

def isControl (c : Char) : Bool :=
  (c.toNat < 0x20 && c ≠ '\t' && c ≠ '\n') || c.toNat = 0x7F

def demandsOf (cs : List Char) : Demands where
  lineFeed := cs.contains '\n'
  control := cs.any isControl
  backslash := cs.contains '\\'
  doubleRun := longestRun '"' cs
  singleRun := longestRun '\'' cs

def escaped (c : Char) : List Char :=
  if c = '"' then ['\\', '"']
  else if c = '\\' then ['\\', '\\']
  else if c = '\n' then ['\\', 'n']
  else if c = '\r' then ['\\', 'r']
  else if c = '\x08' then ['\\', 'b']
  else if c = '\x0c' then ['\\', 'f']
  else if isControl c then
    let digits := Nat.toDigits 16 c.toNat
    ['\\', 'u'] ++ List.replicate (4 - digits.length) '0' ++ digits.map Char.toUpper
  else [c]

/-- Characters as they stand in a string with escapes over many lines. Of three double quotes in a
row the third is escaped; `run` counts those directly in front. -/
def escapedLines : (run : Nat) → List Char → List Char
  | _, [] => []
  | run, c :: rest =>
    if c = '"' then
      if run = 2 then escaped c ++ escapedLines 0 rest else c :: escapedLines (run + 1) rest
    else if c = '\n' then c :: escapedLines 0 rest
    else escaped c ++ escapedLines 0 rest

/-- The delimiters of a string around its characters. A string over many lines starts on a line of
its own if it has a line feed. -/
def delimited (d : Demands) (delimiter : List Char) (cs : List Char) : List Char :=
  let opening := if delimiter.length = 3 && d.lineFeed then delimiter ++ ['\n'] else delimiter
  opening ++ cs ++ delimiter

/-- A quoted text. The plainest form that needs no escapes is taken: between double quotes, between
single quotes, between three double quotes, between three single quotes. If there is none, the text
is escaped between double quotes, three of them if it has a line feed. -/
def quotedText (s : String) : String :=
  let cs := s.toList
  let d := demandsOf cs
  String.ofList <|
    if !d.control && !d.backslash && !d.lineFeed && d.doubleRun = 0 then delimited d ['"'] cs
    else if !d.control && !d.lineFeed && d.singleRun = 0 then delimited d ['\''] cs
    else if !d.control && !d.backslash && d.doubleRun ≤ 2 then delimited d ['"', '"', '"'] cs
    else if !d.control && d.singleRun ≤ 2 then delimited d ['\'', '\'', '\''] cs
    else if d.lineFeed then delimited d ['"', '"', '"'] (escapedLines 0 cs)
    else delimited d ['"'] (cs.flatMap escaped)

def matrixText {α : Type} (path : String) (cell : α → String) (m : Matrix α) : String :=
  "\n[" ++ path ++ "]\nrows = " ++ toString m.rows ++ "\ncols = " ++ toString m.cols
    ++ "\ndata = [" ++ String.intercalate ", " (m.cells.map cell) ++ "]\n"

mutual

def body (path : String) : Wire → String
  | doubles m => "type = \"double\"\n" ++ matrixText (path ++ ".value") floatText m
  | texts m => "type = \"string\"\n" ++ matrixText (path ++ ".value") quotedText m
  | list [] => "type = \"list\"\nvalue = []\n"
  | list items => "type = \"list\"\n" ++ bodies (path ++ ".value") items

def bodies (path : String) : List Wire → String
  | [] => ""
  | item :: rest => "\n[[" ++ path ++ "]]\n" ++ body path item ++ bodies path rest

end

def toToml (w : Wire) : String := "[exprs]\n" ++ body "exprs" w

end DiagramScope.Wire
