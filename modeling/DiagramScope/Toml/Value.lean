/-!
Values of a TOML document. A table remembers how it was written, and an array whether it was written
as an array of tables, since both decide what later lines of the document may add.
-/

set_option autoImplicit false
set_option relaxedAutoImplicit false

namespace DiagramScope.Toml

/-- How a table came to be. -/
inductive TableOrigin where
  /-- Written between braces, and complete. -/
  | braces
  /-- Named on the way by the header of a table inside it. -/
  | implied
  /-- Named by a header of its own. -/
  | header
  /-- Named on the way by a dotted key. -/
  | dotted
  deriving DecidableEq, Repr

inductive Value where
  | text (content : String)
  | integer (value : Int)
  | float (value : Float)
  | boolean (value : Bool)
  | array (ofTables : Bool) (items : List Value)
  | table (origin : TableOrigin) (entries : List (String × Value))

abbrev Entries := List (String × Value)

inductive Fault where
  | unexpectedText
  | unclosedText
  | badEscape
  | badValue (text : String)
  | nestedTooDeeply
  | duplicateKey (key : String)
  | wrongType (expected : String)
  | missingField (name : String)
  | unknownField (name : String)
  | unknownVariant (name : String)
  | badMatrix (rows cols cells : Nat)
  deriving DecidableEq, Repr

def Fault.message : Fault → String
  | unexpectedText => "unexpected text"
  | unclosedText => "a string is not closed"
  | badEscape => "a string has an invalid escape"
  | badValue text => "invalid value `" ++ text ++ "`"
  | nestedTooDeeply => "arrays and tables are nested too deeply"
  | duplicateKey key => "duplicate key `" ++ key ++ "`"
  | wrongType expected => "expected " ++ expected
  | missingField name => "missing field `" ++ name ++ "`"
  | unknownField name => "unknown field `" ++ name ++ "`"
  | unknownVariant name => "unknown variant `" ++ name ++ "`"
  | badMatrix rows cols cells =>
    "a " ++ toString rows ++ "x" ++ toString cols ++ " matrix cannot hold " ++ toString cells
      ++ " cells"

def find (key : String) : Entries → Option Value
  | [] => none
  | (k, v) :: rest => if k = key then some v else find key rest

def put (key : String) (value : Value) : Entries → Entries
  | [] => [(key, value)]
  | (k, v) :: rest => if k = key then (k, value) :: rest else (k, v) :: put key value rest

namespace Entries

/-- Adds a value under a dotted key, whose last part must be new. The key goes through tables that
have no header of their own, and through arrays of tables at their last. That last table has a
header, so it gets no value directly. -/
def insertPair (value : Value) : (key : List String) → Entries → Except Fault Entries
  | [], _ => .error .unexpectedText
  | [k], entries =>
    match find k entries with
    | some _ => .error (.duplicateKey k)
    | none => .ok (put k value entries)
  | k :: rest, entries =>
    let getsValue : Bool := rest.length = 1
    match find k entries, getsValue with
    | none, _ => do pure (put k (.table .dotted (← insertPair value rest [])) entries)
    | some (.table .dotted inner), _ => do
      pure (put k (.table .dotted (← insertPair value rest inner)) entries)
    | some (.table .implied inner), _ => do
      pure (put k (.table .implied (← insertPair value rest inner)) entries)
    | some (.array true items), false =>
      match items.reverse with
      | .table origin inner :: before => do
        let last := Value.table origin (← insertPair value rest inner)
        pure (put k (.array true (before.reverse ++ [last])) entries)
      | _ => .error (.duplicateKey k)
    | some _, _ => .error (.duplicateKey k)

/-- Goes through a table on the way of a header. An array of tables is entered at its last. -/
def within (k : String) (entries : Entries) (go : Entries → Except Fault Entries) :
    Except Fault Entries :=
  match find k entries with
  | none => do pure (put k (.table .implied (← go [])) entries)
  | some (.table .braces _) => .error (.duplicateKey k)
  | some (.table origin inner) => do pure (put k (.table origin (← go inner)) entries)
  | some (.array true items) =>
    match items.reverse with
    | .table origin inner :: before => do
      pure (put k (.array true (before.reverse ++ [.table origin (← go inner)])) entries)
    | _ => .error (.duplicateKey k)
  | some _ => .error (.duplicateKey k)

/-- Fills the table that a header names, which no header and no dotted key named before. -/
def fillTable (fill : Entries → Except Fault Entries) :
    (key : List String) → Entries → Except Fault Entries
  | [], _ => .error .unexpectedText
  | [k], entries =>
    match find k entries with
    | none => do pure (put k (.table .header (← fill [])) entries)
    | some (.table .implied inner) => do pure (put k (.table .header (← fill inner)) entries)
    | some _ => .error (.duplicateKey k)
  | k :: rest, entries => within k entries (fillTable fill rest)

/-- Fills a new table at the end of the array of tables that a header names. -/
def fillElement (fill : Entries → Except Fault Entries) :
    (key : List String) → Entries → Except Fault Entries
  | [], _ => .error .unexpectedText
  | [k], entries =>
    match find k entries with
    | none => do pure (put k (.array true [.table .header (← fill [])]) entries)
    | some (.array true items) => do
      pure (put k (.array true (items ++ [.table .header (← fill [])])) entries)
    | some _ => .error (.duplicateKey k)
  | k :: rest, entries => within k entries (fillElement fill rest)

def insertPairs (entries : Entries) (pairs : List (List String × Value)) : Except Fault Entries :=
  pairs.foldlM (fun acc pair => acc.insertPair pair.2 pair.1) entries

end Entries

end DiagramScope.Toml
