import DiagramScope.Toml.Value
import DiagramScope.Wire

/-!
Reading typed data out of TOML values. A record is a table, or an array that gives the first fields
in their order.
-/

set_option autoImplicit false
set_option relaxedAutoImplicit false

namespace DiagramScope.Toml

namespace Value

def asText : Value → Except Fault String
  | text s => .ok s
  | _ => .error (.wrongType "a string")

def asNatural : Value → Except Fault Nat
  | integer (.ofNat n) =>
    if n < wordLimit then .ok n else .error (.wrongType "an unsigned number")
  | _ => .error (.wrongType "an unsigned number")

/-- A float, or an integer of at most 64 bits in its place. -/
def asDouble : Value → Except Fault Float
  | float x => .ok x
  | integer n =>
    if -0x8000000000000000 ≤ n ∧ n < (wordLimit : Int) then .ok (Float.ofInt n)
    else .error (.wrongType "a number")
  | _ => .error (.wrongType "a number")

def asList {α : Type} (item : Value → Except Fault α) : Value → Except Fault (List α)
  | array _ items => items.mapM item
  | _ => .error (.wrongType "an array")

mutual

def height : Value → Nat
  | array _ items => heightOfItems items + 1
  | table _ entries => heightOfEntries entries + 1
  | _ => 0

def heightOfItems : List Value → Nat
  | [] => 0
  | v :: rest => max v.height (heightOfItems rest)

def heightOfEntries : List (String × Value) → Nat
  | [] => 0
  | (_, v) :: rest => max v.height (heightOfEntries rest)

end

end Value

inductive Record where
  | named (entries : Entries)
  | positional (items : List Value)

namespace Record

def ofValue : Value → Except Fault Record
  | .table _ entries => .ok (named entries)
  | .array _ items => .ok (positional items)
  | _ => .error (.wrongType "a table")

def closed (names : List String) : Record → Except Fault Unit
  | named entries =>
    match entries.find? fun entry => !names.contains entry.1 with
    | some (name, _) => .error (.unknownField name)
    | none => .ok ()
  | positional _ => .ok ()

/-- The value of a field, given by its name or by its place. -/
def field? (place : Nat) (name : String) : Record → Option Value
  | named entries => find name entries
  | positional items => items[place]?

def required {α : Type} (r : Record) (place : Nat) (name : String)
    (read : Value → Except Fault α) : Except Fault α :=
  match r.field? place name with
  | some v => read v
  | none => .error (.missingField name)

def withDefault {α : Type} (r : Record) (place : Nat) (name : String) (default : α)
    (read : Value → Except Fault α) : Except Fault α :=
  match r.field? place name with
  | some v => read v
  | none => .ok default

/-- A field that may be missing, but only from a table. -/
def optional {α : Type} (r : Record) (place : Nat) (name : String)
    (read : Value → Except Fault α) : Except Fault (Option α) :=
  match r, r.field? place name with
  | _, some v => (read v).map some
  | named _, none => .ok none
  | positional _, none => .error (.missingField name)

end Record

def matrixOf {α : Type} (cell : Value → Except Fault α) (v : Value) :
    Except Fault (Matrix α) := do
  let r ← Record.ofValue v
  let rows ← r.required 0 "rows" Value.asNatural
  let cols ← r.required 1 "cols" Value.asNatural
  let cells ← r.required 2 "data" (Value.asList cell)
  match Matrix.ofCells? rows cols cells with
  | some m => pure m
  | none => throw (.badMatrix rows cols cells.length)

def wireWithin : (height : Nat) → Value → Except Fault Wire
  | 0, _ => .error (.wrongType "a table")
  | height + 1, v => do
    let r ← Record.ofValue v
    let type ← r.required 0 "type" Value.asText
    if type = "double" then
      r.required 1 "value" fun v => (matrixOf Value.asDouble v).map .doubles
    else if type = "string" then
      r.required 1 "value" fun v => (matrixOf Value.asText v).map .texts
    else if type = "list" then
      r.required 1 "value" fun v => (v.asList (wireWithin height)).map .list
    else throw (.unknownVariant type)

def wireOf (v : Value) : Except Fault Wire := wireWithin v.height v

end DiagramScope.Toml
