import DiagramScope.Matrix
import DiagramScope.Node
import DiagramScope.Text.Similarity

/-!
The command line: a document, a command with its options, and options that may stand anywhere.
Words are read from left to right. An option without a value takes the next word, unless that word
starts with a dash; behind two dashes no word is an option or a command.
-/

set_option autoImplicit false
set_option relaxedAutoImplicit false

namespace DiagramScope.Command

/-- The node that a command is about: a block, or else a diagram. -/
structure NodeChoice where
  block : Option Nat
  diagram : Nat
  deriving DecidableEq, Repr

def NodeChoice.node (c : NodeChoice) : Node :=
  match c.block with
  | some id => .block id
  | none => .diagram c.diagram

inductive Action where
  | resolve (choice : NodeChoice)
  | evaluate (choice : NodeChoice)
  | check
  | mask (choice : NodeChoice) (rows : Option Nat) (title : Option String)
  | wire (choice : NodeChoice)
  deriving DecidableEq, Repr

structure Invocation where
  document : String
  action : Action
  /-- The path of the settings, if one is given. -/
  settings : Option String
  deriving DecidableEq, Repr

inductive UsageFault where
  | helpRequested
  | versionRequested
  | nothingGiven
  | missingCommand
  | missingDocument
  | unknownCommand
  | unknownArgument
  | missingValue
  | surplusValue
  | invalidNumber
  | conflict
  deriving DecidableEq, Repr

inductive Verb where
  | resolve
  | evaluate
  | check
  | mask
  | wire
  | help
  deriving DecidableEq, Repr

def Verb.word : Verb → String
  | resolve => "resolve"
  | evaluate => "evaluate"
  | check => "check"
  | mask => "mask"
  | wire => "wire"
  | help => "help"

def Verb.all : List Verb := [.resolve, .evaluate, .check, .mask, .wire, .help]

def Verb.ofWord? (word : String) : Option Verb := all.find? fun v => v.word = word

inductive Flag where
  | config
  | logLevel
  | block
  | diagram
  | rows
  | title
  | help
  | version
  deriving DecidableEq, Repr

namespace Flag

def long : Flag → String
  | config => "config"
  | logLevel => "log-level"
  | block => "block"
  | diagram => "diagram"
  | rows => "rows"
  | title => "title"
  | help => "help"
  | version => "version"

def short? : Flag → Option Char
  | config => some 'c'
  | block => some 'b'
  | diagram => some 'd'
  | help => some 'h'
  | version => some 'V'
  | _ => none

/-- What an option leads to at once, if it takes no value. -/
def request? : Flag → Option UsageFault
  | help => some .helpRequested
  | version => some .versionRequested
  | _ => none

def isNumeric : Flag → Bool
  | block => true
  | diagram => true
  | rows => true
  | _ => false

def general : List Flag := [config, logLevel, help, version]

def ofVerb : Verb → List Flag
  | .check => [config, logLevel, help]
  | .mask => [block, diagram, rows, title, config, logLevel, help]
  | _ => [block, diagram, config, logLevel, help]

end Flag

/-- An unsigned number of at most 64 bits. A plus sign and zeros may stand in front. -/
def number? (text : String) : Option Nat :=
  let digits := match text.toList with
    | '+' :: rest => rest
    | cs => cs
  if !digits.isEmpty && digits.all Char.isDigit then
    let n := digits.foldl (fun acc c => 10 * acc + (c.toNat - '0'.toNat)) 0
    if n < wordLimit then some n else none
  else none

/-- An option that was read and is not settled yet, with its value once that was read too. -/
structure Pending where
  flag : Flag
  value : Option String

/-- What was read on one side of the command. -/
structure Reading where
  given : List (Flag × String)
  pending : Option Pending
  /-- The document, if one was read here. -/
  document : Option String
  /-- Whether two dashes were read. -/
  literal : Bool

namespace Reading

def start : Reading := ⟨[], none, none, false⟩

def value? (r : Reading) (flag : Flag) : Option String :=
  (r.given.find? fun entry => entry.1 = flag).map Prod.snd

def isGiven (r : Reading) (flag : Flag) : Bool := (r.value? flag).isSome

def numberOf? (r : Reading) (flag : Flag) : Option Nat := (r.value? flag).bind number?

def record (r : Reading) (flag : Flag) (value : String) : Except UsageFault Reading :=
  if r.isGiven flag then .error .conflict
  else if flag.isNumeric && (number? value).isNone then .error .invalidNumber
  else .ok { r with given := r.given ++ [(flag, value)] }

def settle (r : Reading) : Except UsageFault Reading :=
  match r.pending with
  | none => .ok r
  | some ⟨_, none⟩ => .error .missingValue
  | some ⟨flag, some value⟩ => { r with pending := none }.record flag value

def awaitsValue (r : Reading) : Bool :=
  match r.pending with
  | some ⟨_, none⟩ => true
  | _ => false

def option (r : Reading) (flag : Flag) (attached : Option String) :
    Except UsageFault Reading := do
  match flag.request?, attached with
  | some request, none =>
    let _ ← r.settle
    throw request
  | some _, some _ => throw .surplusValue
  | none, some value =>
    let r ← r.settle
    r.record flag value
  | none, none =>
    let r ← r.settle
    pure { r with pending := some ⟨flag, none⟩ }

end Reading

def splitEquals (cs : List Char) : List Char × Option (List Char) :=
  match cs.dropWhile (· ≠ '=') with
  | _ :: value => (cs.takeWhile (· ≠ '='), some value)
  | [] => (cs, none)

def longOption (flags : List Flag) (r : Reading) (cs : List Char) : Except UsageFault Reading :=
  let (name, value) := splitEquals cs
  match flags.find? fun flag => flag.long = String.ofList name with
  | some flag => r.option flag (value.map String.ofList)
  | none => .error .unknownArgument

/-- Reads a word that starts with one dash, without that. Behind the letter of an option without a
value nothing is looked at. -/
def shortOption (flags : List Flag) (r : Reading) (letter : Char) (rest : List Char) :
    Except UsageFault Reading :=
  match flags.find? fun flag => flag.short? = some letter with
  | none => .error .unknownArgument
  | some flag =>
    if flag.request?.isSome then r.option flag none
    else
      match rest with
      | [] => r.option flag none
      | '=' :: value => r.option flag (some (String.ofList value))
      | value => r.option flag (some (String.ofList value))

/-- A word that is more similar than this to the name of a command is taken for a misspelling. -/
def misspellingSimilarity : Float := 0.7

def resemblesVerb (word : String) : Bool :=
  Verb.all.any fun verb => misspellingSimilarity < Text.similarity word verb.word

/-- The fault of a surplus word in front of the command. The exact name of a command is not taken
for a misspelling; it stands there only behind two dashes. -/
def surplusFault (word : String) : UsageFault :=
  if (Verb.ofWord? word).isSome then .unknownArgument
  else if resemblesVerb word then .unknownCommand
  else .unknownArgument

/-- Reads a word that is neither an option nor the value of one: the document, in front of the
command. -/
def positional (takesDocument : Bool) (r : Reading) (word : String) :
    Except UsageFault Reading := do
  if takesDocument then
    if r.document.isNone then
      let r ← r.settle
      pure { r with document := some word }
    else throw (surplusFault word)
  else throw .unknownArgument

def readWord (flags : List Flag) (takesDocument : Bool) (r : Reading) (word : String) :
    Except UsageFault Reading :=
  if r.literal then positional takesDocument r word
  else
    match word.toList with
    | ['-', '-'] => .ok { r with literal := true }
    | '-' :: '-' :: rest => longOption flags r rest
    | '-' :: letter :: rest => shortOption flags r letter rest
    | _ =>
      match r.pending with
      | some ⟨flag, none⟩ => .ok { r with pending := some ⟨flag, some word⟩ }
      | _ => positional takesDocument r word

/-- Reads the words in front of the command. Gives the command and the words behind it. -/
def readFront (r : Reading) :
    List String → Except UsageFault (Reading × Option (Verb × List String))
  | [] => .ok (r, none)
  | word :: rest => do
    let verb := if r.literal || r.awaitsValue then none else Verb.ofWord? word
    match verb with
    | some verb => pure (r, some (verb, rest))
    | none => readFront (← readWord Flag.general true r word) rest

/-- Reads the words behind a command. A block and a diagram exclude each other. -/
def readBehind (verb : Verb) (words : List String) : Except UsageFault Reading := do
  let r ← words.foldlM (readWord (Flag.ofVerb verb) false) .start
  let r ← r.settle
  if r.isGiven .block && r.isGiven .diagram then throw .conflict else pure r

def helpFor : List String → UsageFault
  | [] => .helpRequested
  | [word] => if (Verb.ofWord? word).isSome then .helpRequested else .unknownCommand
  | _ => .unknownCommand

def choiceOf (r : Reading) : NodeChoice :=
  ⟨r.numberOf? .block, (r.numberOf? .diagram).getD 1⟩

def actionOf (verb : Verb) (r : Reading) : Except UsageFault Action :=
  match verb with
  | .resolve => .ok (.resolve (choiceOf r))
  | .evaluate => .ok (.evaluate (choiceOf r))
  | .check => .ok .check
  | .mask => .ok (.mask (choiceOf r) (r.numberOf? .rows) (r.value? .title))
  | .wire => .ok (.wire (choiceOf r))
  | .help => .error .helpRequested

/-- Reads a whole command line. An option behind the command counts more than one in front. -/
def parse (words : List String) : Except UsageFault Invocation := do
  match ← readFront .start words with
  | (_, some (.help, rest)) => throw (helpFor rest)
  | (front, some (verb, rest)) =>
    let behind ← readBehind verb rest
    let action ← actionOf verb behind
    let front ← front.settle
    match front.document with
    | some document => pure ⟨document, action, (behind.value? .config).or (front.value? .config)⟩
    | none => throw .missingDocument
  | (front, none) =>
    let front ← front.settle
    if front.document.isNone && front.given.isEmpty then throw .nothingGiven
    else throw .missingCommand

end DiagramScope.Command
