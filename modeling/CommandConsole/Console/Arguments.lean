/-
# The arguments of the program

The program is called with a subcommand and options. Three options mean the
same before and behind the subcommand, and what stands behind it wins; within
one of the two places an option that is no counter comes once. The text of a
subcommand may look like an option as long as none has that name. Two dashes
end the options.

Key definitions: `CliOption`, `Subcommand`, `UsageError`, `ArgumentShape`, `Given`, `Request`,
`ReadState.step`, `readArguments`.
-/
import CommandConsole.Number.Integer
import CommandConsole.Text.Part

namespace CommandConsole

inductive CliOption where
  | config
  | cursor
  | verbose
  | operator
  | help
  | version
  deriving DecidableEq

namespace CliOption

def longName : CliOption → String
  | .config => "config"
  | .cursor => "cursor"
  | .verbose => "verbose"
  | .operator => "operator"
  | .help => "help"
  | .version => "version"

def letter? : CliOption → Option Char
  | .verbose => some 'v'
  | .help => some 'h'
  | .version => some 'V'
  | _ => none

/-- Whether a value belongs to the option. -/
def takesValue (o : CliOption) : Bool := o == .config || o == .cursor

end CliOption

inductive Subcommand where
  | parse
  | complete
  | literal
  | run
  | repl
  deriving DecidableEq

namespace Subcommand

def name : Subcommand → String
  | .parse => "parse"
  | .complete => "complete"
  | .literal => "literal"
  | .run => "run"
  | .repl => "repl"

def ofName? (name : String) : Option Subcommand :=
  [parse, complete, literal, run, repl].find? fun s => s.name == name

/-- Whether the subcommand is about a text. -/
def takesText (s : Subcommand) : Bool := s != .repl

def options (s : Subcommand) : List CliOption :=
  [.config, .verbose, .operator, .help] ++ if s = .complete then [.cursor] else []

end Subcommand

inductive UsageError where
  | missingSubcommand
  | unknownSubcommand (name : String)
  | unknownOption (text : String)
  /-- The option came before. -/
  | repeatedOption (option : CliOption)
  | missingValue (option : CliOption)
  | invalidValue (option : CliOption) (value : String)
  /-- The option has a value and takes none. -/
  | needlessValue (option : CliOption)
  | missingText (subcommand : Subcommand)
  | unexpectedText (text : String)
  deriving DecidableEq

def UsageError.message : UsageError → String
  | .missingSubcommand => "a subcommand is required"
  | .unknownSubcommand name => "no such subcommand: '" ++ name ++ "'"
  | .unknownOption text => "no such option: '" ++ text ++ "'"
  | .repeatedOption o => "the option '--" ++ o.longName ++ "' may be given only once"
  | .missingValue o => "the option '--" ++ o.longName ++ "' requires a value"
  | .invalidValue o value => "invalid value '" ++ value ++ "' for the option '--" ++ o.longName ++ "'"
  | .needlessValue o => "the option '--" ++ o.longName ++ "' takes no value"
  | .missingText s => "the subcommand '" ++ s.name ++ "' requires a text"
  | .unexpectedText text => "unexpected argument: '" ++ text ++ "'"

/-- What one argument looks like where some options are known. -/
inductive ArgumentShape where
  /-- Two dashes alone. -/
  | endOfOptions
  | long (option : CliOption) (value : Option String)
  /-- A dash and letters, which may name options. -/
  | letters (cs : List Char)
  | word (text : String)
  | unknown (text : String)

/-- The shape of an argument. Where a text is expected, whatever names no known option
is a word. -/
def ArgumentShape.of (known : List CliOption) (textExpected : Bool) (argument : String) :
    ArgumentShape :=
  match argument.toList with
  | ['-', '-'] => .endOfOptions
  | '-' :: '-' :: cs =>
    let parts := match splitOnce? '=' cs with
      | some (name, value) => (String.ofList name, some (String.ofList value))
      | none => (String.ofList cs, none)
    match known.find? fun o => o.longName == parts.1 with
    | some o => .long o parts.2
    | none => if textExpected then .word argument else .unknown argument
  | '-' :: c :: cs =>
    let isKnown (d : Char) : Bool := known.any fun o => o.letter? == some d
    if textExpected && !(c :: cs).all isKnown then .word argument else .letters (c :: cs)
  | _ => .word argument

/-- The options and texts that have been read in one place. -/
structure Given where
  config : Option String
  operator : Bool
  cursor : Option Nat
  text : Option String

namespace Given

def nothing : Given := ⟨none, false, none, none⟩

end Given

/-- A byte offset in decimal digits, perhaps behind a plus sign, below `2 ^ 64`. -/
def readOffset? (text : String) : Option Nat :=
  let digits := match text.toList with
    | '+' :: cs => cs
    | cs => cs
  (readMagnitude (Nat.pow 2 64 - 1) .tooLarge digits).toOption

/-- Gives an option a value. -/
def Given.setValue (g : Given) (o : CliOption) (value : String) : Except UsageError Given :=
  match o with
  | .cursor =>
    if g.cursor.isSome then .error (.repeatedOption o)
    else
      match readOffset? value with
      | some n => .ok { g with cursor := some n }
      | none => .error (.invalidValue o value)
  | _ =>
    if value.isEmpty then .error (.invalidValue o value)
    else if g.config.isSome then .error (.repeatedOption o)
    else .ok { g with config := some value }

/-- What a subcommand does. -/
inductive Action where
  | parse (line : String)
  /-- Suggestions at a byte offset of a line, or at its end. -/
  | complete (line : String) (cursor : Option Nat)
  | literal (text : String)
  | run (line : String)
  | repl

/-- The action of a subcommand, unless it lacks its text. -/
def Subcommand.action? (s : Subcommand) (g : Given) : Option Action :=
  match s with
  | .parse => g.text.map .parse
  | .complete => g.text.map fun line => .complete line g.cursor
  | .literal => g.text.map .literal
  | .run => g.text.map .run
  | .repl => some .repl

structure Invocation where
  /-- The path of the configuration. -/
  config : Option String
  operator : Bool
  action : Action

/-- What the program is asked for. -/
inductive Request where
  | help
  | version
  | perform (invocation : Invocation)

/-- What the next argument may be. -/
inductive Expectation where
  | anything
  /-- The value that an option waits for. -/
  | value (option : CliOption)
  /-- No option: two dashes stand before it. -/
  | text

/-- What has been read in front of an argument. -/
structure ReadingPlace where
  /-- The subcommand, once it has been read. -/
  subcommand : Option Subcommand
  /-- What is given before the subcommand. -/
  outer : Given
  /-- What is given behind the subcommand, or so far if there is none yet. -/
  given : Given
  next : Expectation

inductive ReadState where
  | reading (place : ReadingPlace)
  /-- Help has been asked for, and a subcommand may follow that it is about. -/
  | helpTopic
  /-- The rest does not matter, unless `topic` is set: then nothing may follow. -/
  | decided (request : Request) (topic : Bool)

namespace ReadingPlace

def start : ReadingPlace := ⟨none, .nothing, .nothing, .anything⟩

/-- The options that may stand here. -/
def options (p : ReadingPlace) : List CliOption :=
  match p.subcommand with
  | none => [.config, .verbose, .operator, .help, .version]
  | some s => s.options

/-- Whether the text of the subcommand is still to come. -/
def textExpected (p : ReadingPlace) : Bool :=
  (p.subcommand.any Subcommand.takesText) && p.given.text.isNone

def shapeOf (p : ReadingPlace) (argument : String) : ArgumentShape :=
  ArgumentShape.of p.options p.textExpected argument

/-- Goes on behind an argument that has been dealt with. -/
def goOn (p : ReadingPlace) (given : Given) : ReadState :=
  .reading { p with given := given, next := .anything }

/-- Sets an option that takes no value. Help and the version end the reading. -/
def setFlag (p : ReadingPlace) (o : CliOption) : Except UsageError ReadState :=
  match o with
  | .help => .ok (.decided .help false)
  | .version => .ok (.decided .version false)
  | .operator =>
    if p.given.operator then .error (.repeatedOption o)
    else .ok (p.goOn { p.given with operator := true })
  | _ => .ok (p.goOn p.given)

/-- Sets the options of the letters behind one dash, up to one that ends the reading. -/
def setLetters (p : ReadingPlace) : List Char → Except UsageError ReadState
  | [] => .ok (p.goOn p.given)
  | c :: cs =>
    match p.options.find? fun o => o.letter? == some c with
    | none => .error (.unknownOption ("-" ++ c.toString))
    | some o =>
      match p.setFlag o with
      | .ok (.reading q) => q.setLetters cs
      | stop => stop

/-- Takes a word as the subcommand, or else as its text. -/
def takeWord (p : ReadingPlace) (word : String) : Except UsageError ReadState :=
  match p.subcommand with
  | none =>
    match p.next, Subcommand.ofName? word with
    | .anything, some s => .ok (.reading ⟨some s, p.given, .nothing, .anything⟩)
    | .anything, none =>
      if word = "help" then .ok .helpTopic else .error (.unknownSubcommand word)
    | _, _ => .error (.unknownSubcommand word)
  | some _ =>
    if p.textExpected then .ok (.reading { p with given := { p.given with text := some word } })
    else .error (.unexpectedText word)

/-- Takes an argument that may be anything. -/
def takeAny (p : ReadingPlace) (argument : String) : Except UsageError ReadState :=
  match p.shapeOf argument with
  | .endOfOptions => .ok (.reading { p with next := .text })
  | .unknown text => .error (.unknownOption text)
  | .word text => p.takeWord text
  | .letters cs => p.setLetters cs
  | .long o (some value) =>
    if o.takesValue then (p.given.setValue o value).map p.goOn else .error (.needlessValue o)
  | .long o none =>
    if o.takesValue then .ok (.reading { p with next := .value o }) else p.setFlag o

/-- Takes an argument as the value of an option; only a word can be one. -/
def takeValue (p : ReadingPlace) (o : CliOption) (argument : String) :
    Except UsageError ReadState :=
  match p.shapeOf argument with
  | .word value => (p.given.setValue o value).map p.goOn
  | _ => .error (.missingValue o)

/-- The request, if the arguments end here. -/
def finish (p : ReadingPlace) : Except UsageError Request :=
  match p.next, p.subcommand with
  | .value o, _ => .error (.missingValue o)
  | _, none => .error .missingSubcommand
  | _, some s =>
    match s.action? p.given with
    | none => .error (.missingText s)
    | some action =>
      .ok (.perform ⟨p.given.config.or p.outer.config, p.given.operator || p.outer.operator, action⟩)

end ReadingPlace

namespace ReadState

/-- Takes one argument. -/
def step (state : ReadState) (argument : String) : Except UsageError ReadState :=
  match state with
  | .reading p =>
    match p.next with
    | .anything => p.takeAny argument
    | .value o => p.takeValue o argument
    | .text => p.takeWord argument
  | .helpTopic =>
    if (Subcommand.ofName? argument).isSome || argument == "help" then .ok (.decided .help true)
    else .error (.unknownSubcommand argument)
  | .decided _ true => .error (.unknownSubcommand argument)
  | .decided request false => .ok (.decided request false)

def finish : ReadState → Except UsageError Request
  | .reading p => p.finish
  | .helpTopic => .ok .help
  | .decided request _ => .ok request

end ReadState

/-- What the arguments of the program ask for. -/
def readArguments (arguments : List String) : Except UsageError Request :=
  (arguments.foldlM ReadState.step (.reading .start)).bind ReadState.finish

end CommandConsole
