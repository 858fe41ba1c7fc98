/-
# The program

The program reads its arguments, opens a session under the configuration they
name, and does what they ask. It ends with 0 if that succeeds, with 1 if a
line cannot be parsed or run, and with 2 if there is no session to begin with.

Key definitions: `SetupError`, `Report`, `Invocation.session`, `Session.perform`, `Request.report`,
`runProgram`.
-/
import CommandConsole.Console.Arguments
import CommandConsole.Console.Repl

namespace CommandConsole

/-- Why there is no session. -/
inductive SetupError where
  | config (error : ConfigError)
  | registration (error : RegistrationError)

def SetupError.diagnostic : SetupError → Diagnostic
  | .config e => e.diagnostic
  | .registration e => ⟨e.code, e.message⟩

/-- What a run of the program leaves behind. -/
structure Report where
  exitCode : Nat
  printed : Printed
  /-- What is wrong with the arguments, which is no failure of a session. -/
  misuse : Option UsageError

namespace Report

def success (output : String) : Report := ⟨0, .text output, none⟩

def failure (exitCode : Nat) (d : Diagnostic) : Report := ⟨exitCode, .failure d, none⟩

/-- Reports a document, or the failure to find one. -/
def ofJson : Except ParseFail JsonDoc → Report
  | .ok document => success (printLines [document.pretty])
  | .error f => failure 1 f.diagnostic

end Report

/-- The session that an invocation asks for. `readFile` gives the texts of the files that
can be read. -/
def Invocation.session (i : Invocation) (readFile : String → Option String) :
    Except SetupError Session :=
  let config : Except ConfigError ParserConfig := match i.config with
    | none => .ok default
    | some path => ParserConfig.ofFile path (readFile path)
  match config with
  | .error e => .error (.config e)
  | .ok config => (Session.start config i.operator).mapError .registration

/-- Does what is asked for. `input` is what there is to read from. -/
def Session.perform (s : Session) (input : String) : Action → Report
  | .parse line => .ofJson ((s.parse line).map fun cs => .array (cs.map BoundCommand.toJson))
  | .complete line cursor =>
    let cursor := cursor.getD (textLength line)
    .success (printLines (s.parser.complete s.context line cursor))
  | .literal text => .ofJson ((s.parseLiteral text).map Literal.toJson)
  | .run line =>
    match s.run line with
    | .ok results => .success (printResults results)
    | .error e => .failure 1 e.diagnostic
  | .repl =>
    ⟨0, (Printed.text greeting).append ((Repl.start s).converse (inputLines input)), none⟩

def usageLines : List String :=
  ["Usage: conch [OPTIONS] <COMMAND>", "", "Commands:",
    "  parse LINE      Parse a line and print the bound commands as JSON",
    "  complete LINE   Print suggestions for a line, at its end or at --cursor N",
    "  literal TEXT    Parse one literal and print its tree as JSON",
    "  run LINE        Parse a line and run its commands",
    "  repl            Read and run lines", "", "Options:",
    "  --config FILE   Configuration of the parser, in YAML",
    "  --operator      Run the commands as an operator",
    "  -v, --verbose   Log more", "  -h, --help      Print help",
    "  -V, --version   Print version"]

def Request.report (readFile : String → Option String) (input : String) : Request → Report
  | .help => .success (printLines usageLines)
  | .version => .success (printLines ["conch " ++ programVersion])
  | .perform i =>
    match i.session readFile with
    | .error e => .failure 2 e.diagnostic
    | .ok s => s.perform input i.action

/-- The whole program. -/
def runProgram (readFile : String → Option String) (input : String) (arguments : List String) :
    Report :=
  match readArguments arguments with
  | .error e => ⟨2, .text "", some e⟩
  | .ok request => request.report readFile input

end CommandConsole
