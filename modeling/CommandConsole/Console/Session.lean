/-
# Sessions

A session holds the built-in commands under a configuration, ready to read
lines. It counts the lines that it has been given to run, whether they succeed
or not.

Key definitions: `Session`, `Session.start`, `Session.eval`, `Session.needsMore`,
`Session.commandTable`.
-/
import CommandConsole.Completion.Suggest
import CommandConsole.Console.Demo

namespace CommandConsole

structure Session where
  dispatcher : Dispatcher
  context : ParseContext
  /-- The number of the line that is run next. -/
  lineNumber : Nat

namespace Session

/-- A session of the built-in commands. The names and descriptions of the configuration
are used from the first line on. -/
def start (config : ParserConfig) (operator : Bool) : Except RegistrationError Session :=
  Demo.registry.map fun registry =>
    { dispatcher := ⟨⟨registry, config⟩, Demo.handlers registry, []⟩
      context := { Demo.context operator with localizer := config.locale.map LocaleTable.toLocalizer }
      lineNumber := 1 }

def parser (s : Session) : CommandParser := s.dispatcher.parser

def parse (s : Session) (text : String) : Except ParseFail (List BoundCommand) :=
  s.parser.parse s.context text

def parseLiteral (s : Session) (text : String) : Except ParseFail Literal :=
  s.parser.parseLiteral text

/-- Parses a line and runs its commands. -/
def run (s : Session) (text : String) : Except DispatchError (List CommandResult) :=
  (s.dispatcher.dispatch s.context text).outcome

/-- Runs a line and counts it. -/
def eval (s : Session) (text : String) :
    Except DispatchError (List CommandResult) × Session :=
  (s.run text, { s with lineNumber := s.lineNumber + 1 })

/-- Whether a text fails only because something is still open at its end. -/
def needsMore (s : Session) (text : String) : Bool :=
  match s.parse text with
  | .ok _ => false
  | .error f =>
    match f.kind with
    | .tokenExpected _ position => textLength text ≤ position
    | _ => false

def complete (s : Session) (text : String) : List String := s.parser.completeLine s.context text

/-- The description of a command, a localized one if there is one. -/
def describe (s : Session) (name : String) (c : Command) : String :=
  let localized := s.context.localizer.bind fun l => l.description? (commandKey name)
  (localized.or c.description).getD ""

/-- Every command with its description, in the order of registration. -/
def commandTable (s : Session) : List (String × String) :=
  let registry := s.parser.registry
  registry.ids.filterMap fun id => (registry.get? id).map fun c =>
    (registry.fullName id, s.describe (registry.fullName id) c)

end Session
end CommandConsole
