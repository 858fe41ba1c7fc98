/-
# Running commands

Every command of a line is handed to its handler, in the order of the line, up
to the first one that fails. Interceptors see a command before its handler
does, in the order in which they were added: each may change the command or
veto it. A command brings its declaration along, and the handler is the one that
the declaration names in the end: an interceptor that puts another declaration
in its place has another handler called. When the handler has succeeded the
interceptors see the result. Handlers and interceptors may keep what they have
been told, so what one of them answers may depend on every call before.

Key definitions: `HandlerError`, `Handler`, `Interceptor`, `DispatchCall`, `Callees`,
`Callees.runCommand`, `Callees.dispatch`, `Dispatcher`, `Dispatcher.dispatch`.
-/
import CommandConsole.Line.Parse

namespace CommandConsole

inductive HandlerError where
  | failed (command message : String)
  | badArgument (command argument : String)
  deriving DecidableEq

namespace HandlerError

def code : HandlerError → String
  | .failed _ _ => "conch::dispatch::failed"
  | .badArgument _ _ => "conch::dispatch::bad_argument"

def message : HandlerError → String
  | .failed command message => "command '" ++ command ++ "' failed: " ++ message
  | .badArgument command argument =>
    "argument '" ++ argument ++ "' of command '" ++ command ++ "' has no usable value"

end HandlerError

/-- Runs a bound command. -/
abbrev Handler := BoundCommand → ParseContext → Except HandlerError Value

/-- Sees the command as it was parsed and as the interceptors before have left it, and gives
the command that goes on. Nothing given is a veto. -/
abbrev Interceptor := BoundCommand → BoundCommand → Option BoundCommand

structure CommandResult where
  command : String
  value : Value

/-- What is called while a line runs. Interceptors are counted from zero. -/
inductive DispatchCall where
  | pre (interceptor : Nat) (parsed current : BoundCommand)
  | handler (command : BoundCommand)
  | post (interceptor : Nat) (parsed current : BoundCommand) (result : CommandResult)

/-- The calls that have been made, the first one first. -/
abbrev History := List DispatchCall

/-- What some calls come to, together with the calls themselves. -/
structure Traced (α : Type) where
  outcome : α
  calls : List DispatchCall

/-- What a line is run with. Each answers a call as the calls before have left it. -/
structure Callees where
  /-- What the handlers do that commands name. -/
  handlers : HandlerId → History → Handler
  interceptors : List (History → Interceptor)

inductive DispatchError where
  | parse (failure : ParseFail)
  | handler (error : HandlerError)

def DispatchError.code : DispatchError → String
  | .parse f => f.kind.code
  | .handler e => e.code

namespace Callees

/-- Hands a command through the interceptors `is`, of which the first is number `i`. -/
def intercept (before : History) (parsed : BoundCommand) (i : Nat) (current : BoundCommand) :
    List (History → Interceptor) → Traced (Option BoundCommand)
  | [] => ⟨some current, []⟩
  | f :: fs =>
    match f before parsed current with
    | none => ⟨none, [.pre i parsed current]⟩
    | some next =>
      let rest := intercept (before ++ [.pre i parsed current]) parsed (i + 1) next fs
      ⟨rest.outcome, .pre i parsed current :: rest.calls⟩

/-- The calls in which the interceptors see a result. -/
def observe (d : Callees) (parsed current : BoundCommand) (result : CommandResult) :
    List DispatchCall :=
  (List.range d.interceptors.length).map fun i => .post i parsed current result

/-- Runs the handler that the declaration of a command names. A command without one has the
unit value. -/
def runHandler (d : Callees) (context : ParseContext) (before : History) (c : BoundCommand) :
    Traced (Except HandlerError Value) :=
  match c.command.handler with
  | none => ⟨.ok .unit, []⟩
  | some h => ⟨d.handlers h before c context, [.handler c]⟩

/-- Runs one command. A vetoed command has no result. -/
def runCommand (d : Callees) (context : ParseContext) (before : History) (parsed : BoundCommand) :
    Traced (Except HandlerError (Option CommandResult)) :=
  let rewriting := intercept before parsed 0 parsed d.interceptors
  match rewriting.outcome with
  | none => ⟨.ok none, rewriting.calls⟩
  | some current =>
    let run := d.runHandler context (before ++ rewriting.calls) current
    match run.outcome with
    | .error e => ⟨.error e, rewriting.calls ++ run.calls⟩
    | .ok v =>
      let result : CommandResult := ⟨current.name, v⟩
      ⟨.ok (some result), rewriting.calls ++ run.calls ++ d.observe parsed current result⟩

/-- Runs commands in order, up to the first whose handler fails. -/
def runCommands (d : Callees) (context : ParseContext) (before : History) :
    List BoundCommand → Traced (Except HandlerError (List CommandResult))
  | [] => ⟨.ok [], []⟩
  | c :: cs =>
    let first := d.runCommand context before c
    match first.outcome with
    | .error e => ⟨.error e, first.calls⟩
    | .ok result =>
      let rest := d.runCommands context (before ++ first.calls) cs
      ⟨rest.outcome.map (result.toList ++ ·), first.calls ++ rest.calls⟩

/-- Parses a line and runs its commands. Nothing runs if the line does not parse. `before` are
the calls that earlier lines have made. -/
def dispatch (d : Callees) (parser : CommandParser) (context : ParseContext) (before : History)
    (text : String) : Traced (Except DispatchError (List CommandResult)) :=
  match parser.parse context text with
  | .error f => ⟨.error (.parse f), []⟩
  | .ok commands =>
    let run := d.runCommands context before commands
    ⟨run.outcome.mapError .handler, run.calls⟩

end Callees

/-- The same commands, with the handlers that are chosen for them. -/
def Registry.withHandlers (r : Registry) (handler : CommandId → Option HandlerId) : Registry :=
  ⟨r.entries.mapIdx fun id e => { e with command := { e.command with handler := handler id } }⟩

/-- A parser with handlers and interceptors that keep nothing. Each handler is given for one
command, and has its id. -/
structure Dispatcher where
  parser : CommandParser
  handlers : CommandId → Option Handler
  interceptors : List Interceptor

namespace Dispatcher

/-- The parser, where every command names the handler that is given for it. -/
def equipped (d : Dispatcher) : CommandParser :=
  { d.parser with
    registry := d.parser.registry.withHandlers fun id => (d.handlers id).map fun _ => id }

def callees (d : Dispatcher) : Callees where
  handlers id _ := (d.handlers id).getD fun _ _ => .ok .unit
  interceptors := d.interceptors.map fun f _ => f

def dispatch (d : Dispatcher) (context : ParseContext) (text : String) :
    Traced (Except DispatchError (List CommandResult)) :=
  d.callees.dispatch d.equipped context [] text

end Dispatcher
end CommandConsole
