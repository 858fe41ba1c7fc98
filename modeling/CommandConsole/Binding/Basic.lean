/-
# Binding tokens to arguments: the state

While the tokens after a command's name are bound to its arguments, the state
holds what is bound so far, the run of values that may still go on, and what
is left open if the line ends here.

Key definitions: `BindEnv`, `Pending`, `BindState`, `flagBundle?`.
-/
import CommandConsole.Command.Argument
import CommandConsole.Config.Basic

namespace CommandConsole

inductive BindMode where
  /-- A whole line: required arguments have to be given, and defaults fill the rest. -/
  | complete
  /-- The text before a completion cursor: it may end anywhere. -/
  | partialLine
  deriving DecidableEq

/-- What is open where a partial line ends. -/
inductive Pending where
  | none
  /-- A named argument or a short flag whose value has not been typed. -/
  | value (argument : Argument)
  /-- A run of `count` values that may go on. -/
  | run (argument : Argument) (count : Nat)

/-- What stays the same while one command is bound. -/
structure BindEnv where
  /-- The whole line. -/
  text : String
  /-- The full name of the command. -/
  commandName : String
  source : ArgumentSource
  /-- Every long name of an argument. -/
  longNames : Argument → List String
  policy : ShortFlagPolicy
  mode : BindMode

structure BindState where
  bound : List BoundArgument
  pending : Pending
  /-- The vararg whose run was bound last, if no unnamed value has gone elsewhere since. -/
  openRun : Option Argument
  /-- The offset behind the last token that belongs to the command. -/
  stop : Nat

namespace BindState

/-- Nothing is bound yet; the command's name ends at the offset `stop`. -/
def start (stop : Nat) : BindState := ⟨[], .none, none, stop⟩

def push (s : BindState) (b : BoundArgument) : BindState := { s with bound := s.bound ++ [b] }

end BindState

namespace BindEnv

def fail (env : BindEnv) (kind : FailKind) (span : Span) : ParseFail := ⟨kind, ⟨env.text, span⟩⟩

def failLiteral (env : BindEnv) (failure : LiteralFailure) : ParseFail := .ofLiteral failure env.text

/-- The arguments that are not bound yet. -/
def remaining (env : BindEnv) (s : BindState) : List Argument := env.source.remaining s.bound

def mismatch (env : BindEnv) (a : Argument) (m : TypeMismatch) : ParseFail :=
  env.fail (.invalidInputForType a.id m.expected m.input m.path m.reason) m.span

def noInput (env : BindEnv) (a : Argument) (span : Span) : ParseFail :=
  env.fail (.noInputForArgument env.commandName a.id) span

/-- Converts a literal to the type of an argument. -/
def convert (env : BindEnv) (a : Argument) (input : Literal) : Except ParseFail Value :=
  (a.type.convert input).mapError (env.mismatch a)

/-- The first unbound argument with a long name. -/
def findNamed? (env : BindEnv) (remaining : List Argument) (name : String) : Option Argument :=
  remaining.find? fun a => (env.longNames a).contains name

end BindEnv

/-- The unbound arguments that some letters are the short flags of, if each letter is one and
no argument comes twice. `taken` are those of the letters before. -/
def flagArguments? (remaining taken : List Argument) : List Char → Option (List Argument)
  | [] => some []
  | c :: cs =>
    match remaining.find? fun a => a.short == some c with
    | none => none
    | some a =>
      if taken.any fun b => b.id == a.id then none
      else (flagArguments? remaining (a :: taken) cs).map (a :: ·)

/-- All arguments of a bundle but the last are switches, and the last is one too unless the
policy lets it take a value. -/
def bundleAllowed (policy : ShortFlagPolicy) (bundle : List Argument) : Bool :=
  match bundle.getLast? with
  | none => false
  | some last => bundle.dropLast.all Argument.isSwitch && (last.isSwitch || policy == .trailingValue)

/-- The arguments that a token `-xyz` names, if it is a bundle of short flags here. -/
def flagBundle? (policy : ShortFlagPolicy) (remaining : List Argument) (t : Token) :
    Option (List Argument) :=
  match t.shortFlags? with
  | none => none
  | some letters => (flagArguments? remaining [] letters).filter (bundleAllowed policy)

end CommandConsole
