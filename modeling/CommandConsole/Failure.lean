/-
# Failures of a command line

A line that cannot be parsed gives one failure: its cause, and the excerpt of
the line that it is about. All wording is here: the message, the label of the
excerpt, and for some causes a line of help.

Key definitions: `PathSegment`, `FailKind`, `ParseFail`, `ParseFail.message`,
`ParseFail.help?`, `ParseFail.ofLiteral`.
-/
import CommandConsole.Literal.Failure
import CommandConsole.Text.Excerpt

namespace CommandConsole

/-- A step from a list or a map into one of its parts. -/
inductive PathSegment where
  | index (i : Nat)
  | key (text : String)
  deriving DecidableEq

def PathSegment.describe : PathSegment → String
  | .index i => "[" ++ toString i ++ "]"
  | .key text => "." ++ text

/-- The steps of a path in a row, as in `[1].a`. -/
def describePath (path : List PathSegment) : String := String.join (path.map PathSegment.describe)

inductive FailKind where
  /-- The line stops being a sequence of tokens at `position`. -/
  | tokenExpected (expected : ExpectedTokens) (position : Nat)
  | invalidInputForType (argument argumentType input : String) (path : List PathSegment)
      (reason : Option String)
  | commandNotFound (token : String)
  | missingRequiredArgument (command argument : String)
  | ambiguousCommand (token : String) (candidates : List String)
  | requirementNotSatisfied (command requirement : String)
  | unknownArgument (command name : String)
  | noInputForArgument (command argument : String)
  | nestingLimitExceeded (limit : Nat)
  deriving DecidableEq

namespace FailKind

/-- The name of the kind of failure, the last part of its diagnostic code. -/
def name : FailKind → String
  | .tokenExpected .. => "token_expected"
  | .invalidInputForType .. => "invalid_input_for_type"
  | .commandNotFound .. => "command_not_found"
  | .missingRequiredArgument .. => "missing_required_argument"
  | .ambiguousCommand .. => "ambiguous_command"
  | .requirementNotSatisfied .. => "requirement_not_satisfied"
  | .unknownArgument .. => "unknown_argument"
  | .noInputForArgument .. => "no_input_for_argument"
  | .nestingLimitExceeded .. => "nesting_limit_exceeded"

def code (k : FailKind) : String := "conch::parse::" ++ k.name

def message : FailKind → String
  | .tokenExpected expected position =>
    "expected " ++ expected.describe ++ " at position " ++ toString position
  | .invalidInputForType argument argumentType input _ _ =>
    "invalid input '" ++ input ++ "' for argument '" ++ argument ++ "' of type " ++ argumentType
  | .commandNotFound token => "command not found: '" ++ token ++ "'"
  | .missingRequiredArgument command argument =>
    "missing required argument '" ++ argument ++ "' for command '" ++ command ++ "'"
  | .ambiguousCommand token _ => "ambiguous command '" ++ token ++ "'"
  | .requirementNotSatisfied command requirement =>
    "requirement not satisfied for command '" ++ command ++ "': " ++ requirement
  | .unknownArgument command name =>
    "unknown argument '--" ++ name ++ "' for command '" ++ command ++ "'"
  | .noInputForArgument command argument =>
    "no input given for argument '" ++ argument ++ "' of command '" ++ command ++ "'"
  | .nestingLimitExceeded limit => "literal nested deeper than " ++ toString limit ++ " levels"

/-- What is said about the excerpt. -/
def label : FailKind → String
  | .tokenExpected expected _ => "expected " ++ expected.describe
  | .invalidInputForType _ argumentType _ _ _ => "not a valid " ++ argumentType
  | .commandNotFound _ => "unknown command"
  | .missingRequiredArgument _ argument => "'" ++ argument ++ "' missing"
  | .ambiguousCommand _ _ => "ambiguous"
  | .requirementNotSatisfied _ _ => "requirement not met"
  | .unknownArgument _ _ => "unknown argument"
  | .noInputForArgument _ _ => "needs a value"
  | .nestingLimitExceeded _ => "nested too deeply"

def help? : FailKind → Option String
  | .ambiguousCommand _ candidates =>
    some ("could be any of: " ++ String.intercalate ", " candidates)
  | .invalidInputForType _ _ _ path reason =>
    let place := if path = [] then "" else "at " ++ describePath path ++ ": "
    reason.map (place ++ ·)
  | .tokenExpected expected _ =>
    if expected.chars.contains '"' then some "close the quoted string" else none
  | _ => none

end FailKind

structure ParseFail where
  kind : FailKind
  /-- The line, and the part of it that the failure is about. -/
  excerpt : Excerpt

namespace ParseFail

def span (f : ParseFail) : Span := f.excerpt.span

/-- The failure of a line at a literal that cannot be read: about the character there. -/
def ofLiteral (failure : LiteralFailure) (text : String) : ParseFail :=
  let kind := match failure.kind with
    | .tokenExpected expected => FailKind.tokenExpected expected failure.position
    | .nestingLimitExceeded limit => FailKind.nestingLimitExceeded limit
  ⟨kind, ⟨text, characterSpan text failure.position⟩⟩

end ParseFail
end CommandConsole
