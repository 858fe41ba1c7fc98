/-
# Completion candidates

What may come next depends on the command that is open: names of commands and
arguments, and values of the arguments that are next. What has been typed of a
word picks those candidates that go on from it.

Key definitions: `Candidates`, `CommandParser.candidates`, `continuing`, `withoutRepeats`.
-/
import CommandConsole.Line.Parse
import CommandConsole.Text.Part

namespace CommandConsole

/-- The candidates that begin with what is typed and go on behind it. -/
def continuing (typed : String) (candidates : List String) : List String :=
  candidates.filter fun c => beginsWith c typed && c != typed

/-- Whether what is typed is one of some names already. -/
def isWholeName (typed : String) (names : List String) : Bool :=
  typed != "" && names.contains typed

/-- A list with every element in its first place only. `seen` are the elements before it. -/
def withoutRepeatsFrom (seen : List String) : List String → List String
  | [] => []
  | c :: cs =>
    if seen.contains c then withoutRepeatsFrom seen cs else c :: withoutRepeatsFrom (c :: seen) cs

def withoutRepeats (cs : List String) : List String := withoutRepeatsFrom [] cs

/-- The type of the next value of a run that has `count` values. -/
def runType? (a : Argument) (count : Nat) : Option ArgType :=
  match a.multiplicity with
  | .vararg => some a.type
  | .multiple => a.type.elementType? count
  | .single => none

/-- The values with which the next unnamed value may begin: those of each argument in order,
up to and with the first required one. -/
def positionalCandidates : List Argument → List String
  | [] => []
  | a :: as => a.type.freshCandidates ++ if a.isOptional then positionalCandidates as else []

/-- What may come next in a line, in the order of the suggestions. -/
structure Candidates where
  /-- Names that belong to the open command. -/
  names : List String
  values : List String
  /-- Names of commands that may follow the open one. -/
  following : List String

namespace Candidates

/-- The candidates that go on from what is typed. If that is a whole name already, a space
may follow it. -/
def select (c : Candidates) (spaceContinuation : Bool) (typed : String) : List String :=
  (if isWholeName typed (c.names ++ c.following) && spaceContinuation then [" "] else []) ++
    continuing typed c.names ++ continuing typed c.values ++ continuing typed c.following

end Candidates

def longFlag (name : String) : String := "--" ++ name

namespace CommandParser

/-- The names of the commands that belong to `parent`, or to none. -/
def commandNames (p : CommandParser) (l : Option Localizer) (parent : Option CommandId) :
    List String :=
  (p.registry.childrenOf parent).flatMap (p.registry.namesOf l)

/-- The long names of unbound arguments: the first name of each, then the localized ones. -/
def argumentFlags (p : CommandParser) (l : Option Localizer) (id : CommandId)
    (remaining : List Argument) : List String :=
  remaining.map (fun a => longFlag a.longName) ++
    match l with
    | none => []
    | some l => remaining.flatMap fun a =>
        (l.names (argumentKey (p.registry.fullName id) a.longName)).map longFlag

/-- The candidates in the open command `id`. -/
def commandCandidates (p : CommandParser) (l : Option Localizer) (id : CommandId) (c : Command)
    (bound : List BoundArgument) (pending : Pending) : Candidates :=
  let remaining := c.arguments.remaining bound
  let subCommands := if bound.isEmpty then p.commandNames l (some id) else []
  let runValues := match pending with
    | .run a count => ((runType? a count).map ArgType.freshCandidates).getD []
    | _ => []
  let mayEnd := match pending with
    | .none => remaining.all (·.isOptional)
    | _ => false
  ⟨subCommands ++ p.argumentFlags l id remaining, runValues ++ positionalCandidates remaining,
    if mayEnd then p.commandNames l none else []⟩

/-- What may come next in a line that is left in a state. -/
def candidates (p : CommandParser) (l : Option Localizer) : LineState → Candidates
  | .root => ⟨p.commandNames l none, [], []⟩
  | .inCommand _ _ (.value a) => ⟨[], a.type.freshCandidates, []⟩
  | .inCommand id bound pending =>
    match p.registry.get? id with
    | some c => p.commandCandidates l id c bound pending
    | none => ⟨[], [], []⟩

/-- The unbound argument of the command `id` with a long name. -/
def namedArgument? (p : CommandParser) (l : Option Localizer) (id : CommandId)
    (bound : List BoundArgument) (name : String) : Option Argument :=
  (p.registry.get? id).bind fun c =>
    (c.arguments.remaining bound).find? fun a => (p.registry.argumentNames l id a).contains name

end CommandParser
end CommandConsole
