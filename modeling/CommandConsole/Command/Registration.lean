/-
# Declaring commands

A command is declared once, and a declaration that could not be parsed later
is refused at once. The faults are looked for in a fixed order, and the first
one is reported.

Key definitions: `Command`, `RegistrationError`, `argumentFault?`.
-/
import CommandConsole.Command.Argument

namespace CommandConsole

/-- A handler by which a command may be run. What it does is up to whoever runs the line. -/
abbrev HandlerId := Nat

structure Command where
  name : String
  aliases : List String
  description : Option String
  /-- The full name of the command that this one belongs to. -/
  parent : Option String
  arguments : ArgumentSource
  requirements : List Requirement
  requiredInformation : List InformationId
  /-- A command may have no handler, and still be parsed and run. -/
  handler : Option HandlerId

namespace Command

/-- A command without arguments and without a handler. -/
def new (name : String) : Command := ⟨name, [], none, none, .static [], [], [], none⟩

/-- Adds an argument; a supplier is given up for it. -/
def withArgument (c : Command) (a : Argument) : Command :=
  { c with arguments := match c.arguments with
    | .static arguments => .static (arguments ++ [a])
    | .dynamic _ => .static [a] }

/-- The name and the aliases. -/
def declaredNames (c : Command) : List String := c.name :: c.aliases

end Command

inductive RegistrationError where
  | invalidName (name : String)
  | duplicateCommand (command name : String)
  | unknownParent (parent : String)
  | duplicateArgument (command name : String)
  | duplicateShortFlag (command : String) (flag : Char)
  | multipleVarargs (command : String)
  | varargNotLast (command argument : String)
  | invalidShortFlag (command argument : String)
  | invalidMultiple (command argument type : String)
  deriving DecidableEq

namespace RegistrationError

def name : RegistrationError → String
  | .invalidName .. => "invalid_name"
  | .duplicateCommand .. => "duplicate_command"
  | .unknownParent .. => "unknown_parent"
  | .duplicateArgument .. => "duplicate_argument"
  | .duplicateShortFlag .. => "duplicate_short_flag"
  | .multipleVarargs .. => "multiple_varargs"
  | .varargNotLast .. => "vararg_not_last"
  | .invalidShortFlag .. => "invalid_short_flag"
  | .invalidMultiple .. => "invalid_multiple"

def code (e : RegistrationError) : String := "conch::register::" ++ e.name

def message : RegistrationError → String
  | .invalidName name =>
    "'" ++ name ++ "' is not a valid name: names are non-empty and contain no whitespace"
  | .duplicateCommand command name =>
    "'" ++ name ++ "' is already used by a sibling of command '" ++ command ++ "'"
  | .unknownParent parent => "parent command '" ++ parent ++ "' is not registered"
  | .duplicateArgument command name => "command '" ++ command ++ "' declares '" ++ name ++ "' twice"
  | .duplicateShortFlag command flag =>
    "command '" ++ command ++ "' declares short flag '-" ++ flag.toString ++ "' twice"
  | .multipleVarargs command =>
    "command '" ++ command ++ "' declares more than one multi-valued argument"
  | .varargNotLast command argument =>
    "multi-valued argument '" ++ argument ++ "' of command '" ++ command ++
      "' must be declared last"
  | .invalidShortFlag command argument =>
    "argument '" ++ argument ++ "' of command '" ++ command ++ "' cannot have a short flag"
  | .invalidMultiple command argument type =>
    "argument '" ++ argument ++ "' of command '" ++ command ++
      "' is multi-valued but its type is " ++ type

def help? : RegistrationError → Option String
  | .invalidShortFlag .. => some "short flags are for single-valued arguments"
  | _ => none

end RegistrationError

/-- A word has characters, and no blank among them. -/
def isWord (name : String) : Bool := !name.toList.isEmpty && !name.toList.any isBlank

/-- The first of some long names that is no word or has been used. -/
def nameFault? (command : String) (used : List String) : List String → Option RegistrationError
  | [] => none
  | n :: ns =>
    if !isWord n then some (.invalidName n)
    else if used.contains n then some (.duplicateArgument command n)
    else nameFault? command (n :: used) ns

/-- What is wrong with the short flag of an argument. -/
def shortFault? (command : String) (used : List Char) (a : Argument) : Option RegistrationError :=
  match a.short with
  | none => none
  | some flag =>
    if a.multiplicity.isMulti || isBlank flag || flag == '-' then
      some (.invalidShortFlag command a.id)
    else if used.contains flag then some (.duplicateShortFlag command flag)
    else none

/-- What is wrong with an argument for several values; `isLast` says that no argument follows it. -/
def multiFault? (command : String) (isLast : Bool) (a : Argument) : Option RegistrationError :=
  if a.multiplicity = .multiple ∧ a.type.kind ≠ .list ∧ a.type.kind ≠ .map then
    some (.invalidMultiple command a.id a.type.name)
  else if a.multiplicity.isMulti && !isLast then some (.varargNotLast command a.id)
  else none

/-- The first fault in some arguments. `earlier` are the arguments before them. -/
def argumentFaultFrom? (command : String) (earlier : List Argument) :
    List Argument → Option RegistrationError
  | [] => none
  | a :: rest =>
    if earlier.any fun b => b.id == a.id then some (.duplicateArgument command a.id)
    else
      (nameFault? command (earlier.flatMap (·.names)) a.names).or <|
      (shortFault? command (earlier.filterMap (·.short)) a).or <|
      (multiFault? command rest.isEmpty a).or <|
      argumentFaultFrom? command (earlier ++ [a]) rest

/-- The first fault in the arguments of a command. -/
def argumentFault? (command : String) (arguments : List Argument) : Option RegistrationError :=
  if 1 < (arguments.filter (·.multiplicity.isMulti)).length then some (.multipleVarargs command)
  else argumentFaultFrom? command [] arguments

end CommandConsole
