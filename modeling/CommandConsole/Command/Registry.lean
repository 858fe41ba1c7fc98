/-
# The registry of commands

Commands form a forest: a command may have sub-commands. A command is known by
its full name, the names on the way from the root to it with spaces between. A
token names a child of a command if it is one of the child's names, to the
letter; resolving tokens goes as deep as they allow.

Key definitions: `Registry`, `Registry.register`, `Registry.find?`, `Registry.matchChild`,
`Registry.resolve`.
-/
import CommandConsole.Command.Registration

namespace CommandConsole

/-- The place of a command in the order of registration. -/
abbrev CommandId := Nat

structure RegisteredCommand where
  command : Command
  fullName : String
  parent : Option CommandId

structure Registry where
  /-- The commands in the order of registration. -/
  entries : List RegisteredCommand

inductive ResolveError where
  | empty
  | notFound (token : String)
  | ambiguous (token : String) (candidates : List String)
  deriving DecidableEq

namespace ResolveError

def name : ResolveError → String
  | .empty => "empty"
  | .notFound _ => "not_found"
  | .ambiguous _ _ => "ambiguous"

def code (e : ResolveError) : String := "conch::resolve::" ++ e.name

def message : ResolveError → String
  | .empty => "no tokens to resolve"
  | .notFound token => "command not found: '" ++ token ++ "'"
  | .ambiguous token _ => "ambiguous command '" ++ token ++ "'"

def candidates : ResolveError → List String
  | .ambiguous _ names => names
  | _ => []

end ResolveError

namespace Registry

def empty : Registry := ⟨[]⟩

def size (r : Registry) : Nat := r.entries.length

def ids (r : Registry) : List CommandId := List.range r.size

def get? (r : Registry) (id : CommandId) : Option Command := r.entries[id]?.map (·.command)

def fullName (r : Registry) (id : CommandId) : String :=
  match r.entries[id]? with
  | some e => e.fullName
  | none => ""

/-- The command with a full name. -/
def find? (r : Registry) (fullName : String) : Option CommandId :=
  r.entries.findIdx? fun e => e.fullName == fullName

/-- The commands that belong to `parent`, or to none, in the order of registration. -/
def childrenOf (r : Registry) (parent : Option CommandId) : List CommandId :=
  r.ids.filter fun id => r.entries[id]?.any fun e => e.parent == parent

def roots (r : Registry) : List CommandId := r.childrenOf none

/-- Every name of a command: its own, the aliases, and the localized ones. -/
def namesOf (r : Registry) (l : Option Localizer) (id : CommandId) : List String :=
  match r.entries[id]? with
  | some e => e.command.declaredNames ++ Localizer.namesFor l (commandKey e.fullName)
  | none => []

/-- Every long name of an argument of a command: its own, and the localized ones. -/
def argumentNames (r : Registry) (l : Option Localizer) (id : CommandId) (a : Argument) :
    List String :=
  a.names ++ Localizer.namesFor l (argumentKey (r.fullName id) a.longName)

/-! ### Registration -/

/-- The parent that a command asks for. -/
def parentOf (r : Registry) (c : Command) : Except RegistrationError (Option CommandId) :=
  match c.parent with
  | none => .ok none
  | some p =>
    match r.find? p with
    | some id => .ok (some id)
    | none => .error (.unknownParent p)

/-- The full name of a command with the name `name` under `parent`. -/
def fullNameUnder (r : Registry) (parent : Option CommandId) (name : String) : String :=
  match parent with
  | some p => r.fullName p ++ " " ++ name
  | none => name

/-- The first name of a command that a sibling has: the siblings are gone through in order. -/
def clash? (r : Registry) (parent : Option CommandId) (c : Command) : Option String :=
  (r.childrenOf parent).findSome? fun sibling =>
    (r.get? sibling).bind fun s => c.declaredNames.find? fun n => s.declaredNames.contains n

/-- Checks a declaration and adds the command; its id is the old size of the registry. -/
def register (r : Registry) (c : Command) : Except RegistrationError (CommandId × Registry) :=
  match c.declaredNames.find? fun n => !isWord n with
  | some n => .error (.invalidName n)
  | none =>
    match r.parentOf c with
    | .error e => .error e
    | .ok parent =>
      let fullName := r.fullNameUnder parent c.name
      match r.clash? parent c with
      | some n => .error (.duplicateCommand fullName n)
      | none =>
        match argumentFault? fullName c.arguments.all with
        | some fault => .error fault
        | none => .ok (r.size, ⟨r.entries ++ [⟨c, fullName, parent⟩]⟩)

/-- Registers commands one after the other, up to the first that is refused. -/
def registerAll (r : Registry) : List Command → Except RegistrationError Registry
  | [] => .ok r
  | c :: cs =>
    match r.register c with
    | .error e => .error e
    | .ok (_, r') => r'.registerAll cs

/-! ### Resolution -/

/-- What a token means under a command. -/
inductive ChildMatch where
  | none
  | one (id : CommandId)
  /-- Localized names may make several children match. -/
  | many (ids : List CommandId)

/-- The children of `parent` that a token names. -/
def matching (r : Registry) (l : Option Localizer) (parent : Option CommandId) (token : String) :
    List CommandId :=
  (r.childrenOf parent).filter fun child => (r.namesOf l child).contains token

def matchChild (r : Registry) (l : Option Localizer) (parent : Option CommandId)
    (token : String) : ChildMatch :=
  match r.matching l parent token with
  | [] => .none
  | [id] => .one id
  | ids => .many ids

/-- The full names of the commands that a token could mean. -/
def candidateNames (r : Registry) (ids : List CommandId) : List String := ids.map r.fullName

/-- Goes from a command as deep as the tokens allow. -/
def descend (r : Registry) (l : Option Localizer) (current : CommandId) :
    List String → Except ResolveError (CommandId × List String)
  | [] => .ok (current, [])
  | token :: rest =>
    match r.matchChild l (some current) token with
    | .none => .ok (current, token :: rest)
    | .one child => r.descend l child rest
    | .many ids => .error (.ambiguous token (r.candidateNames ids))

/-- The deepest command that the first tokens name, and the tokens after its name. -/
def resolve (r : Registry) (l : Option Localizer) :
    List String → Except ResolveError (CommandId × List String)
  | [] => .error .empty
  | token :: rest =>
    match r.matchChild l none token with
    | .none => .error (.notFound token)
    | .one id => r.descend l id rest
    | .many ids => .error (.ambiguous token (r.candidateNames ids))

end Registry
end CommandConsole
