/-
# The built-in commands

The commands that the console serves, with their handlers. `create` has an
argument that depends on the kind of shape, and `kick` is for operators only.

Key definitions: `Demo.commands`, `Demo.registry`, `Demo.handlers`, `Demo.context`.
-/
import CommandConsole.Line.Dispatch

namespace CommandConsole
namespace Demo

/-- Whether the caller is an operator. -/
def operatorId : InformationId := ⟨"operator", []⟩

/-- The context that the commands run in. -/
def context (operator : Bool) : ParseContext :=
  ParseContext.empty.insert ⟨operatorId, some "caller is an operator", .bool operator⟩

def personType : ArgType :=
  .record [⟨"age", .int, false⟩,
    ⟨"languages", .list (.enumeration "Language" ["EN", "PT", "ES"]), true⟩]

def shapeKind : Argument := .new "kind" (.enumeration "Shape" ["TypeA", "TypeB"])

def rectangle : Argument :=
  .new "rectangle" (.record [⟨"width", .int, false⟩, ⟨"height", .int, false⟩])

def circle : Argument := .new "circle" (.record [⟨"radius", .int, false⟩])

/-- The size of a shape depends on its kind, so the kind comes first. -/
def shapeArguments : ArgumentSupplier where
  all := [shapeKind, rectangle, circle]
  remaining bound :=
    match (bound.find? fun b => b.id == "kind").bind fun b => b.value.asString? with
    | none => [shapeKind]
    | some kind => if kind = "TypeA" then [rectangle] else [circle]

/-- A command with a description and arguments. -/
def command (name description : String) (arguments : List Argument) : Command :=
  { Command.new name with description := some description, arguments := .static arguments }

def vararg (id : String) (type : ArgType) : Argument :=
  { Argument.new id type with multiplicity := .vararg }

/-- A command that belongs to `user` and takes a name. -/
def userAction (name : String) : Command :=
  { Command.new name with parent := some "user", arguments := .static [.new "name" .string] }

def operatorOnly : Requirement :=
  ⟨operatorId, "caller must be an operator", fun i => i.value.asBool?.getD false⟩

def commands : List Command :=
  [command "say" "Print the given words" [vararg "words" .string],
    command "sum" "Add integers" [vararg "numbers" .int],
    command "rm" "Remove a path"
      [.flag "recursive" 'r', .flag "force" 'f', .new "path" .string],
    command "fetch" "Fetch a URL"
      [.new "url" .string,
        { (Argument.new "retries" .int).withDefault (.int 3) with short := some 'n' }],
    command "mapcmd" "Store weights for keys"
      [.new "n1" .int, .new "values" (.map (.enumeration "Key" ["A", "B"]) .int),
        { Argument.new "n2" .int with isOptional := true }],
    command "testE" "Pick one code" [.new "value" (.enumeration "Code" ["AAC", "AXD", "BBA", "BBD"])],
    command "setmap" "Set a person record" [.new "person" personType],
    { command "create" "Create a shape; its size depends on the kind" [] with
      arguments := .dynamic shapeArguments },
    command "user" "Manage users" [],
    userAction "add",
    userAction "remove",
    { command "kick" "Disconnect a player" [.new "player" .string] with
      requirements := [operatorOnly] }]

def registry : Except RegistrationError Registry := Registry.empty.registerAll commands

/-- The parser of one command. -/
def parserOf (c : Command) : CommandParser :=
  ⟨(Registry.empty.registerAll [c]).toOption.getD .empty, default⟩

/-- Joins the words with spaces. -/
def say : Handler := fun c _ =>
  match (c.value? "words").bind (Value.asListOf? Value.asString?) with
  | some words => .ok (.string (String.intercalate " " words))
  | none => .error (.badArgument c.name "words")

/-- Adds the numbers; the sum wraps around like a word of 64 bits. -/
def sum : Handler := fun c _ =>
  match (c.value? "numbers").bind (Value.asListOf? Value.asInt?) with
  | some numbers => .ok (.int (numbers.foldl (· + ·) 0))
  | none => .error (.badArgument c.name "numbers")

/-- The handlers of the commands of a registry, by their full names. -/
def handlers (r : Registry) (id : CommandId) : Option Handler :=
  if r.find? "say" = some id then some say
  else if r.find? "sum" = some id then some sum
  else none

end Demo
end CommandConsole
