/-
# Information and requirements

The program that embeds the console supplies information, such as who gives
the command. A requirement is a condition on one piece of it. Information only
decides whether a command may be used, never what its arguments are.

Key definitions: `InformationId`, `Information`, `ParseContext`, `Requirement`,
`Requirement.isSatisfied`.
-/
import CommandConsole.Context.Locale

namespace CommandConsole

/-- The name of a piece of information. Tags tell several of one name apart. -/
structure InformationId where
  name : String
  tags : List String
  deriving DecidableEq

def InformationId.display (id : InformationId) : String :=
  if id.tags = [] then id.name else id.name ++ "[" ++ String.intercalate ", " id.tags ++ "]"

inductive InformationValue where
  | text (s : String)
  | int (n : Int)
  | bool (b : Bool)
  deriving DecidableEq

namespace InformationValue

def asText? : InformationValue → Option String
  | .text s => some s
  | _ => none

def asInt? : InformationValue → Option Int
  | .int n => some n
  | _ => none

def asBool? : InformationValue → Option Bool
  | .bool b => some b
  | _ => none

end InformationValue

structure Information where
  id : InformationId
  description : Option String
  value : InformationValue

/-- What the caller of the parser supplies: information, and perhaps a localizer. -/
structure ParseContext where
  /-- The latest piece first: it hides an earlier one with the same name and tags. -/
  information : List Information
  localizer : Option Localizer

namespace ParseContext

def empty : ParseContext := ⟨[], none⟩

def insert (c : ParseContext) (i : Information) : ParseContext :=
  { c with information := i :: c.information }

def find? (c : ParseContext) (id : InformationId) : Option Information :=
  c.information.find? fun i => i.id == id

def valueOf? (c : ParseContext) (id : InformationId) : Option InformationValue :=
  (c.find? id).map (·.value)

def textOf? (c : ParseContext) (id : InformationId) : Option String :=
  (c.valueOf? id).bind InformationValue.asText?

def intOf? (c : ParseContext) (id : InformationId) : Option Int :=
  (c.valueOf? id).bind InformationValue.asInt?

def boolOf? (c : ParseContext) (id : InformationId) : Option Bool :=
  (c.valueOf? id).bind InformationValue.asBool?

end ParseContext

/-- A condition on a piece of information that has to hold before something may be used. -/
structure Requirement where
  subject : InformationId
  description : String
  test : Information → Bool

namespace Requirement

/-- What is said about a piece of information that has to be there. -/
def presenceText (subject : InformationId) : String := "requires " ++ subject.display

/-- The information only has to be there. -/
def present (subject : InformationId) : Requirement :=
  ⟨subject, presenceText subject, fun _ => true⟩

/-- A requirement fails if its subject is missing. -/
def isSatisfied (r : Requirement) (c : ParseContext) : Bool :=
  match c.find? r.subject with
  | some i => r.test i
  | none => false

end Requirement
end CommandConsole
