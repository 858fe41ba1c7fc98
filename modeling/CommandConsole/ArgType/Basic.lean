/-
# Argument types

An argument type says which literals an argument takes. Composite types hold
the types of their parts, so a type is as nested as the literals it expects.

Key definitions: `ArgType`, `ArgType.kind`, `ArgType.name`, `ArgType.freshCandidates`,
`ArgType.elementType?`, `ArgType.keyType?`, `ArgType.valueType?`, `ArgType.follow?`.
-/
import CommandConsole.Literal.Failure
import CommandConsole.Value.Basic

namespace CommandConsole

/-- The shapes of literals that a type takes. -/
inductive TypeKind where
  | single
  | list
  | map
  /-- Every literal, the empty one included. -/
  | any
  deriving DecidableEq

namespace TypeKind

def accepts : TypeKind → LiteralKind → Bool
  | .any, _ => true
  | .single, .scalar => true
  | .list, .list => true
  | .map, .map => true
  | _, _ => false

def name : TypeKind → String
  | .single => "single"
  | .list => "list"
  | .map => "map"
  | .any => "any"

def describe : TypeKind → String
  | .single => "a single value"
  | .list => "a list"
  | .map => "a map"
  | .any => "any value"

end TypeKind

/-- A type that the console does not know. Its conversion gets literals of its kind only,
and says why it refuses one. -/
structure CustomType where
  name : String
  kind : TypeKind
  convert : Literal → Except String Value
  possibilities : List String

/-- A field of a record whose values have the type `type`. -/
structure RecordField (α : Type) where
  key : String
  type : α
  isOptional : Bool

inductive ArgType where
  | any
  | string
  | int
  | float
  | bool
  | char
  /-- One of the members, in exactly these letters. -/
  | enumeration (name : String) (members : List String)
  /-- This text only. -/
  | exact (text : String)
  | list (element : ArgType)
  /-- A list of this length, with a type for each place. -/
  | exactList (elements : List ArgType)
  | map (key value : ArgType)
  /-- A map with known keys, each with the type of its value. -/
  | record (fields : List (RecordField ArgType))
  | custom (type : CustomType)

namespace ArgType

instance : Inhabited ArgType := ⟨.any⟩

def kind : ArgType → TypeKind
  | .any => .any
  | .string | .int | .float | .bool | .char | .enumeration _ _ | .exact _ => .single
  | .list _ | .exactList _ => .list
  | .map _ _ | .record _ => .map
  | .custom c => c.kind

def isBool : ArgType → Bool
  | .bool => true
  | _ => false

mutual

def name : ArgType → String
  | .any => "any"
  | .string => "string"
  | .int => "int"
  | .float => "float"
  | .bool => "bool"
  | .char => "char"
  | .enumeration n _ => n
  | .exact text => "'" ++ text ++ "'"
  | .list element => "list<" ++ name element ++ ">"
  | .exactList elements => "[" ++ String.intercalate ", " (names elements) ++ "]"
  | .map key value => "map<" ++ name key ++ ", " ++ name value ++ ">"
  | .record fields => "\x7b" ++ String.intercalate ", " (fields.map (·.key)) ++ "\x7d"
  | .custom c => c.name

def names : List ArgType → List String
  | [] => []
  | t :: ts => name t :: names ts

end

/-- The scalars of the type, if they are a closed set. -/
def possibilities : ArgType → List String
  | .bool => ["true", "false"]
  | .enumeration _ members => members
  | .exact text => [text]
  | .custom c => c.possibilities
  | _ => []

/-- How a value of the type that has not been begun may go on. -/
def freshCandidates (t : ArgType) : List String :=
  match t.kind with
  | .single => t.possibilities
  | .list => ["["]
  | .map => ["\x7b"]
  | .any => []

/-- The type of the names of a record's fields. -/
def fieldNames (fields : List (RecordField ArgType)) : ArgType :=
  .enumeration "field" (fields.map (·.key))

def findField? (fields : List (RecordField ArgType)) (key : String) : Option (RecordField ArgType) :=
  fields.find? fun f => f.key == key

/-- The type of the element of a list with this index. -/
def elementType? (t : ArgType) (index : Nat) : Option ArgType :=
  match t with
  | .list element => some element
  | .exactList elements => elements[index]?
  | .any => some .any
  | _ => none

/-- The type of the keys of a map. -/
def keyType? : ArgType → Option ArgType
  | .map key _ => some key
  | .record fields => some (fieldNames fields)
  | .any => some .any
  | _ => none

/-- The type of the value for a key of a map. -/
def valueType? (t : ArgType) (key : String) : Option ArgType :=
  match t with
  | .map _ value => some value
  | .record fields => (findField? fields key).map (·.type)
  | .any => some .any
  | _ => none

/-- The type of what is expected inside one open container. -/
def enter? (t : ArgType) : Frame → Option ArgType
  | .list index => t.elementType? index
  | .mapKey _ _ => t.keyType?
  | .mapValue _ key => t.valueType? key

/-- The type of what is expected inside open containers, the outermost first. -/
def follow? (t : ArgType) : List Frame → Option ArgType
  | [] => some t
  | f :: fs => (t.enter? f).bind fun inner => inner.follow? fs

end ArgType
end CommandConsole
