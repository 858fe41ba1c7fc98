/-
# Converting literals

A literal is converted to a value of a type. Its shape has to fit first; then
a scalar is read, and a composite is gone through part by part. The first part
that does not fit ends the conversion, and is reported with the path to it.

Key definitions: `TypeMismatch`, `ArgType.convert`, `readBool?`.
-/
import CommandConsole.ArgType.Basic
import CommandConsole.Failure
import CommandConsole.Literal.Render
import CommandConsole.Number.FloatText

namespace CommandConsole

/-- Why a literal is not of a type. -/
structure TypeMismatch where
  /-- The way from the whole literal to the part that does not fit. -/
  path : List PathSegment
  /-- Where that part stands. -/
  span : Span
  /-- That part as it is written. -/
  input : String
  /-- The name of the type that it does not have. -/
  expected : String
  reason : Option String

/-- The truth values, in letters of either case. -/
def readBool? (text : String) : Option Bool :=
  match String.ofList (text.toList.map Char.toLower) with
  | "true" => some true
  | "false" => some false
  | _ => none

namespace TypeMismatch

/-- The literal itself does not have the type. -/
def here (t : ArgType) (input : Literal) (reason : Option String) : TypeMismatch :=
  ⟨[], input.span, input.render, t.name, reason⟩

/-- A mismatch of a part, seen from the composite that it is in. -/
def under (segment : PathSegment) (m : TypeMismatch) : TypeMismatch :=
  { m with path := segment :: m.path }

end TypeMismatch

mutual

/-- The value of a literal of which nothing is expected. -/
def Value.ofLiteral : Literal → Value
  | .empty _ => .unit
  | .scalar text _ => .string text
  | .list items _ => .list (Value.ofItems items)
  | .map entries _ => .map (Value.ofEntries entries)

def Value.ofItems : List Literal → List Value
  | [] => []
  | i :: is => Value.ofLiteral i :: Value.ofItems is

def Value.ofEntries : List (Literal × Literal) → List (Value × Value)
  | [] => []
  | (k, v) :: es => (Value.ofLiteral k, Value.ofLiteral v) :: Value.ofEntries es

end

namespace ArgType

/-- Reads a scalar. The reason of a refusal is missing where the name of the type says all. -/
def convertText (t : ArgType) (text : String) : Except (Option String) Value :=
  match t with
  | .string => .ok (.string text)
  | .int =>
    match readInteger text with
    | .ok n => .ok (.int n)
    | .error fault => .error (some fault.message)
  | .float =>
    match readFloat text with
    | .ok x => .ok (.float x)
    | .error fault => .error (some fault.message)
  | .bool =>
    match readBool? text with
    | some b => .ok (.bool b)
    | none => .error none
  | .char =>
    match text.toList with
    | [c] => .ok (.char c)
    | _ => .error (some "expected exactly one character")
  | .enumeration _ members =>
    if members.contains text then .ok (.member text)
    else .error (some ("expected one of: " ++ String.intercalate ", " members))
  | .exact expected => if expected = text then .ok (.string text) else .error none
  | _ => .error none

/-- The mismatch of a literal whose shape the type does not take. -/
def kindMismatch (t : ArgType) (input : Literal) : TypeMismatch :=
  .here t input
    (some ("expected " ++ t.kind.describe ++ ", found " ++ input.kind.describe))

/-- The first required field that has not been given. -/
def missingField? (fields : List (RecordField ArgType)) (entries : List (Literal × Literal)) :
    Option (RecordField ArgType) :=
  let given := entries.filterMap fun e => e.1.asScalar?
  fields.find? fun f => !f.isOptional && !given.contains f.key

mutual

def convert (t : ArgType) (input : Literal) : Except TypeMismatch Value :=
  if t.kind.accepts input.kind then
    match t, input with
    | .any, input => .ok (.ofLiteral input)
    | .custom c, input => (c.convert input).mapError fun reason => .here t input (some reason)
    | .list element, .list items _ => (convertItems element 0 items).map .list
    | .exactList elements, .list items _ =>
      if elements.length = items.length then (convertPlaces elements 0 items).map .list
      else .error (.here t input (some ("expected " ++ toString elements.length ++
        " elements, found " ++ toString items.length)))
    | .map key value, .map entries _ => (convertEntries key value entries).map .map
    | .record fields, .map entries _ =>
      match convertFields fields [] entries with
      | .error m => .error m
      | .ok values =>
        match missingField? fields entries with
        | some f => .error (.under (.key f.key)
            (.here t input (some ("missing field '" ++ f.key ++ "'"))))
        | none => .ok (.map values)
    | t, .scalar text _ => (convertText t text).mapError fun reason => .here t input reason
    | t, input => .error (.here t input none)
  else .error (kindMismatch t input)

/-- Converts the items of a list from the one with index `i` on, all to one type. -/
def convertItems (element : ArgType) (i : Nat) : List Literal → Except TypeMismatch (List Value)
  | [] => .ok []
  | item :: items =>
    match convert element item with
    | .error m => .error (m.under (.index i))
    | .ok v => (convertItems element (i + 1) items).map (v :: ·)

/-- Converts the items of a list from the one with index `i` on, each to the type of its place. -/
def convertPlaces (elements : List ArgType) (i : Nat) :
    List Literal → Except TypeMismatch (List Value)
  | [] => .ok []
  | item :: items =>
    match convert (elements.headD .any) item with
    | .error m => .error (m.under (.index i))
    | .ok v => (convertPlaces elements.tail (i + 1) items).map (v :: ·)

/-- Converts the entries of a map, the key before the value. -/
def convertEntries (key value : ArgType) :
    List (Literal × Literal) → Except TypeMismatch (List (Value × Value))
  | [] => .ok []
  | (k, v) :: entries =>
    match convert key k with
    | .error m => .error (m.under (.key k.keyText))
    | .ok a =>
      match convert value v with
      | .error m => .error (m.under (.key k.keyText))
      | .ok b => (convertEntries key value entries).map ((a, b) :: ·)

/-- Converts the entries of a record. `seen` are the fields that have been given before. -/
def convertFields (fields : List (RecordField ArgType)) (seen : List String) :
    List (Literal × Literal) → Except TypeMismatch (List (Value × Value))
  | [] => .ok []
  | (k, v) :: entries =>
    match k.asScalar? with
    | none => .error (.here (.record fields) k (some "record keys must be names"))
    | some name =>
      match findField? fields name with
      | none => .error (.under (.key name)
          (.here (fieldNames fields) k (some ("unknown field '" ++ name ++ "'"))))
      | some f =>
        if seen.contains name then .error (.under (.key name)
          (.here (.record fields) k (some ("field '" ++ name ++ "' given twice"))))
        else
          match convert f.type v with
          | .error m => .error (m.under (.key name))
          | .ok value =>
            (convertFields fields (name :: seen) entries).map ((.string name, value) :: ·)

end

/-- Whether the type takes a literal. -/
def takes (t : ArgType) (input : Literal) : Bool := (t.convert input).toOption.isSome

end ArgType
end CommandConsole
