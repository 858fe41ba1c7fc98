/-
# Bound values

A value is what an argument type makes of a literal. Its display text is what
a reader is shown, and what a map entry is looked up by.

Key definitions: `Value`, `Value.display`, `Value.equal`, `Value.get?`.
-/
import CommandConsole.Number.Notation

namespace CommandConsole

/-- A value of a type that the console does not know. -/
structure CustomValue where
  typeName : String
  display : String
  /-- The text that the value holds, if it holds one. -/
  content : Option String
  deriving DecidableEq

inductive Value where
  | unit
  | string (text : String)
  | int (n : Int64)
  | float (x : Float)
  | bool (b : Bool)
  | char (c : Char)
  /-- The name of a member of an enumeration. -/
  | member (name : String)
  | list (items : List Value)
  /-- The entries in the order they were given. -/
  | map (entries : List (Value × Value))
  | custom (v : CustomValue)

namespace Value

instance : Inhabited Value := ⟨.unit⟩

def typeName : Value → String
  | .unit => "unit"
  | .string _ => "string"
  | .int _ => "int"
  | .float _ => "float"
  | .bool _ => "bool"
  | .char _ => "char"
  | .member _ => "enum"
  | .list _ => "list"
  | .map _ => "map"
  | .custom v => v.typeName

def isUnit : Value → Bool
  | .unit => true
  | _ => false

mutual

def display : Value → String
  | .unit => "()"
  | .string text | .member text => text
  | .int n => toString n.toInt
  | .float x => writeFloat x
  | .bool b => if b then "true" else "false"
  | .char c => c.toString
  | .list items => "[" ++ displayItems items ++ "]"
  | .map entries => "\x7b" ++ displayEntries entries ++ "\x7d"
  | .custom v => v.display

def displayItems : List Value → String
  | [] => ""
  | [v] => display v
  | v :: w :: vs => display v ++ ", " ++ displayItems (w :: vs)

def displayEntries : List (Value × Value) → String
  | [] => ""
  | [(k, v)] => display k ++ "=" ++ display v
  | (k, v) :: e :: es => display k ++ "=" ++ display v ++ ", " ++ displayEntries (e :: es)

end

mutual

/-- Numbers are compared as numbers, so what is not a number differs from itself. Custom
values are the same if they look the same. -/
def equal : Value → Value → Bool
  | .unit, .unit => true
  | .string a, .string b => a == b
  | .int a, .int b => a == b
  | .float a, .float b => a == b
  | .bool a, .bool b => a == b
  | .char a, .char b => a == b
  | .member a, .member b => a == b
  | .list as, .list bs => equalItems as bs
  | .map as, .map bs => equalEntries as bs
  | .custom a, .custom b => a.typeName == b.typeName && a.display == b.display
  | _, _ => false

def equalItems : List Value → List Value → Bool
  | [], [] => true
  | a :: as, b :: bs => equal a b && equalItems as bs
  | _, _ => false

def equalEntries : List (Value × Value) → List (Value × Value) → Bool
  | [], [] => true
  | (k, v) :: as, (l, w) :: bs => equal k l && equal v w && equalEntries as bs
  | _, _ => false

end

/-- The value of the first entry of a map whose key is displayed as `key`. -/
def get? (m : Value) (key : String) : Option Value :=
  match m with
  | .map entries => (entries.find? fun e => e.1.display == key).map (·.2)
  | _ => none

/-! ### Typed views -/

/-- A member of an enumeration is a string too. -/
def asString? : Value → Option String
  | .string s | .member s => some s
  | _ => none

def asInt? : Value → Option Int64
  | .int n => some n
  | _ => none

/-- An integer is a number too. -/
def asFloat? : Value → Option Float
  | .float x => some x
  | .int n => some n.toFloat
  | _ => none

def asBool? : Value → Option Bool
  | .bool b => some b
  | _ => none

def asChar? : Value → Option Char
  | .char c => some c
  | _ => none

/-- The items of a list, if each of them has the view `item`. -/
def asListOf? {α : Type} (item : Value → Option α) : Value → Option (List α)
  | .list items => items.mapM item
  | _ => none

end Value
end CommandConsole
