/-
# JSON documents

A JSON document is written on one line, or with one part on each line,
indented by two spaces. Strings escape the quote, the backslash and the
control characters below the space, and nothing else.

Key definitions: `JsonDoc`, `JsonDoc.compact`, `JsonDoc.pretty`, `Value.toJson`.
-/
import CommandConsole.Value.Basic

namespace CommandConsole

inductive JsonDoc where
  | null
  | bool (b : Bool)
  /-- A number, as it is written. -/
  | number (text : String)
  | string (text : String)
  | array (items : List JsonDoc)
  /-- The fields in the order they are written; a name may come twice. -/
  | object (fields : List (String × JsonDoc))

namespace JsonDoc

def ofNat (n : Nat) : JsonDoc := .number (toString n)

/-- The last two hexadecimal digits of a number. -/
def hexByte (n : Nat) : List Char := [Nat.digitChar (n / 16 % 16), Nat.digitChar (n % 16)]

def escapeChar (c : Char) : List Char :=
  if c = '"' then ['\\', '"']
  else if c = '\\' then ['\\', '\\']
  else if c = '\x08' then ['\\', 'b']
  else if c = '\x0c' then ['\\', 'f']
  else if c = '\n' then ['\\', 'n']
  else if c = '\r' then ['\\', 'r']
  else if c = '\t' then ['\\', 't']
  else if c.toNat < 32 then '\\' :: 'u' :: '0' :: '0' :: hexByte c.toNat
  else [c]

def quoteString (text : String) : String :=
  String.ofList ('"' :: (text.toList.flatMap escapeChar ++ ['"']))

mutual

def compact : JsonDoc → String
  | .null => "null"
  | .bool b => if b then "true" else "false"
  | .number text => text
  | .string text => quoteString text
  | .array items => "[" ++ compactItems items ++ "]"
  | .object fields => "\x7b" ++ compactFields fields ++ "\x7d"

def compactItems : List JsonDoc → String
  | [] => ""
  | [j] => compact j
  | j :: k :: js => compact j ++ "," ++ compactItems (k :: js)

def compactFields : List (String × JsonDoc) → String
  | [] => ""
  | [(n, j)] => quoteString n ++ ":" ++ compact j
  | (n, j) :: f :: fs => quoteString n ++ ":" ++ compact j ++ "," ++ compactFields (f :: fs)

end

/-- A new line, indented by `n` levels. -/
def newline (n : Nat) : String := String.ofList ('\n' :: List.replicate (2 * n) ' ')

mutual

/-- The document in lines, inside `n` levels of indentation. An empty array or object
stays on one line. -/
def prettyAt (n : Nat) : JsonDoc → String
  | .array (i :: is) => "[" ++ prettyItems (n + 1) (i :: is) ++ newline n ++ "]"
  | .object (f :: fs) => "\x7b" ++ prettyFields (n + 1) (f :: fs) ++ newline n ++ "\x7d"
  | j => compact j

def prettyItems (n : Nat) : List JsonDoc → String
  | [] => ""
  | [j] => newline n ++ prettyAt n j
  | j :: k :: js => newline n ++ prettyAt n j ++ "," ++ prettyItems n (k :: js)

def prettyFields (n : Nat) : List (String × JsonDoc) → String
  | [] => ""
  | [(m, j)] => newline n ++ quoteString m ++ ": " ++ prettyAt n j
  | (m, j) :: f :: fs =>
    newline n ++ quoteString m ++ ": " ++ prettyAt n j ++ "," ++ prettyFields n (f :: fs)

end

def pretty (j : JsonDoc) : String := prettyAt 0 j

end JsonDoc

namespace Value

mutual

/-- A map becomes an object whose names are the display texts of the keys. -/
def toJson : Value → JsonDoc
  | .unit => .null
  | .string s | .member s => .string s
  | .int n => .number (toString n.toInt)
  | .float x => ((writeJsonFloat? x).map JsonDoc.number).getD .null
  | .bool b => .bool b
  | .char c => .string c.toString
  | .list items => .array (toJsonItems items)
  | .map entries => .object (toJsonEntries entries)
  | .custom v => .string v.display

def toJsonItems : List Value → List JsonDoc
  | [] => []
  | v :: vs => toJson v :: toJsonItems vs

def toJsonEntries : List (Value × Value) → List (String × JsonDoc)
  | [] => []
  | (k, v) :: es => (k.display, toJson v) :: toJsonEntries es

end

end Value
end CommandConsole
