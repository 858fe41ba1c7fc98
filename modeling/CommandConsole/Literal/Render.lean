/-
# The written form of a literal

A literal is written on one line: lists in brackets, maps in braces, a comma
and a space between the parts. A scalar stands as it is unless one of its
characters could be read as something else; then it is quoted, with a
backslash before every quote and backslash.

Key definitions: `quote`, `needsQuotes`, `Literal.render`, `Literal.keyText`.
-/
import CommandConsole.Literal.Basic
import CommandConsole.Text.Blank

namespace CommandConsole

/-- A backslash before every quote and backslash. -/
def escapeQuoted : List Char → List Char
  | [] => []
  | c :: cs => if c = '"' ∨ c = '\\' then '\\' :: c :: escapeQuoted cs else c :: escapeQuoted cs

/-- A text as a quoted scalar. -/
def quote (text : String) : String :=
  String.ofList ('"' :: (escapeQuoted text.toList ++ ['"']))

/-- The characters that a scalar may not hold unquoted: those of the grammar, and
the usual separator of commands. -/
def mustBeQuoted : List Char := [',', '=', '{', '}', '[', ']', '"', '\\', '&']

/-- Whether a scalar is written in quotes: it is empty, could be taken for a flag,
or holds a blank or a structural character. -/
def needsQuotes (text : String) : Bool :=
  match text.toList with
  | [] => true
  | c :: cs => c == '-' || (c :: cs).any fun c => isBlank c || mustBeQuoted.contains c

def renderScalar (text : String) : String :=
  if needsQuotes text then quote text else text

namespace Literal

mutual

/-- The written form. An empty literal is written like the empty scalar. -/
def render : Literal → String
  | .empty _ => "\"\""
  | .scalar text _ => renderScalar text
  | .list items _ => "[" ++ renderItems items ++ "]"
  | .map entries _ => "\x7b" ++ renderEntries entries ++ "\x7d"

def renderItems : List Literal → String
  | [] => ""
  | [i] => render i
  | i :: j :: is => render i ++ ", " ++ renderItems (j :: is)

def renderEntries : List (Literal × Literal) → String
  | [] => ""
  | [(k, v)] => render k ++ "=" ++ render v
  | (k, v) :: e :: es => render k ++ "=" ++ render v ++ ", " ++ renderEntries (e :: es)

end

/-- What a map key is known by: the text of a scalar, the written form of any other literal. -/
def keyText (key : Literal) : String :=
  match key with
  | .scalar text _ => text
  | other => other.render

end Literal
end CommandConsole
