/-
# What the console prints

Trees and bound commands are printed as JSON documents, one part on each line.
The results of commands and the suggestions take a line each, and tables have
two columns. A failure is reported apart from this output.

Key definitions: `Literal.toJson`, `BoundCommand.toJson`, `Diagnostic`, `Printed`,
`printResults`, `printTable`.
-/
import CommandConsole.Config.Load
import CommandConsole.Line.Dispatch
import CommandConsole.Value.Json

namespace CommandConsole

def Span.toJson (s : Span) : JsonDoc :=
  .object [("start", .ofNat s.start), ("end", .ofNat s.stop)]

namespace Literal

/-- The document of a literal of some kind, with what it holds. -/
def node (kind : LiteralKind) (content : List (String × JsonDoc)) (s : Span) : JsonDoc :=
  .object (("kind", .string kind.name) :: content ++ [("span", s.toJson)])

mutual

/-- The kind comes first and the span last; an entry of a map is an array of two. -/
def toJson : Literal → JsonDoc
  | .empty s => node .empty [] s
  | .scalar text s => node .scalar [("value", .string text)] s
  | .list items s => node .list [("items", .array (toJsonItems items))] s
  | .map entries s => node .map [("entries", .array (toJsonEntries entries))] s

def toJsonItems : List Literal → List JsonDoc
  | [] => []
  | i :: is => toJson i :: toJsonItems is

def toJsonEntries : List (Literal × Literal) → List JsonDoc
  | [] => []
  | (k, v) :: es => .array [toJson k, toJson v] :: toJsonEntries es

end

end Literal

def BoundArgument.toJson (b : BoundArgument) : JsonDoc :=
  .object [("id", .string b.id), ("input", b.input.toJson), ("value", b.value.toJson),
    ("origin", .string b.origin.name)]

def BoundCommand.toJson (c : BoundCommand) : JsonDoc :=
  .object [("name", .string c.name), ("arguments", .array (c.arguments.map BoundArgument.toJson)),
    ("span", c.span.toJson)]

/-- A failure that is reported to the user. -/
structure Diagnostic where
  code : String
  message : String
  deriving DecidableEq

def ParseFail.diagnostic (f : ParseFail) : Diagnostic := ⟨f.kind.code, f.kind.message⟩

def DispatchError.diagnostic : DispatchError → Diagnostic
  | .parse f => f.diagnostic
  | .handler e => ⟨e.code, e.message⟩

def ConfigError.diagnostic (e : ConfigError) : Diagnostic := ⟨e.code, e.message⟩

/-- What is printed, and the failures that are reported meanwhile. -/
structure Printed where
  output : String
  diagnostics : List Diagnostic

namespace Printed

def text (output : String) : Printed := ⟨output, []⟩

def failure (d : Diagnostic) : Printed := ⟨"", [d]⟩

def append (a b : Printed) : Printed :=
  ⟨a.output ++ b.output, a.diagnostics ++ b.diagnostics⟩

end Printed

/-- Ends every line with a line break. -/
def printLines (lines : List String) : String := String.join (lines.map (· ++ "\n"))

def printResult (r : CommandResult) : String := r.command ++ " => " ++ r.value.display

def printResults (results : List CommandResult) : String := printLines (results.map printResult)

/-- What a line comes to: the results of its commands, or its failure. -/
def printOutcome : Except DispatchError (List CommandResult) → Printed
  | .ok results => .text (printResults results)
  | .error e => .failure e.diagnostic

/-- Fills a text up with spaces. -/
def padTo (width : Nat) (text : String) : String :=
  text ++ String.ofList (List.replicate (width - text.length) ' ')

/-- Two columns, of which the first is as wide as its longest text. -/
def printTable (rows : List (String × String)) : String :=
  let width := rows.foldl (fun w row => max w row.1.length) 0
  printLines (rows.map fun row => "  " ++ padTo width row.1 ++ "  " ++ row.2)

end CommandConsole
