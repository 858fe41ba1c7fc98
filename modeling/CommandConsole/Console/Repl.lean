/-
# The interactive console

The console shows a prompt and reads a line, over and over. A line whose first
mark is a colon speaks to the console itself. Any other line is run, unless a
literal is still open at its end: then the next line goes on with it, behind a
space. A blank line gives up on a literal, which is reported as it stands.

Key definitions: `ConsoleCommand`, `Repl`, `Repl.prompt`, `Repl.feed`, `Repl.converse`,
`inputLines`.
-/
import CommandConsole.Console.Output
import CommandConsole.Console.Session

namespace CommandConsole

/-- What a line with a colon asks of the console. -/
inductive ConsoleCommand where
  | help
  | quit
  /-- Suggestions at the end of a text. -/
  | complete (text : String)
  | unknown (name : String)

/-- A command of the console is its name, and after a space its text. -/
def ConsoleCommand.ofChars (cs : List Char) : ConsoleCommand :=
  let parts := (splitOnce? ' ' cs).getD (cs, [])
  let name := String.ofList parts.1
  if name = ":help" ∨ name = ":h" then .help
  else if name = ":quit" ∨ name = ":q" then .quit
  else if name = ":complete" ∨ name = ":c" then .complete (String.ofList parts.2)
  else .unknown name

/-- The first line of help is the heading of the console's own commands. -/
def helpLines : List String :=
  ["Conch REPL Commands:", "  :help, :h            Show this help",
    "  :quit, :q            Exit the REPL", "  :complete, :c TEXT   Suggest continuations of TEXT",
    "", "Commands:"]

/-- The version of the program. -/
def programVersion : String := "0.1.0"

def greeting : String :=
  printLines ["Conch REPL v" ++ programVersion, "Type :help for help, :quit to exit", ""]

structure Repl where
  session : Session
  /-- The lines so far of a literal that is still open. -/
  pending : String

/-- What becomes of the console with a line. -/
inductive Reaction where
  | quit
  | goOn (next : Repl) (printed : Printed)

namespace Repl

def start (session : Session) : Repl := ⟨session, ""⟩

def prompt (r : Repl) : String := if r.pending.isEmpty then "conch> " else "    -> "

/-- Obeys a command of the console. -/
def obey (r : Repl) : ConsoleCommand → Reaction
  | .help => .goOn r (.text (printLines helpLines ++ printTable r.session.commandTable))
  | .quit => .quit
  | .complete text => .goOn r (.text (printLines (r.session.complete text)))
  | .unknown name =>
    .goOn r (.text (printLines
      ["Unknown command: " ++ name ++ ". Type :help for available commands."]))

/-- Runs a line, with what is pending in front of it, or waits for the rest of it. -/
def take (r : Repl) (line : String) : Repl × Printed :=
  let text := if r.pending.isEmpty then line else r.pending ++ " " ++ line
  if line.toList.all isBlank || !r.session.needsMore text then
    let (outcome, session) := r.session.eval text
    (⟨session, ""⟩, printOutcome outcome)
  else ({ r with pending := text }, .text "")

/-- Reacts to a line, given without its line break. -/
def feed (r : Repl) (line : String) : Reaction :=
  let visible := dropBlanks line.toList
  if r.pending.isEmpty && visible.head? == some ':' then r.obey (.ofChars visible)
  else
    let (next, printed) := r.take line
    .goOn next printed

/-- The whole conversation: every prompt with what is printed for the line behind it. The
last prompt meets the end of the input. -/
def converse (r : Repl) : List String → Printed
  | [] => .text (r.prompt ++ "\n")
  | line :: rest =>
    match r.feed line with
    | .quit => .text r.prompt
    | .goOn next printed => ((Printed.text r.prompt).append printed).append (next.converse rest)

end Repl

/-- A line without the characters that break it. -/
def trimLineBreak (line : String) : String :=
  String.ofList (line.toList.reverse.dropWhile fun c => c == '\n' || c == '\r').reverse

/-- The characters of the lines of a text. The last line may lack its line break. -/
def linesOf : List Char → List (List Char)
  | [] => []
  | c :: cs =>
    if c = '\n' then [] :: linesOf cs
    else
      match linesOf cs with
      | [] => [[c]]
      | line :: rest => (c :: line) :: rest

/-- The lines of a text, without what breaks them. -/
def inputLines (text : String) : List String :=
  (linesOf text.toList).map fun line => trimLineBreak (String.ofList line)

end CommandConsole
