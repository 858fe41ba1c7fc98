/-
# The command line

Reads the configuration file, the standard input and the arguments, and prints
what the program makes of them. The interactive console answers line by line.

Key definition: `main`.
-/
import CommandConsole.Console.Program

namespace CommandConsole

/-- Prints what goes to standard output, and then the failures. -/
def emit (printed : Printed) : IO Unit := do
  IO.print printed.output
  (← IO.getStdout).flush
  for d in printed.diagnostics do
    IO.eprintln (d.code ++ "\n\n  " ++ d.message ++ "\n")

/-- Talks to the user until there are no more lines. -/
partial def talk (r : Repl) : IO Unit := do
  emit (.text r.prompt)
  let line ← (← IO.getStdin).getLine
  if line.isEmpty then emit (.text "\n")
  else
    match r.feed (trimLineBreak line) with
    | .quit => pure ()
    | .goOn next printed =>
      emit printed
      talk next

/-- The text of a file, if it can be read. -/
def readText? (path : String) : IO (Option String) :=
  try
    let text ← IO.FS.readFile path
    pure (some text)
  catch _ => pure none

/-- Prints a report and gives its exit code. -/
def conclude (r : Report) : IO UInt32 := do
  emit r.printed
  if let some e := r.misuse then
    IO.eprintln ("error: " ++ e.message)
  pure (UInt32.ofNat r.exitCode)

/-- Does what an invocation asks for. -/
def Invocation.perform (i : Invocation) : IO UInt32 := do
  let text ← match i.config with
    | none => pure none
    | some path => readText? path
  match i.session fun _ => text with
  | .error e => conclude (.failure 2 e.diagnostic)
  | .ok s =>
    match i.action with
    | .repl =>
      emit (.text greeting)
      talk (.start s)
      pure 0
    | action => conclude (s.perform "" action)

/-- Does what the arguments ask for. -/
def serve (arguments : List String) : IO UInt32 :=
  match readArguments arguments with
  | .ok (.perform i) => i.perform
  | _ => conclude (runProgram (fun _ => none) "" arguments)

end CommandConsole

def main (arguments : List String) : IO UInt32 := CommandConsole.serve arguments
