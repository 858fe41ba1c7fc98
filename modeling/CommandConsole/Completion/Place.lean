/-
# The place of the completion cursor

The text before the cursor falls into a part that has to parse already, and
the token that is being typed: a word, the value behind `--name=`, or a
literal that is not finished.

Key definitions: `TypedPlace`, `TypedPlace.locate?`.
-/
import CommandConsole.Config.Basic
import CommandConsole.Text.Part

namespace CommandConsole

inductive TypedPlace where
  /-- In a word, which is empty behind a blank. -/
  | word (consumed typed : String)
  /-- In the value of the token `--name=value`. -/
  | assignment (consumed name typed : String)
  /-- In the literal `token`, which fails at the cursor. -/
  | literal (consumed token : String) (failure : LiteralFailure)

namespace TypedPlace

/-- The place at the end of a text whose last token is `t`. -/
def ofLast (text : String) (t : Token) : TypedPlace :=
  let consumed := textBefore text t.span.start
  match t.kind with
  | .named name (some _) =>
    .assignment consumed name
      (((splitOnce? '=' t.raw.toList).map fun r => String.ofList r.2).getD "")
  | _ => .word consumed t.raw

/-- Goes through the tokens of a text; `last` is the one before them. There is no place to
complete at if a literal fails before the end of the text. -/
def locateFrom? (text : String) (last : Option Token) : Tokens → Option TypedPlace
  | .finished _ =>
    match last with
    | some t => if endsBlank text then some (.word text "") else some (ofLast text t)
    | none => some (.word text "")
  | .broken start failure =>
    if textLength text ≤ failure.position then
      some (.literal (textBefore text start) (textFrom text start) failure)
    else none
  | .more t rest => locateFrom? text (some t) rest

/-- The place at the end of a text. -/
def locate? (config : ParserConfig) (text : String) : Option TypedPlace :=
  locateFrom? text none (config.tokensOf text)

end TypedPlace
end CommandConsole
