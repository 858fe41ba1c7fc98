/-
# Suggestions

The part of the line before the typed token is parsed as a partial line. A
word is completed from the candidates there, an assigned value from the type
of its argument, and an unfinished literal from what the grammar expects at
its end and from the type found inside its open containers. A line that fails
before the cursor gets no suggestions.

Key definitions: `completeQuoted`, `positionalTarget?`, `CommandParser.literalTarget?`,
`CommandParser.completeLiteral`, `CommandParser.complete`.
-/
import CommandConsole.Completion.Candidates
import CommandConsole.Completion.Place

namespace CommandConsole

/-- The quoted scalars that go on from a quoted scalar that is still open. `part` is its text
so far, and `typed` how it is typed. Without candidates any text may do, so that only its
closing quote is left to suggest. -/
def completeQuoted (candidates : List String) (part typed : String) : List String :=
  let whole := if candidates.isEmpty then [part] else candidates.filter fun c => beginsWith c part
  (whole.map quote).filter fun q => beginsWith q typed

/-- The kind of the literal that a token begins. -/
def kindOfToken (token : String) : TypeKind :=
  match token.toList.head? with
  | some '\x7b' => .map
  | some '[' => .list
  | _ => .single

/-- The type of the argument that an unnamed literal of some kind is for: the first unbound
one that takes the kind, unless a required one that does not comes before it. -/
def positionalTarget? (kind : TypeKind) : List Argument → Option ArgType
  | [] => none
  | a :: as =>
    if a.type.kind = .any ∨ a.type.kind = kind then some a.type
    else if a.isOptional then positionalTarget? kind as
    else none

/-- The keys that the innermost open map has already. -/
def presentKeys (frames : List Frame) : List String :=
  match frames.getLast? with
  | some (.mapKey _ keys) => keys
  | _ => []

/-- How a value of a type may begin inside open containers; a key comes only once in a map. -/
def freshInside (frames : List Frame) (t : Option ArgType) : List String :=
  match t with
  | none => []
  | some t => t.freshCandidates.filter fun c => !(presentKeys frames).contains c

/-- The name in a token `--name=value`. -/
def assignedName? (token : String) : Option String :=
  match token.toList with
  | '-' :: '-' :: cs => (splitOnce? '=' cs).map fun r => String.ofList r.1
  | _ => none

/-- The suggestions in a text that ends inside a literal. `nested` is the type of the value
that is expected there. -/
def suggestInLiteral (text : String) (failure : LiteralFailure) (expected : ExpectedTokens)
    (nested : Option ArgType) : List String :=
  let closers := expected.chars.map Char.toString
  let fresh := freshInside failure.frames nested
  let atFailure := closers ++ if expected.value then fresh else []
  match failure.lastScalar with
  | none => atFailure
  | some scalar =>
    let typed := textFrom text scalar.span.start
    if scalar.span.stop = textLength text ∧ scalar.depth = failure.frames.length then
      if scalar.openQuote then completeQuoted fresh scalar.text typed
      else if beginsWith typed "\"" then atFailure
      else (if fresh.contains scalar.text then closers else []) ++ continuing scalar.text fresh
    else atFailure

namespace CommandParser

/-- The type of the argument that an unfinished literal is for. -/
def literalTarget? (p : CommandParser) (l : Option Localizer) (token : String) (id : CommandId)
    (bound : List BoundArgument) (pending : Pending) : Option ArgType :=
  match if p.config.assignSyntax then assignedName? token else none with
  | some name => (p.namedArgument? l id bound name).map (·.type)
  | none =>
    match pending with
    | .value a => some a.type
    | .run a count => runType? a count
    | .none => (p.registry.get? id).bind fun c =>
        positionalTarget? (kindOfToken token) (c.arguments.remaining bound)

/-- The suggestions in a text that ends inside the literal `token`, after a partial line. -/
def completeLiteral (p : CommandParser) (l : Option Localizer) (text token : String)
    (failure : LiteralFailure) (state : LineState) : List String :=
  match failure.kind, state with
  | .tokenExpected expected, .inCommand id bound pending =>
    suggestInLiteral text failure expected
      ((p.literalTarget? l token id bound pending).bind fun t => t.follow? failure.frames)
  | _, _ => []

/-- The suggestions in the value of `--name=value`, of which `typed` has been typed. -/
def completeAssignment (p : CommandParser) (l : Option Localizer) (name typed : String) :
    LineState → List String
  | .inCommand id bound _ =>
    match p.namedArgument? l id bound name with
    | some a => continuing typed a.type.freshCandidates
    | none => []
  | .root => []

/-- The suggestions at a place of a text, repeats included. -/
def completeAt (p : CommandParser) (context : ParseContext) (text : String) :
    TypedPlace → List String
  | .word consumed typed =>
    match p.parsePartial context consumed with
    | .error _ => []
    | .ok state =>
      (p.candidates context.localizer state).select p.config.spaceContinuation typed
  | .assignment consumed name typed =>
    match p.parsePartial context consumed with
    | .error _ => []
    | .ok state => p.completeAssignment context.localizer name typed state
  | .literal consumed token failure =>
    match p.parsePartial context consumed with
    | .error _ => []
    | .ok state => p.completeLiteral context.localizer text token failure state

/-- The suggestions at the end of a text. -/
def completeLine (p : CommandParser) (context : ParseContext) (text : String) : List String :=
  match TypedPlace.locate? p.config text with
  | none => []
  | some place => withoutRepeats (p.completeAt context text place)

/-- The suggestions at a byte offset of a text. What follows the offset plays no part. -/
def complete (p : CommandParser) (context : ParseContext) (text : String) (cursor : Nat) :
    List String :=
  p.completeLine context (textBefore text cursor)

end CommandParser
end CommandConsole
