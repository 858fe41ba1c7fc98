/-
# Parsing command lines

A line is a sequence of commands, with separators between them or not. Each
one is resolved, bound and checked, and the next begins where it ends. The text
before a completion cursor is parsed in the same way, but it may end anywhere,
and what is asked is which command is open there.

Key definitions: `BoundCommand`, `LineEnv.bindCommand`, `LineEnv.parseCommands`,
`LineEnv.openCommand`, `CommandParser.parse`, `CommandParser.parsePartial`,
`CommandParser.parseTokens`.
-/
import CommandConsole.Line.Resolve

namespace CommandConsole

/-- A command with its bound arguments. -/
structure BoundCommand where
  /-- The full name of the command. -/
  name : String
  id : CommandId
  /-- The declaration that the arguments are bound for. -/
  command : Command
  arguments : List BoundArgument
  /-- From the first token of the name to the last token that belongs to the command. -/
  span : Span

namespace BoundCommand

def argument? (c : BoundCommand) (id : String) : Option BoundArgument :=
  c.arguments.find? fun a => a.id == id

def isBound (c : BoundCommand) (id : String) : Bool := (c.argument? id).isSome

def value? (c : BoundCommand) (id : String) : Option Value := (c.argument? id).map (·.value)

def input? (c : BoundCommand) (id : String) : Option Literal := (c.argument? id).map (·.input)

end BoundCommand

/-- Where the text before a completion cursor leaves the parser. -/
inductive LineState where
  /-- The next token begins a command. -/
  | root
  /-- The last command may go on. -/
  | inCommand (id : CommandId) (bound : List BoundArgument) (pending : Pending)

namespace LineEnv

/-- The part of the line that arguments of the command `id` are bound in. -/
def bindEnv (env : LineEnv) (mode : BindMode) (id : CommandId) (c : Command) : BindEnv where
  text := env.text
  commandName := env.registry.fullName id
  source := c.arguments
  longNames := env.registry.argumentNames env.context.localizer id
  policy := env.config.shortFlags
  mode := mode

/-- Resolves the command that begins with the token `t`, and binds its arguments. -/
def bindCommand (env : LineEnv) (mode : BindMode) (t : Token) (rest : Tokens) :
    Except ParseFail (Resolved × Command × BindEnv.Binding) :=
  match env.resolve t rest with
  | .error f => .error f
  | .ok r =>
    match env.registry.get? r.id with
    | none => .error (env.notFound t)
    | some c => ((env.bindEnv mode r.id c).bind r.cursor).map fun b => (r, c, b)

theorem bindCommand_remaining_le {env : LineEnv} {mode : BindMode} {t : Token} {rest : Tokens}
    {r : Resolved} {c : Command} {b : BindEnv.Binding}
    (h : env.bindCommand mode t rest = .ok (r, c, b)) : b.cursor.remaining ≤ rest.length := by
  unfold bindCommand at h
  split at h
  · cases h
  · rename_i q hq
    split at h
    · cases h
    · obtain ⟨d, hd, he⟩ := exists_of_map_eq_ok h
      cases he
      exact Nat.le_trans (BindEnv.bind_remaining_le hd) (resolve_remaining_le hq)

/-- The first requirement of a list that is not satisfied. -/
def unsatisfied? (env : LineEnv) (rs : List Requirement) : Option Requirement :=
  rs.find? fun r => !r.isSatisfied env.context

/-- What a bound argument requires and does not have. A default requires nothing. -/
def argumentGate? (env : LineEnv) (declared : List Argument) (b : BoundArgument) :
    Option (String × Span) :=
  if b.origin = .default then none
  else
    (declared.find? fun a => a.id == b.id).bind fun a =>
      (env.unsatisfied? a.requirements).map fun r => (r.description, b.input.span)

/-- The first thing that a bound command requires and does not have, and what it is about:
information, then the command's own requirements, then those of the arguments given. -/
def gate? (env : LineEnv) (c : Command) (nameSpan : Span) (bound : List BoundArgument) :
    Option (String × Span) :=
  match c.requiredInformation.find? fun i => (env.context.find? i).isNone with
  | some i => some (Requirement.presenceText i, nameSpan)
  | none =>
    match env.unsatisfied? c.requirements with
    | some r => some (r.description, nameSpan)
    | none => bound.findSome? (env.argumentGate? c.arguments.all)

/-- Fails if something that the command requires is missing. -/
def checkGate (env : LineEnv) (r : Resolved) (c : Command) (bound : List BoundArgument) :
    Except ParseFail Unit :=
  match env.gate? c r.span bound with
  | some (requirement, span) =>
    .error (env.fail (.requirementNotSatisfied (env.registry.fullName r.id) requirement) span)
  | none => .ok ()

def boundCommand (env : LineEnv) (r : Resolved) (c : Command) (b : BindEnv.Binding) :
    BoundCommand :=
  ⟨env.registry.fullName r.id, r.id, c, b.state.bound,
    ⟨r.span.start, max b.state.stop r.span.stop⟩⟩

/-- The commands from a place of the line on. -/
def parseCommands (env : LineEnv) (ts : Tokens) : Except ParseFail (List BoundCommand) :=
  match ts with
  | .finished _ => .ok []
  | .broken _ failure => .error (.ofLiteral failure env.text)
  | .more t rest =>
    if t.isSeparator then env.parseCommands rest
    else
      match _h : env.bindCommand .complete t rest with
      | .error f => .error f
      | .ok (r, c, b) =>
        match env.checkGate r c b.state.bound with
        | .error f => .error f
        | .ok () => (env.parseCommands b.cursor.tokens).map (env.boundCommand r c b :: ·)
termination_by ts.length
decreasing_by
  · simp only [Tokens.length_more]; omega
  · have := bindCommand_remaining_le _h
    simp only [TokenCursor.remaining, Tokens.length_more] at this ⊢
    omega

/-- The state behind one command of a partial line: it is open if nothing follows it. -/
def stateAfter (r : Resolved) (b : BindEnv.Binding) : LineState :=
  if b.bySeparator || !b.cursor.tokens.isFinished then .root
  else .inCommand r.id b.state.bound b.state.pending

/-- The state at the end of a partial line, from a place where `state` holds. -/
def openCommand (env : LineEnv) (state : LineState) (ts : Tokens) : Except ParseFail LineState :=
  match ts with
  | .finished _ => .ok state
  | .broken _ failure => .error (.ofLiteral failure env.text)
  | .more t rest =>
    if t.isSeparator then env.openCommand .root rest
    else
      match _h : env.bindCommand .partialLine t rest with
      | .error f => .error f
      | .ok (r, _, b) => env.openCommand (stateAfter r b) b.cursor.tokens
termination_by ts.length
decreasing_by
  · simp only [Tokens.length_more]; omega
  · have := bindCommand_remaining_le _h
    simp only [TokenCursor.remaining, Tokens.length_more] at this ⊢
    omega

/-! ### The cases of `parseCommands` -/

section Cases

variable {env : LineEnv} {t : Token} {rest : Tokens} {r : Resolved} {c : Command}
  {b : BindEnv.Binding} {f : ParseFail}

theorem parseCommands_separator (ht : t.isSeparator = true) :
    env.parseCommands (.more t rest) = env.parseCommands rest := by
  rw [parseCommands, if_pos ht]

theorem parseCommands_error (ht : t.isSeparator = false)
    (h : env.bindCommand .complete t rest = .error f) :
    env.parseCommands (.more t rest) = .error f := by
  rw [parseCommands, if_neg (by simp [ht])]
  split <;> simp_all

theorem parseCommands_refused (ht : t.isSeparator = false)
    (h : env.bindCommand .complete t rest = .ok (r, c, b))
    (hg : env.checkGate r c b.state.bound = .error f) :
    env.parseCommands (.more t rest) = .error f := by
  rw [parseCommands, if_neg (by simp [ht])]
  split <;> simp_all

theorem parseCommands_command (ht : t.isSeparator = false)
    (h : env.bindCommand .complete t rest = .ok (r, c, b))
    (hg : env.checkGate r c b.state.bound = .ok ()) :
    env.parseCommands (.more t rest) =
      (env.parseCommands b.cursor.tokens).map (env.boundCommand r c b :: ·) := by
  conv => lhs; rw [parseCommands]
  rw [if_neg (by simp [ht])]
  split <;> simp_all

end Cases

end LineEnv

/-- A registry with the configuration in which its lines are read. -/
structure CommandParser where
  registry : Registry
  config : ParserConfig

/-- Quotes an element of a line that is already split, unless it reads back as one token
with its own text. A list or a map is left as it is. -/
def quoteElement (element : String) : String :=
  let cs := element.toList
  if cs.head? = some '\x7b' ∨ cs.head? = some '[' then element
  else if cs.isEmpty || cs.head? == some '"' || cs.contains '\\' || cs.any isBlank then quote element
  else element

namespace CommandParser

def lineEnv (p : CommandParser) (context : ParseContext) (text : String) : LineEnv :=
  ⟨text, p.registry, p.config, context⟩

/-- The commands of a line. A blank line has none. -/
def parse (p : CommandParser) (context : ParseContext) (text : String) :
    Except ParseFail (List BoundCommand) :=
  (p.lineEnv context text).parseCommands (p.config.tokensOf text)

/-- Which command is open at the end of a partial line. -/
def parsePartial (p : CommandParser) (context : ParseContext) (text : String) :
    Except ParseFail LineState :=
  (p.lineEnv context text).openCommand .root (p.config.tokensOf text)

/-- The line that elements split beforehand make up. -/
def joinElements (elements : List String) : String :=
  String.intercalate " " (elements.map quoteElement)

/-- Parses a line that is already split into tokens. -/
def parseTokens (p : CommandParser) (context : ParseContext) (elements : List String) :
    Except ParseFail (List BoundCommand) :=
  p.parse context (joinElements elements)

/-- Parses a text that is one literal. -/
def parseLiteral (p : CommandParser) (text : String) : Except ParseFail Literal :=
  (CommandConsole.parseLiteral p.config.maxDepth text).mapError fun f => .ofLiteral f text

end CommandParser
end CommandConsole
