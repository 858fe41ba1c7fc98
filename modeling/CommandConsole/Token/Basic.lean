/-
# Tokens of a command line

A line is a sequence of values, argument names and command separators. A name
is written `--name`, or `--name=value` with a value assigned to it. Short flags
such as `-rf` are values here: whether one is a bundle of flags depends on the
arguments of the command it stands in.

Key definitions: `Token`, `Token.word?`, `Token.shortFlags?`, `Tokens`, `TokenCursor`.
-/
import CommandConsole.Literal.Failure

namespace CommandConsole

inductive TokenKind where
  | separator
  /-- A name, with the literal assigned to it. A name with an equals sign and nothing
  behind it has the empty literal. -/
  | named (name : String) (assigned : Option Literal)
  | value (input : Literal)

structure Token where
  kind : TokenKind
  span : Span
  /-- The text of the whole token as it stands in the line. -/
  raw : String

namespace Token

def isSeparator (t : Token) : Bool :=
  match t.kind with
  | .separator => true
  | _ => false

/-- The text of a scalar that is not quoted: only such a token can name a command. -/
def word? (t : Token) : Option String :=
  match t.kind with
  | .value (.scalar text _) => if t.raw.toList.head? = some '"' then none else some text
  | _ => none

/-- The letters of a token of the form `-xyz`. -/
def shortFlags? (t : Token) : Option (List Char) :=
  match t.word?, t.raw.toList with
  | some _, '-' :: c :: cs => if c = '-' then none else some (c :: cs)
  | _, _ => none

end Token

/-- The tokens from some place of a line on. They stop at the end of the line, or at a
literal that cannot be read. -/
inductive Tokens where
  /-- Only blanks are left; the line ends at the offset `stop`. -/
  | finished (stop : Nat)
  /-- The literal that begins at the offset `start` cannot be read. -/
  | broken (start : Nat) (failure : LiteralFailure)
  | more (token : Token) (rest : Tokens)

namespace Tokens

/-- The tokens up to the end or the failure. -/
def toList : Tokens → List Token
  | .finished _ | .broken _ _ => []
  | .more t rest => t :: rest.toList

def failure? : Tokens → Option LiteralFailure
  | .finished _ => none
  | .broken _ f => some f
  | .more _ rest => rest.failure?

def length (ts : Tokens) : Nat := ts.toList.length

/-- Nothing is left of the line but blanks. -/
def isFinished : Tokens → Bool
  | .finished _ => true
  | _ => false

@[simp] theorem toList_more (t : Token) (rest : Tokens) :
    (Tokens.more t rest).toList = t :: rest.toList := rfl

@[simp] theorem length_more (t : Token) (rest : Tokens) :
    (Tokens.more t rest).length = rest.length + 1 := rfl

end Tokens

/-- A place between two tokens of a line. -/
structure TokenCursor where
  /-- The offset up to which the line has been read. -/
  position : Nat
  tokens : Tokens

namespace TokenCursor

/-- The cursor behind a token. -/
def past (t : Token) (rest : Tokens) : TokenCursor := ⟨t.span.stop, rest⟩

/-- How many tokens are left. -/
def remaining (c : TokenCursor) : Nat := c.tokens.length

end TokenCursor
end CommandConsole
