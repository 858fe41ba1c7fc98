/-
# Positions in a YAML text

Indentation gives a YAML text its structure, so a position knows its line and
column beside the characters that follow. Every way to end a line but two is
written as a line feed before reading; the separators of lines and paragraphs
keep themselves.

Key definitions: `Position`, `Position.skip`, `Position.separation`, `normalizeBreaks`.
Key theorem: `Position.skip_rest_length_lt`.
-/

namespace CommandConsole
namespace Yaml

def isSpace (c : Char) : Bool := c == ' ' || c == '\t'

/-- The characters that end a line: the line feed, and the separators of lines and paragraphs. -/
def isBreak (c : Char) : Bool := c == '\n' || c == '\u2028' || c == '\u2029'

/-- The characters that separate tokens. -/
def isSeparation (c : Char) : Bool := isSpace c || isBreak c

/-- Whether a token ends before these characters. -/
def atSeparation : List Char → Bool
  | [] => true
  | c :: _ => isSeparation c

/-- A line feed for every other way to write one. -/
def normalizeBreaks : List Char → List Char
  | [] => []
  | '\r' :: '\n' :: cs => '\n' :: normalizeBreaks cs
  | '\r' :: cs => '\n' :: normalizeBreaks cs
  | '\u0085' :: cs => '\n' :: normalizeBreaks cs
  | c :: cs => c :: normalizeBreaks cs

/-- The characters that a text may hold. -/
def isAllowed (c : Char) : Bool :=
  c == '\t' || c == '\n' || c == '\r' || (' ' ≤ c && c ≤ '~') || c == '\u0085' ||
    ('\u00a0' ≤ c && c ≤ '\ufffd') || 0x10000 ≤ c.toNat

structure Position where
  /-- The number of octets in front. -/
  index : Nat
  line : Nat
  column : Nat
  /-- The characters that follow. -/
  rest : List Char

namespace Position

def start (cs : List Char) : Position := ⟨0, 0, 0, cs⟩

/-- The position behind the next character. -/
def skip (p : Position) : Position :=
  match p.rest with
  | [] => p
  | c :: cs =>
    let index := p.index + c.utf8Size
    if isBreak c then ⟨index, p.line + 1, 0, cs⟩ else ⟨index, p.line, p.column + 1, cs⟩

/-- The position behind the next `n` characters. -/
def drop : Nat → Position → Position
  | 0, p => p
  | n + 1, p => drop n p.skip

/-- The characters from here on that pass a test, and the position behind them. -/
def takeWhile (test : Char → Bool) (p : Position) : List Char × Position :=
  let cs := p.rest.takeWhile test
  (cs, p.drop cs.length)

/-- The spaces and line breaks from here on, and the position behind them. -/
def separation (p : Position) : List Char × Position := p.takeWhile isSeparation

/-- The position behind the spaces from here on. -/
def skipSpaces (p : Position) : Position := (p.takeWhile isSpace).2

/-- The position at the end of the line. -/
def skipLine (p : Position) : Position := (p.takeWhile fun c => !isBreak c).2

/-- Whether the next character is `c`. -/
def nextIs (p : Position) (c : Char) : Bool := p.rest.head? == some c

/-- Whether the line ends here. -/
def atLineEnd (p : Position) : Bool := p.rest.isEmpty || p.rest.head?.any isBreak

/-- Whether a line begins here with three of the character `mark`, and nothing right behind them. -/
def atMark (mark : Char) (p : Position) : Bool :=
  match p.rest with
  | a :: b :: c :: rest =>
    p.column == 0 && a == mark && b == mark && c == mark && atSeparation rest
  | _ => false

/-- Whether a line begins here that starts or ends a document. -/
def atDocumentMark (p : Position) : Bool := p.atMark '-' || p.atMark '.'

/-- Whether a line begins here with a byte order mark, which takes up a column. -/
def atByteOrderMark (p : Position) : Bool := p.column == 0 && p.nextIs '\ufeff'

theorem skip_rest_length_lt {p : Position} {c : Char} {cs : List Char} (h : p.rest = c :: cs) :
    p.skip.rest.length < p.rest.length := by
  simp only [skip, h]
  split <;> simp

/-- The position of the next token, and whether a key may stand there, as `keyAllowed` says of
the position in front of it. Comments and byte order marks are passed over; only outside
brackets does a line break allow a key again, and does a tab not count as a space where one
may stand. -/
def nextToken (inBrackets keyAllowed comment : Bool) (p : Position) : Bool × Position :=
  match _h : p.rest with
  | [] => (keyAllowed, p)
  | c :: _ =>
    if isBreak c then p.skip.nextToken inBrackets (keyAllowed || !inBrackets) false
    else if comment || c == ' ' || (c == '\t' && (inBrackets || !keyAllowed)) ||
        p.atByteOrderMark then
      p.skip.nextToken inBrackets keyAllowed comment
    else if c == '#' then p.skip.nextToken inBrackets keyAllowed true
    else (keyAllowed, p)
termination_by p.rest.length
decreasing_by all_goals exact skip_rest_length_lt _h

end Position
end Yaml
end CommandConsole
