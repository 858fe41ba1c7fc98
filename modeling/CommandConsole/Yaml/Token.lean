/-
# The tokens of a YAML text

Brackets, marks and scalars are tokens, and so are the places where a list or a
map in blocks begins and where it ends: its lines are indented to one column,
and end in front of a line that is indented less. Only the colon behind it
tells that something is a key. So the place where a key may have begun is
remembered, and a token that says so is put there when the colon is reached:
on the same line, and not too far behind.

Key definitions: `Token`, `KeyStart`, `Scan`, `Scan.read?`, `tokens?`.
-/
import CommandConsole.Yaml.Property

namespace CommandConsole
namespace Yaml

inductive Token where
  | directive (directive : Directive)
  | documentStart
  | documentEnd
  /-- A list in blocks begins. -/
  | blockList
  /-- A map in blocks begins. -/
  | blockMap
  /-- A list or a map in blocks ends. -/
  | blockEnd
  | bracketOpen
  | bracketClose
  | braceOpen
  | braceClose
  | comma
  /-- An item of a list in blocks begins. -/
  | dash
  /-- A key begins. -/
  | key
  /-- The value behind a key begins. -/
  | value
  /-- The node whose anchor has a number. -/
  | alias (number : Nat)
  /-- The number by which an alias names the next node. -/
  | anchor (number : Nat)
  | tag (tag : Tag)
  | scalar (text : String) (style : ScalarStyle)
  deriving DecidableEq

/-- A place where a key may have begun. -/
structure KeyStart where
  /-- How many tokens stand in front of it. -/
  number : Nat
  position : Position
  /-- Whether nothing but a key may stand there. -/
  required : Bool

/-- Whether the key may end at a position: it has one line and at most 1024 octets. -/
def KeyStart.reaches (k : KeyStart) (p : Position) : Bool :=
  p.line ≤ k.position.line && p.index ≤ k.position.index + 1024

/-- A text that has been read into tokens up to a position. -/
structure Scan where
  position : Position
  /-- The tokens, the last first. -/
  tokens : List Token
  /-- Where a key may have begun, inside the brackets that are open. -/
  keyStart : Option KeyStart
  /-- The same outside of each bracket that is open, the innermost first. -/
  outerKeyStarts : List (Option KeyStart)
  /-- Whether a key may begin here. -/
  keyAllowed : Bool
  /-- The columns of the blocks that are open, each plus one, the innermost first. -/
  indents : List Nat
  /-- The names of the anchors, each with the number it had last. -/
  anchors : List (String × Nat)

namespace Scan

def start (cs : List Char) : Scan := ⟨.start cs, [], none, [], true, [], []⟩

def inBrackets (s : Scan) : Bool := !s.outerKeyStarts.isEmpty

/-- The least column inside the innermost block. -/
def least (s : Scan) : Nat := s.indents.headD 0

/-- The scan behind the token `t`, which ends at the position `stop`. -/
def add (s : Scan) (t : Token) (stop : Position) (keyAllowed : Bool) : Scan :=
  { s with tokens := t :: s.tokens, position := stop, keyAllowed := keyAllowed }

/-- Puts the token `t` behind the first `number` tokens. -/
def insert (s : Scan) (number : Nat) (t : Token) : Scan :=
  let behind := s.tokens.length - number
  { s with tokens := s.tokens.take behind ++ t :: s.tokens.drop behind }

/-! ### Blocks -/

/-- Begins a block at a column, behind the first `number` tokens, if it is inside the others. -/
def openBlock (s : Scan) (t : Token) (column number : Nat) : Scan :=
  if s.inBrackets || column < s.least then s
  else { s.insert number t with indents := (column + 1) :: s.indents }

/-- Ends the blocks whose least column inside is above `bound`. -/
def closeBlocks (s : Scan) (bound : Nat) : Scan :=
  if s.inBrackets then s
  else
    let closed := s.indents.takeWhile (bound < ·)
    { s with
      tokens := closed.map (fun _ => Token.blockEnd) ++ s.tokens
      indents := s.indents.drop closed.length }

/-! ### Keys -/

/-- No key has begun, unless one is required. -/
def dropKeyStart? (s : Scan) : Option Scan :=
  if s.keyStart.any (·.required) then none else some { s with keyStart := none }

/-- A key may begin here, if one is allowed. It is required at the column of the innermost block. -/
def saveKeyStart? (s : Scan) : Option Scan :=
  if s.keyAllowed then
    s.dropKeyStart?.map fun s =>
      let required := !s.inBrackets && s.least == s.position.column + 1
      { s with keyStart := some ⟨s.tokens.length, s.position, required⟩ }
  else some s

/-- Forgets the keys that cannot end here, of which none may be required. -/
def forgetKeyStarts? (s : Scan) : Option Scan :=
  let reaching := Option.filter fun k : KeyStart => k.reaches s.position
  if (s.keyStart :: s.outerKeyStarts).any fun k =>
      k.any fun k => k.required && !k.reaches s.position then none
  else some { s with
    keyStart := reaching s.keyStart
    outerKeyStarts := s.outerKeyStarts.map reaching }

/-- The scan at the next token, behind the ends of the blocks that end in front of it. -/
def advance? (s : Scan) : Option Scan :=
  let (keyAllowed, p) := s.position.nextToken s.inBrackets s.keyAllowed false
  let s := { s with position := p, keyAllowed := keyAllowed }
  s.forgetKeyStarts?.map fun s => s.closeBlocks (p.column + 1)

/-! ### Tokens -/

/-- Ends all blocks. -/
def endBlocks? (s : Scan) : Option Scan := (s.closeBlocks 0).dropKeyStart?

/-- Reads three characters that start or end a document. -/
def readDocumentMark? (s : Scan) (t : Token) : Option Scan :=
  s.endBlocks?.map fun s => s.add t (s.position.drop 3) false

def readDirective? (s : Scan) : Option Scan :=
  s.endBlocks?.bind fun s =>
    (Yaml.readDirective? s.position).map fun (directive, stop) =>
      s.add (.directive directive) stop false

/-- Reads an opening bracket. All of what it opens may be a key. -/
def readOpening? (s : Scan) (t : Token) : Option Scan :=
  s.saveKeyStart?.map fun s =>
    { s.add t s.position.skip true with
      keyStart := none
      outerKeyStarts := s.keyStart :: s.outerKeyStarts }

/-- Reads a closing bracket, of whatever kind the open one is. -/
def readClosing? (s : Scan) (t : Token) : Option Scan :=
  s.dropKeyStart?.map fun s =>
    { s.add t s.position.skip false with
      keyStart := s.outerKeyStarts.headD none
      outerKeyStarts := s.outerKeyStarts.tail }

def readComma? (s : Scan) : Option Scan :=
  s.dropKeyStart?.map fun s => s.add .comma s.position.skip true

/-- Whether a dash, a question mark or a colon may begin an item or an entry here. -/
def mayOpen (s : Scan) : Bool := s.inBrackets || s.keyAllowed

def readDash? (s : Scan) : Option Scan :=
  if s.mayOpen then
    (s.openBlock .blockList s.position.column s.tokens.length).dropKeyStart?.map fun s =>
      s.add .dash s.position.skip true
  else none

/-- Reads a question mark, behind which a key stands. -/
def readQuestion? (s : Scan) : Option Scan :=
  if s.mayOpen then
    (s.openBlock .blockMap s.position.column s.tokens.length).dropKeyStart?.map fun s =>
      s.add .key s.position.skip (!s.inBrackets)
  else none

/-- Reads a colon. What may be a key in front of it is one. -/
def readColon? (s : Scan) : Option Scan :=
  match s.keyStart with
  | some k =>
    let s := (s.insert k.number .key).openBlock .blockMap k.position.column k.number
    some ({ s with keyStart := none }.add .value s.position.skip false)
  | none =>
    if s.mayOpen then
      let s := s.openBlock .blockMap s.position.column s.tokens.length
      some (s.add .value s.position.skip (!s.inBrackets))
    else none

/-- Reads an alias, which names an anchor in front of it. -/
def readAlias? (s : Scan) : Option Scan :=
  s.saveKeyStart?.bind fun s => (anchorName? s.position).bind fun (name, stop) =>
    (s.anchors.lookup name).map fun number => s.add (.alias number) stop false

/-- Reads an anchor. Its number is that of the names in front of it. -/
def readAnchor? (s : Scan) : Option Scan :=
  s.saveKeyStart?.bind fun s => (anchorName? s.position).map fun (name, stop) =>
    let number := s.anchors.length
    let others := s.anchors.filter fun a => a.1 ≠ name
    { s.add (.anchor number) stop false with anchors := (name, number) :: others }

def readTag? (s : Scan) : Option Scan :=
  s.saveKeyStart?.bind fun s => (Yaml.readTag? s.inBrackets s.position).map fun (tag, stop) =>
    s.add (.tag tag) stop false

def readQuoted? (s : Scan) (quote : Char) : Option Scan :=
  s.saveKeyStart?.bind fun s => (quotedText? quote s.position).map fun (text, stop) =>
    s.add (.scalar (String.ofList text) .quoted) stop false

/-- Reads a block of lines, which is no key. -/
def readBlock? (s : Scan) (fold : Bool) : Option Scan :=
  s.dropKeyStart?.bind fun s => (blockText? fold s.least s.position).map fun (text, stop) =>
    s.add (.scalar (String.ofList text) (if fold then .folded else .literal)) stop true

/-- Reads a plain scalar. A key may stand behind it if it ends its line. -/
def readPlain? (s : Scan) : Option Scan :=
  s.saveKeyStart?.bind fun s => (plainText? s.inBrackets s.least s.position).map fun scan =>
    s.add (.scalar (String.ofList scan.text) .plain) scan.stop scan.broken

/-- Reads the token at the position. -/
def read? (s : Scan) : Option Scan :=
  let cs := s.position.rest
  let stands := s.inBrackets || atSeparation cs.tail
  if s.position.column = 0 ∧ s.position.nextIs '%' then s.readDirective?
  else if s.position.atMark '-' then s.readDocumentMark? .documentStart
  else if s.position.atMark '.' then s.readDocumentMark? .documentEnd
  else
    match cs.head? with
    | some '[' => s.readOpening? .bracketOpen
    | some '{' => s.readOpening? .braceOpen
    | some ']' => s.readClosing? .bracketClose
    | some '}' => s.readClosing? .braceClose
    | some ',' => s.readComma?
    | some '*' => s.readAlias?
    | some '&' => s.readAnchor?
    | some '!' => s.readTag?
    | some '\'' => s.readQuoted? '\''
    | some '"' => s.readQuoted? '"'
    | some c =>
      if c = '-' ∧ atSeparation cs.tail then s.readDash?
      else if c = '?' ∧ stands then s.readQuestion?
      else if c = ':' ∧ stands then s.readColon?
      else if (c = '|' ∨ c = '>') ∧ !s.inBrackets then s.readBlock? (c == '>')
      else if startsPlain s.inBrackets cs then s.readPlain?
      else none
    | none => none

/-- All tokens of the text. Each step uses up fuel and at least one character. -/
def readAll? : Nat → Scan → Option (List Token)
  | 0, _ => none
  | fuel + 1, s =>
    s.advance?.bind fun s =>
      if s.position.rest = [] then s.endBlocks?.map (·.tokens.reverse)
      else s.read?.bind (readAll? fuel)

end Scan

/-- The tokens of a text, if it is made of tokens. -/
def tokens? (cs : List Char) : Option (List Token) := (Scan.start cs).readAll? (cs.length + 1)

end Yaml
end CommandConsole
