/-
# The texts of YAML scalars

A scalar is plain, in quotes of one of two kinds, or a block of lines behind a
bar or an angle. Spaces and line breaks inside a plain or quoted scalar are
folded: spaces around a break are lost, a single break becomes a space, and of
more the first is lost. A block keeps its breaks, or folds those between lines
that do not begin with a space.

Key definitions: `foldSeparation`, `quotedText?`, `plainText?`, `blockText?`.
-/
import CommandConsole.Yaml.Position

namespace CommandConsole
namespace Yaml

/-- How a scalar is written. -/
inductive ScalarStyle where
  | plain
  | quoted
  /-- A block that keeps its lines. -/
  | literal
  /-- A block that folds its lines. -/
  | folded
  deriving DecidableEq

/-- What line breaks in a scalar become: a line feed is lost, or a space if it is the only
break. The other separators stay. -/
def foldBreaks : List Char → List Char
  | ['\n'] => [' ']
  | '\n' :: breaks => breaks
  | breaks => breaks

/-- What spaces and line breaks between two parts of a scalar become. -/
def foldSeparation (cs : List Char) : List Char :=
  if cs.any isBreak then foldBreaks (cs.filter isBreak) else cs

/-! ### Scalars in quotes -/

/-- The value of a hexadecimal digit. -/
def hexDigit? (c : Char) : Option Nat :=
  if '0' ≤ c ∧ c ≤ '9' then some (c.toNat - 48)
  else if 'a' ≤ c ∧ c ≤ 'f' then some (c.toNat - 87)
  else if 'A' ≤ c ∧ c ≤ 'F' then some (c.toNat - 55)
  else none

/-- The character with a number in `n` hexadecimal digits behind those of `value`. -/
def hexChar? (n value : Nat) (cs : List Char) : Option Char :=
  match n, cs with
  | 0, _ => if h : value.isValidChar then some (Char.ofNatAux value h) else none
  | n + 1, c :: cs => (hexDigit? c).bind fun d => hexChar? n (16 * value + d) cs
  | _ + 1, [] => none

/-- The character that a backslash and the letter `c` stand for. -/
def escapeLetter? (c : Char) : Option Char :=
  match c with
  | '0' => some '\x00'
  | 'a' => some '\x07'
  | 'b' => some '\x08'
  | 't' => some '\t'
  | '\t' => some '\t'
  | 'n' => some '\n'
  | 'v' => some '\x0b'
  | 'f' => some '\x0c'
  | 'r' => some '\r'
  | 'e' => some '\x1b'
  | ' ' => some ' '
  | '"' => some '"'
  | '/' => some '/'
  | '\\' => some '\\'
  | 'N' => some '\u0085'
  | '_' => some '\u00a0'
  | 'L' => some '\u2028'
  | 'P' => some '\u2029'
  | _ => none

/-- The number of hexadecimal digits after a backslash and the letter `c`. -/
def escapeWidth? (c : Char) : Option Nat :=
  match c with
  | 'x' => some 2
  | 'u' => some 4
  | 'U' => some 8
  | _ => none

/-- What the backslash at a position and the characters it escapes stand for, and the position
behind them. An escaped line break is lost, with the spaces behind it. -/
def escape? (p : Position) : Option (List Char × Position) :=
  match p.skip.rest with
  | [] => none
  | c :: cs =>
    if isBreak c then
      let r := (p.drop 2).separation
      some (r.1.filter isBreak, r.2)
    else
      match escapeLetter? c with
      | some x => some ([x], p.drop 2)
      | none => (escapeWidth? c).bind fun n => (hexChar? n 0 cs).map fun x => ([x], p.drop (2 + n))

/-- The text of a scalar in quotes from a position inside it on, behind the characters `done`,
the last first, and the position behind the closing quote. In single quotes a quote is written
twice, and a backslash is none. No document may begin or end inside. Each step uses up fuel
and at least one character. -/
def quotedFrom? (quote : Char) : Nat → List Char → Position → Option (List Char × Position)
  | 0, _, _ => none
  | fuel + 1, done, p =>
    match p.rest with
    | [] => none
    | c :: cs =>
      if p.atDocumentMark then none
      else if isSeparation c then
        let r := p.separation
        quotedFrom? quote fuel ((foldSeparation r.1).reverse ++ done) r.2
      else if c = quote then
        if quote = '\'' ∧ cs.head? = some '\'' then quotedFrom? quote fuel ('\'' :: done) (p.drop 2)
        else some (done.reverse, p.skip)
      else if c = '\\' ∧ quote = '"' then
        (escape? p).bind fun r => quotedFrom? quote fuel (r.1.reverse ++ done) r.2
      else quotedFrom? quote fuel (c :: done) p.skip

/-- The text of the scalar whose opening quote stands at a position. -/
def quotedText? (quote : Char) (p : Position) : Option (List Char × Position) :=
  quotedFrom? quote p.rest.length [] p.skip

/-! ### Plain scalars -/

/-- The characters that structure lists and maps in brackets. -/
def isFlowMark (c : Char) : Bool := [',', '[', ']', '{', '}'].contains c

/-- The characters of a plain scalar up to the next space or the end of the scalar. Inside
brackets the structural characters end it too, but a colon right before one of them leaves it
open whether a value follows. -/
def plainPart? (inBrackets : Bool) : List Char → Option (List Char)
  | [] => some []
  | c :: cs =>
    if isSeparation c then some []
    else if inBrackets && c == ':' && cs.head?.any fun d => isFlowMark d || d == '?' then none
    else if (c == ':' && atSeparation cs) || (inBrackets && isFlowMark c) then some []
    else (plainPart? inBrackets cs).map (c :: ·)

/-- Whether a tab stands in front of the column `least` on one of the lines that these spaces
and breaks begin. `broken` says that the first of them begins a line. -/
def tabIndents (least : Nat) (broken : Bool) (column : Nat) : List Char → Bool
  | [] => false
  | c :: cs =>
    if isBreak c then tabIndents least true 0 cs
    else (broken && c == '\t' && column < least) || tabIndents least broken (column + 1) cs

/-- A plain scalar that has been read. -/
structure PlainScan where
  text : List Char
  /-- Whether there is a line break behind the scalar that has been read too. -/
  broken : Bool
  stop : Position

/-- The plain scalar that goes on at a position, behind the characters `done` and the spaces
and breaks `gap`. Its lines are indented to the column `least`, unless it stands in brackets. -/
def plainFrom? (inBrackets : Bool) (least : Nat) :
    Nat → List Char → List Char → Position → Option PlainScan
  | 0, _, _, _ => none
  | fuel + 1, done, gap, p =>
    let ended : PlainScan := ⟨done, gap.any isBreak, p⟩
    if p.atDocumentMark || p.nextIs '#' then some ended
    else
      (plainPart? inBrackets p.rest).bind fun part =>
        if part = [] then some ended
        else
          let text := done ++ foldSeparation gap ++ part
          let next := (p.drop part.length).separation
          if tabIndents least false 0 next.1 then none
          else if !inBrackets && next.2.column < least then
            some ⟨text, next.1.any isBreak, next.2⟩
          else plainFrom? inBrackets least fuel text next.1 next.2

/-- The plain scalar that begins at a position. -/
def plainText? (inBrackets : Bool) (least : Nat) (p : Position) : Option PlainScan :=
  plainFrom? inBrackets least (p.rest.length + 1) [] [] p

/-- The characters that no plain scalar begins with. -/
def isIndicator (c : Char) : Bool :=
  isFlowMark c || ['#', '&', '*', '!', '|', '>', '\'', '"', '%', '@', '\x60'].contains c

/-- Whether a plain scalar may begin with these characters. -/
def startsPlain (inBrackets : Bool) : List Char → Bool
  | [] => false
  | c :: cs =>
    if c == '-' then !cs.head?.any isSpace
    else if c == '?' || c == ':' then !inBrackets && !atSeparation cs
    else !(isIndicator c || isSeparation c)

/-! ### Blocks of lines -/

/-- Which of the line breaks at the end of a block belong to it. -/
inductive Chomping where
  | none
  /-- The break of the last line. -/
  | one
  | all
  deriving DecidableEq

/-- The sign of a chomping. -/
def chomping? (c : Char) : Option Chomping :=
  if c = '-' then some .none else if c = '+' then some .all else Option.none

/-- A digit that says how far the lines of a block are indented: none means by 0. -/
def indentation? (c : Char) : Option Nat :=
  if '0' ≤ c ∧ c ≤ '9' then some (c.toNat - 48) else none

/-- What stands behind the mark of a block: a sign, a digit, both or neither, and how many
characters they take. -/
def blockHeader (cs : List Char) : Option Chomping × Option Nat × Nat :=
  let first := cs.head?
  let second := cs.tail.head?
  match first.bind chomping?, first.bind indentation? with
  | some sign, _ =>
    let digit := second.bind indentation?
    (some sign, digit, if digit.isSome then 2 else 1)
  | none, some digit =>
    let sign := second.bind chomping?
    (sign, some digit, if sign.isSome then 2 else 1)
  | none, none => (none, none, 0)

/-- The breaks of the empty lines at a position, the greatest column that is reached between
them, and the position of the first other line behind its indentation: spaces up to the column
`indent`, or all if it is not known. A tab may not stand there. -/
def emptyLines? (indent : Option Nat) :
    Nat → Nat → List Char → Position → Option (List Char × Nat × Position)
  | 0, _, _, _ => none
  | fuel + 1, widest, breaks, p =>
    let spaces := (p.rest.takeWhile (· == ' ')).length
    let p := p.drop (match indent with
      | some n => min spaces (n - p.column)
      | none => spaces)
    let inside := match indent with
      | some n => p.column < n
      | none => true
    let widest := max widest p.column
    if inside && p.nextIs '\t' then none
    else
      match p.rest with
      | c :: _ =>
        if isBreak c then emptyLines? indent fuel widest (breaks ++ [c]) p.skip
        else some (breaks, widest, p)
      | [] => some (breaks, widest, p)

/-- A block that has been read up to the end of a line. -/
structure BlockScan where
  text : List Char
  /-- The break that ends the last line, if there is one. -/
  lineBreak : List Char
  /-- The breaks of the empty lines behind it. -/
  emptyBreaks : List Char
  /-- Whether the last line begins with a space. -/
  spaced : Bool
  stop : Position

namespace BlockScan

/-- What stands between the last line and a next one. A folded block loses a line feed between
two lines that do not begin with a space, or has a space for it if no empty line follows. -/
def joint (b : BlockScan) (fold nextSpaced : Bool) : List Char :=
  if fold && b.lineBreak == ['\n'] && !b.spaced && !nextSpaced then
    if b.emptyBreaks = [] then [' '] else b.emptyBreaks
  else b.lineBreak ++ b.emptyBreaks

/-- The whole text, with the breaks that belong to it. -/
def chomp (b : BlockScan) : Chomping → List Char
  | .none => b.text
  | .one => b.text ++ b.lineBreak
  | .all => b.text ++ b.lineBreak ++ b.emptyBreaks

/-- Reads the lines that are indented to the column `indent`. -/
def readLines? (fold : Bool) (indent : Nat) : Nat → BlockScan → Option BlockScan
  | 0, _ => none
  | fuel + 1, b =>
    if b.stop.column ≠ indent ∨ b.stop.rest = [] then some b
    else
      let spaced := b.stop.rest.head?.any isSpace
      let line := b.stop.takeWhile fun c => !isBreak c
      let lineBreak := line.2.rest.take 1
      (emptyLines? (some indent) fuel 0 [] line.2.skip).bind fun (breaks, _, stop) =>
        let text := b.text ++ b.joint fold spaced ++ line.1
        readLines? fold indent fuel ⟨text, lineBreak, breaks, spaced, stop⟩

end BlockScan

/-- The text of the block whose mark stands at a position, and the position behind it. Its
lines are indented by what its header says, or else like the first that is not empty, and at
least to the column `least`. -/
def blockText? (fold : Bool) (least : Nat) (p : Position) : Option (List Char × Position) :=
  let (chomping, digit, width) := blockHeader p.rest.tail
  let spaces := (p.drop (1 + width)).skipSpaces
  let header := if spaces.nextIs '#' then spaces.skipLine else spaces
  if digit = some 0 ∨ !header.atLineEnd then none
  else
    let fuel := p.rest.length + 1
    let given := digit.map (least - 1 + ·)
    (emptyLines? given fuel 0 [] header.skip).bind fun (breaks, widest, stop) =>
      let indent := given.getD (max (max widest least) 1)
      (BlockScan.readLines? fold indent fuel ⟨[], [], breaks, false, stop⟩).map fun b =>
        (b.chomp (chomping.getD .one), b.stop)

end Yaml
end CommandConsole
