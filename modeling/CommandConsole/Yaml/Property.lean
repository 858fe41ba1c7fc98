/-
# Names, tags and directives

A node may have an anchor, by which an alias names it again, and a tag, which
says what it is. A tag is a text of its own, or a handle and a suffix: directives
in front of a document say what handles stand for, and which version of YAML
the document is in.

Key definitions: `anchorName?`, `Tag`, `readTag?`, `Directive`, `readDirective?`.
-/
import CommandConsole.Yaml.Scalar

namespace CommandConsole
namespace Yaml

/-- The characters of anchors, handles and the names of directives. -/
def isNameChar (c : Char) : Bool := c.isAlphanum || c == '_' || c == '-'

/-- Whether a name may end before these characters. -/
def endsAnchor (cs : List Char) : Bool :=
  atSeparation cs || cs.head?.any fun c => ['?', ':', ',', ']', '}', '%', '@', '\x60'].contains c

/-- The name behind the mark of an anchor or an alias, and the position behind it. -/
def anchorName? (p : Position) : Option (String × Position) :=
  let (name, stop) := p.skip.takeWhile isNameChar
  if name.isEmpty || !endsAnchor stop.rest then none else some (String.ofList name, stop)

/-! ### Tags -/

/-- The characters of a tag. In angles, it may also hold a comma and square brackets. -/
def isTagChar (inAngles : Bool) (c : Char) : Bool :=
  isNameChar c ||
    [';', '/', '?', ':', '@', '&', '=', '+', '$', '.', '!', '~', '*', '\'', '(', ')'].contains c ||
    (inAngles && [',', '[', ']'].contains c)

/-- How many more octets belong to a character of which `octet` is one, where `pending` were
expected. -/
def octetsAfter? (pending octet : Nat) : Option Nat :=
  match pending with
  | n + 1 => if 0x80 ≤ octet ∧ octet < 0xc0 then some n else none
  | 0 =>
    if octet < 0x80 then some 0
    else if octet < 0xc0 then none
    else if octet < 0xe0 then some 1
    else if octet < 0xf0 then some 2
    else if octet < 0xf8 then some 3
    else none

/-- The octets of a tag and the characters behind it. A percent sign and two digits stand for
one octet; `pending` more of them have to follow. -/
def tagOctets? (inAngles : Bool) (pending : Nat) : List Char → Option (List UInt8 × List Char)
  | '%' :: a :: b :: rest =>
    (hexDigit? a).bind fun high => (hexDigit? b).bind fun low =>
      (octetsAfter? pending (16 * high + low)).bind fun pending =>
        (tagOctets? inAngles pending rest).map fun r => ((16 * high + low).toUInt8 :: r.1, r.2)
  | c :: rest =>
    if pending ≠ 0 ∨ c = '%' then none
    else if isTagChar inAngles c then
      (tagOctets? inAngles 0 rest).map fun r => (c.toNat.toUInt8 :: r.1, r.2)
    else some ([], c :: rest)
  | [] => if pending = 0 then some ([], []) else none

/-- The octets at a position, up to one that is zero, and the position behind all of them. -/
def readOctets? (inAngles : Bool) (p : Position) : Option (List UInt8 × Position) :=
  (tagOctets? inAngles 0 p.rest).map fun r =>
    (r.1.takeWhile (· ≠ 0), p.drop (p.rest.length - r.2.length))

/-- A tag as it is written. Without a handle the suffix is the whole tag. -/
structure Tag where
  handle : List UInt8
  suffix : List UInt8
  deriving DecidableEq

/-- The octet of an exclamation mark. -/
def exclamation : UInt8 := 0x21

/-- A handle: an exclamation mark, and perhaps a name behind it, which a second one may end. -/
def readHandle? (p : Position) : Option (List UInt8 × Position) :=
  if p.nextIs '!' then
    let (name, stop) := p.skip.takeWhile isNameChar
    let octets := exclamation :: name.map (·.toNat.toUInt8)
    if stop.nextIs '!' then some (octets ++ [exclamation], stop.skip) else some (octets, stop)
  else none

/-- Whether a handle ends in a second exclamation mark. -/
def isFullHandle (handle : List UInt8) : Bool :=
  1 < handle.length && handle.getLast? == some exclamation

/-- The tag without the mark of its end. -/
def readTagText? (p : Position) : Option (Tag × Position) :=
  if p.skip.nextIs '<' then
    (readOctets? true (p.drop 2)).bind fun (octets, stop) =>
      if stop.rest.length = (p.drop 2).rest.length ∨ !stop.nextIs '>' then none
      else some (⟨[], octets⟩, stop.skip)
  else
    (readHandle? p).bind fun (handle, start) =>
    (readOctets? false start).bind fun (octets, stop) =>
      if isFullHandle handle then
        if stop.rest.length = start.rest.length then none else some (⟨handle, octets⟩, stop)
      else
        let suffix := handle.tail ++ octets
        if suffix = [] then some (⟨[], [exclamation]⟩, stop)
        else some (⟨[exclamation], suffix⟩, stop)

/-- The tag at a position. It ends at a space, or inside brackets at a comma. -/
def readTag? (inBrackets : Bool) (p : Position) : Option (Tag × Position) :=
  (readTagText? p).bind fun (tag, stop) =>
    if atSeparation stop.rest || (inBrackets && stop.nextIs ',') then some (tag, stop) else none

/-! ### Directives -/

inductive Directive where
  /-- The version of YAML. -/
  | version (major minor : Nat)
  /-- What a handle stands for. -/
  | tag (handle start : List UInt8)
  deriving DecidableEq

/-- A number of at most nine digits. -/
def readVersionNumber? (p : Position) : Option (Nat × Position) :=
  let (digits, stop) := p.takeWhile Char.isDigit
  if digits.isEmpty || 9 < digits.length then none
  else some (digits.foldl (fun n c => 10 * n + (c.toNat - 48)) 0, stop)

/-- What stands behind the name of a directive. -/
def readDirectiveValue? (name : String) (p : Position) : Option (Directive × Position) :=
  if name = "YAML" then
    (readVersionNumber? p.skipSpaces).bind fun (major, dot) =>
      if dot.nextIs '.' then
        (readVersionNumber? dot.skip).map fun (minor, stop) => (.version major minor, stop)
      else none
  else if name = "TAG" then
    (readHandle? p.skipSpaces).bind fun (handle, space) =>
      if (handle = [exclamation] ∨ isFullHandle handle) ∧ space.rest.head?.any isSpace then
        (readOctets? true space.skipSpaces).bind fun (start, stop) =>
          if stop.rest.length = space.skipSpaces.rest.length ∨ !atSeparation stop.rest then none
          else some (.tag handle start, stop)
      else none
  else none

/-- The directive whose percent sign stands at a position. It ends its line, but for a comment. -/
def readDirective? (p : Position) : Option (Directive × Position) :=
  let (name, space) := p.skip.takeWhile isNameChar
  if !atSeparation space.rest then none
  else
    (readDirectiveValue? (String.ofList name) space).bind fun (directive, stop) =>
      let stop := stop.skipSpaces
      let stop := if stop.nextIs '#' then stop.skipLine else stop
      if stop.atLineEnd then some (directive, stop.skip) else none

end Yaml
end CommandConsole
