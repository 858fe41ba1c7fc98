/-
# The nodes of a YAML text

A document is a node: a scalar, a list, a map, or an alias that names a node in
front of it again. Where a text leaves out a key, a value or an item, an empty
plain scalar stands in for it. A text holds one document, and what its tags say
is written out: the directives in front of it have put texts in the place of
handles.

Key definitions: `Yaml`, `Yaml.node?`, `Yaml.ofTokens?`, `Yaml.ofText?`, `Yaml.follow`.
-/
import CommandConsole.Yaml.Token

namespace CommandConsole

/-- What may stand in front of a node. -/
structure Yaml.Properties where
  /-- The number by which an alias names it. -/
  anchor : Option Nat
  tag : Option String
  deriving DecidableEq

inductive Yaml where
  /-- The node whose anchor has a number. -/
  | alias (number : Nat)
  | scalar (properties : Yaml.Properties) (text : String) (style : Yaml.ScalarStyle)
  | list (properties : Yaml.Properties) (items : List Yaml)
  | map (properties : Yaml.Properties) (entries : List (Yaml × Yaml))

namespace Yaml

/-- What stands in for a node that is left out. -/
def missing : Yaml := .scalar ⟨none, none⟩ "" .plain

/-! ### Tags -/

/-- What handles stand for. -/
abbrev Handles := List (List UInt8 × List UInt8)

/-- What handles stand for without a directive. -/
def defaultHandles : Handles :=
  [([exclamation], [exclamation]),
    ([exclamation, exclamation], "tag:yaml.org,2002:".toUTF8.toList)]

/-- A tag as a text, if its handle stands for something. It is empty if it is no text. -/
def Tag.text? (handles : Handles) (t : Tag) : Option String :=
  let start? := if t.handle = [] then some [] else handles.lookup t.handle
  start?.map fun start =>
    (String.fromUTF8? ⟨(start ++ t.suffix).toArray⟩).getD ""

/-- The properties at the start of some tokens, and the tokens behind them. -/
def properties? (handles : Handles) : List Token → Option (Properties × List Token)
  | .anchor n :: .tag t :: rest => (t.text? handles).map fun tag => (⟨some n, some tag⟩, rest)
  | .tag t :: .anchor n :: rest => (t.text? handles).map fun tag => (⟨some n, some tag⟩, rest)
  | .tag t :: rest => (t.text? handles).map fun tag => (⟨none, some tag⟩, rest)
  | .anchor n :: rest => some (⟨some n, none⟩, rest)
  | rest => some (⟨none, none⟩, rest)

/-- The properties of a scalar, for which an exclamation mark alone is no tag. -/
def Properties.ofScalar (p : Properties) : Properties :=
  ⟨p.anchor, p.tag.filter (· ≠ "!")⟩

/-! ### Nodes -/

/-- Where a node stands. -/
inductive Place where
  | brackets
  /-- A whole document, or an item of a list in blocks. -/
  | item
  /-- In a map in blocks, where the dashes of a list need not be indented. -/
  | entry
  deriving DecidableEq

mutual

/-- The node at the start of some tokens, and the tokens behind it. Each call uses up fuel. -/
def node? (handles : Handles) : Nat → Place → List Token → Option (Yaml × List Token)
  | 0, _, _ => none
  | _ + 1, _, .alias n :: rest => some (.alias n, rest)
  | fuel + 1, place, tokens =>
    (properties? handles tokens).bind fun (p, tokens) =>
      match tokens with
      | .scalar text style :: rest => some (.scalar p.ofScalar text style, rest)
      | .bracketOpen :: rest =>
        (bracketItems? handles fuel rest).map fun (items, rest) => (.list p items, rest)
      | .braceOpen :: rest =>
        (braceEntries? handles fuel rest).map fun (entries, rest) => (.map p entries, rest)
      | first :: rest =>
        if first = .dash ∧ place = .entry then
          (bareItems? handles fuel tokens).map fun (items, rest) => (.list p items, rest)
        else if first = .blockList ∧ place ≠ .brackets then
          (blockItems? handles fuel rest).map fun (items, rest) => (.list p items, rest)
        else if first = .blockMap ∧ place ≠ .brackets then
          (blockEntries? handles fuel rest).map fun (entries, rest) => (.map p entries, rest)
        else if p = ⟨none, none⟩ then none
        else some (.scalar p "" .plain, tokens)
      | [] => if p = ⟨none, none⟩ then none else some (.scalar p "" .plain, [])

/-- The node at the start of some tokens, which is left out if one of `stops` stands there. -/
def nodeBefore? (handles : Handles) :
    Nat → List Token → Place → List Token → Option (Yaml × List Token)
  | 0, _, _, _ => none
  | fuel + 1, stops, place, tokens =>
    if tokens.head?.any (stops.contains ·) then some (missing, tokens)
    else node? handles fuel place tokens

/-- The node behind a colon, if one of `stops` does not stand there. -/
def valueBefore? (handles : Handles) :
    Nat → List Token → Place → List Token → Option (Yaml × List Token)
  | 0, _, _, _ => none
  | fuel + 1, stops, place, tokens =>
    match tokens with
    | .value :: rest => nodeBefore? handles fuel stops place rest
    | rest => some (missing, rest)

/-- The items of a list in blocks, and the tokens behind its end. -/
def blockItems? (handles : Handles) : Nat → List Token → Option (List Yaml × List Token)
  | 0, _ => none
  | fuel + 1, tokens =>
    match tokens with
    | .dash :: rest =>
      (nodeBefore? handles fuel [.dash, .blockEnd] .item rest).bind fun (item, rest) =>
        (blockItems? handles fuel rest).map fun (items, rest) => (item :: items, rest)
    | .blockEnd :: rest => some ([], rest)
    | _ => none

/-- The items of a list that has the indentation of the map around it, and the tokens behind
them. -/
def bareItems? (handles : Handles) : Nat → List Token → Option (List Yaml × List Token)
  | 0, _ => none
  | fuel + 1, tokens =>
    match tokens with
    | .dash :: rest =>
      (nodeBefore? handles fuel [.dash, .key, .value, .blockEnd] .item rest).bind
        fun (item, rest) =>
          (bareItems? handles fuel rest).map fun (items, rest) => (item :: items, rest)
    | rest => some ([], rest)

/-- The entries of a map in blocks, and the tokens behind its end. -/
def blockEntries? (handles : Handles) : Nat → List Token → Option (List (Yaml × Yaml) × List Token)
  | 0, _ => none
  | fuel + 1, tokens =>
    let stops := [.key, .value, .blockEnd]
    match tokens with
    | .key :: rest =>
      (nodeBefore? handles fuel stops .entry rest).bind fun (key, rest) =>
      (valueBefore? handles fuel stops .entry rest).bind fun (value, rest) =>
        (blockEntries? handles fuel rest).map fun (entries, rest) => ((key, value) :: entries, rest)
    | .blockEnd :: rest => some ([], rest)
    | _ => none

/-- The items behind an opening bracket or a comma, and the tokens behind the closing bracket. -/
def bracketItems? (handles : Handles) : Nat → List Token → Option (List Yaml × List Token)
  | 0, _ => none
  | fuel + 1, tokens =>
    if tokens.head? = some .bracketClose then some ([], tokens.tail)
    else
      (bracketItem? handles fuel tokens).bind fun (item, rest) =>
        match rest with
        | .comma :: rest =>
          (bracketItems? handles fuel rest).map fun (items, rest) => (item :: items, rest)
        | .bracketClose :: rest => some ([item], rest)
        | _ => none

/-- An item of a list in brackets, which may be one entry of a map. Its key may be left out,
but then the token that shows this is lost. -/
def bracketItem? (handles : Handles) : Nat → List Token → Option (Yaml × List Token)
  | 0, _ => none
  | fuel + 1, tokens =>
    match tokens with
    | .key :: rest =>
      let key? :=
        if rest.head?.any ([.value, .comma, .bracketClose].contains ·) then
          some (missing, rest.tail)
        else node? handles fuel .brackets rest
      key?.bind fun (key, rest) =>
        (valueBefore? handles fuel [.comma, .bracketClose] .brackets rest).map
          fun (value, rest) => (.map ⟨none, none⟩ [(key, value)], rest)
    | tokens => node? handles fuel .brackets tokens

/-- The entries behind an opening brace or a comma, and the tokens behind the closing brace. -/
def braceEntries? (handles : Handles) : Nat → List Token → Option (List (Yaml × Yaml) × List Token)
  | 0, _ => none
  | fuel + 1, tokens =>
    if tokens.head? = some .braceClose then some ([], tokens.tail)
    else
      (bracePair? handles fuel tokens).bind fun (entry, rest) =>
        match rest with
        | .comma :: rest =>
          (braceEntries? handles fuel rest).map fun (entries, rest) => (entry :: entries, rest)
        | .braceClose :: rest => some ([entry], rest)
        | _ => none

/-- An entry of a map in braces. What no colon follows is a key without a value. -/
def bracePair? (handles : Handles) : Nat → List Token → Option ((Yaml × Yaml) × List Token)
  | 0, _ => none
  | fuel + 1, tokens =>
    match tokens with
    | .key :: rest =>
      (nodeBefore? handles fuel [.value, .comma, .braceClose] .brackets rest).bind
        fun (key, rest) =>
          (valueBefore? handles fuel [.comma, .braceClose] .brackets rest).map
            fun (value, rest) => ((key, value), rest)
    | tokens =>
      (node? handles fuel .brackets tokens).map fun (key, rest) => ((key, missing), rest)

end

/-! ### Documents -/

/-- The directives at the start of some tokens, and the tokens behind them. -/
def takeDirectives : List Token → List Directive × List Token
  | .directive d :: rest =>
    let r := takeDirectives rest
    (d :: r.1, r.2)
  | rest => ([], rest)

/-- What handles stand for behind some directives. These may name one version, which has to be
1.1 or 1.2, and a handle once. -/
def Handles.ofDirectives? (directives : List Directive) : Option Handles :=
  let versions := directives.filterMap fun
    | .version major minor => some (major, minor)
    | _ => none
  let handles := directives.filterMap fun
    | .tag handle start => some (handle, start)
    | _ => none
  if versions.length ≤ 1 ∧ (versions.all fun v => v == (1, 1) || v == (1, 2)) ∧
      (handles.map (·.1)).Nodup then
    some (handles ++ defaultHandles)
  else none

/-- Whether a token ends the document in front of it, or begins another. -/
def endsDocument : Token → Bool
  | .directive _ | .documentStart | .documentEnd => true
  | _ => false

/-- The node of the document at the start of some tokens, and the tokens behind it. A document
may be empty behind the mark that starts it, which has to stand behind directives. -/
def document? (handles : Handles) (marked : Bool) (tokens : List Token) :
    Option (Yaml × List Token) :=
  match tokens with
  | .documentStart :: rest =>
    if rest.head?.all endsDocument then some (missing, rest)
    else node? handles (4 * rest.length + 4) .item rest
  | rest => if marked then none else node? handles (4 * rest.length + 4) .item rest

/-- The node that some tokens make up. Behind it may stand marks of its end only. -/
def ofTokens? (tokens : List Token) : Option Yaml :=
  if tokens = [] then some missing
  else
    let (directives, rest) := takeDirectives tokens
    (Handles.ofDirectives? directives).bind fun handles =>
    (document? handles (directives ≠ []) rest).bind fun (node, rest) =>
      if rest.all (· = .documentEnd) then some node else none

/-- The node that a text describes, if it is a document. -/
def ofText? (text : String) : Option Yaml :=
  let cs := text.toList
  if cs.all isAllowed then (tokens? (normalizeBreaks cs)).bind ofTokens?
  else none

/-! ### Aliases -/

mutual

/-- A node and the nodes inside, in the order in which they begin. -/
def nodes : Yaml → List Yaml
  | .alias n => [.alias n]
  | .scalar p text style => [.scalar p text style]
  | .list p items => .list p items :: nodesOfItems items
  | .map p entries => .map p entries :: nodesOfEntries entries

def nodesOfItems : List Yaml → List Yaml
  | [] => []
  | node :: items => node.nodes ++ nodesOfItems items

def nodesOfEntries : List (Yaml × Yaml) → List Yaml
  | [] => []
  | (key, value) :: entries => key.nodes ++ value.nodes ++ nodesOfEntries entries

end

/-- The number by which an alias names a node. -/
def anchor? : Yaml → Option Nat
  | .alias _ => none
  | .scalar p _ _ | .list p _ | .map p _ => p.anchor

/-- The node that a node of a document stands for: an alias for the last one with its number. -/
def follow (document : Yaml) : Yaml → Yaml
  | .alias n => (document.nodes.reverse.find? fun node => node.anchor? == some n).getD missing
  | node => node

end Yaml
end CommandConsole
