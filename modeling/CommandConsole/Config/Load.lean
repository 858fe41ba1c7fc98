/-
# Reading a configuration

A configuration is a YAML map. A setting that is missing keeps its default,
and a key that means nothing is passed over; one that stands twice, or has a
value of the wrong type, spoils the whole. The settings are then checked: some
literal has to be readable, and the separator has to be a word by itself.

Key definitions: `ConfigError`, `ParserConfig.ofYaml?`, `ParserConfig.check`,
`ParserConfig.ofText`.
Key theorem: `ParserConfig.check_eq_ok_iff`.
-/
import CommandConsole.Config.Basic
import CommandConsole.Yaml.Node

namespace CommandConsole

inductive ConfigError where
  /-- The file at a path cannot be read. -/
  | unreadable (path : String)
  /-- The text is no YAML map of settings. -/
  | malformed
  /-- No container of a literal may be open. -/
  | zeroDepth
  /-- The separator is no word, or begins like something else. -/
  | badSeparator (separator : String)
  deriving DecidableEq

namespace ConfigError

def code : ConfigError → String
  | .unreadable _ => "conch::config::io"
  | .malformed => "conch::config::yaml"
  | .zeroDepth | .badSeparator _ => "conch::config::invalid"

def message : ConfigError → String
  | .unreadable path => "could not read config file '" ++ path ++ "'"
  | .malformed => "invalid config: not a YAML map of settings"
  | .zeroDepth => "invalid config: max_depth must be at least 1"
  | .badSeparator separator =>
    "invalid config: chain_separator '" ++ separator ++ "' must be a non-empty bare word"

end ConfigError

namespace Yaml

/-- Every scalar can be read as a text, also one that looks like a number. -/
def asText? : Yaml → Option String
  | .scalar _ text _ => some text
  | _ => none

/-- A tag of YAML itself. -/
def coreTag (name : String) : String := "tag:yaml.org,2002:" ++ name

/-- The text of a scalar that writes a value of the kind with a tag: one that is plain, or a
block with that tag which keeps its lines. -/
def asValue? (tag : String) : Yaml → Option String
  | .scalar p text style =>
    if style = .plain ∨ (style = .literal ∧ p.tag = some tag) then some text else none
  | _ => none

def asBool? (node : Yaml) : Option Bool :=
  (node.asValue? (coreTag "bool")).bind fun text =>
    if ["true", "True", "TRUE"].contains text then some true
    else if ["false", "False", "FALSE"].contains text then some false
    else none

/-- The number that some digits write in a base, of which there has to be one. -/
def natInBase? (base : Nat) : List Char → Option Nat
  | [] => none
  | cs => cs.foldlM (fun n c => ((hexDigit? c).filter (· < base)).map (base * n + ·)) 0

/-- The number that these characters write without a sign. A zero in front of more digits
would leave it open whether they are octal. -/
def natOf? : List Char → Option Nat
  | '0' :: 'x' :: ds => natInBase? 16 ds
  | '0' :: 'o' :: ds => natInBase? 8 ds
  | '0' :: 'b' :: ds => natInBase? 2 ds
  | '0' :: _ :: _ => none
  | ds => natInBase? 10 ds

/-- A natural number that fits into 64 bits. -/
def asNat? (node : Yaml) : Option Nat :=
  (node.asValue? (coreTag "int")).bind fun text =>
    let n? := match text.toList with
      | '+' :: cs => natOf? cs
      | cs => natOf? cs
    n?.filter (· < Nat.pow 2 64)

/-- Whether a plain scalar says that there is no value. -/
def isNull (text : String) : Bool := ["~", "null", "Null", "NULL"].contains text

/-- A value that may be missing. A scalar with the tag for that has to say so. -/
def asOption? {α : Type} (read : Yaml → Option α) (node : Yaml) : Option (Option α) :=
  match node with
  | .scalar ⟨_, none⟩ text .plain =>
    if text = "" ∨ isNull text then some none else (read node).map some
  | .scalar ⟨_, some tag⟩ text .plain =>
    if tag ≠ coreTag "null" then (read node).map some
    else if isNull text then some none
    else none
  | _ => (read node).map some

/-- A name. A tag behind an exclamation mark is one too, if there is no value behind it. -/
def asName? : Yaml → Option String
  | .scalar p text style =>
    match (p.tag.getD "").toList with
    | '!' :: name =>
      if style = .plain ∧ (text = "" ∨ isNull text) then some (String.ofList name) else none
    | _ => some text
  | _ => none

/-- The items of a list in a document. A missing value counts as an empty list. -/
def asList? (document : Yaml) : Yaml → Option (List Yaml)
  | .list _ items => some (items.map document.follow)
  | .scalar _ "" .plain => some []
  | _ => none

/-- The entries of a map in a document, whose keys have to be scalars. A missing value counts
as an empty map. -/
def asTable? (document : Yaml) : Yaml → Option (List (String × Yaml))
  | .map _ entries => entries.mapM fun e =>
    (document.follow e.1).asText?.map fun key => (key, document.follow e.2)
  | .scalar _ "" .plain => some []
  | _ => none

/-- The entries of a map with values of one kind. Of two with one key the last counts. -/
def asTableOf? {α : Type} (document : Yaml) (read : Yaml → Option α) (node : Yaml) :
    Option (List (String × α)) :=
  (document.asTable? node).bind fun entries =>
    entries.foldlM (fun table e => (read e.2).map (LocaleTable.put table e.1)) []

end Yaml

/-- The setting `name`, which may not stand twice, or else its default. -/
def setting? {α : Type} (entries : List (String × Yaml)) (name : String) (fallback : α)
    (read : Yaml → Option α) : Option α :=
  match entries.filter fun e => e.1 == name with
  | [] => some fallback
  | [e] => read e.2
  | _ => none

def ShortFlagPolicy.ofYaml? (node : Yaml) : Option ShortFlagPolicy :=
  node.asName?.bind fun name =>
    [ShortFlagPolicy.booleanOnly, .trailingValue].find? fun p => p.name == name

/-- The table of names that a node of a document describes. -/
def LocaleTable.ofYaml? (document node : Yaml) : Option LocaleTable := do
  let entries ← document.asTable? node
  let names ← setting? entries "names" []
    (document.asTableOf? fun v => (document.asList? v).bind fun items => items.mapM Yaml.asText?)
  let descriptions ← setting? entries "descriptions" [] (document.asTableOf? Yaml.asText?)
  some ⟨names, descriptions⟩

namespace ParserConfig

/-- The configuration that a document describes. -/
def ofYaml? (document : Yaml) : Option ParserConfig := do
  let d : ParserConfig := default
  let entries ← document.asTable? document
  let maxDepth ← setting? entries "max_depth" d.maxDepth Yaml.asNat?
  let separator ← setting? entries "chain_separator" d.chainSeparator Yaml.asText?
  let assign ← setting? entries "assign_syntax" d.assignSyntax Yaml.asBool?
  let flags ← setting? entries "short_flags" d.shortFlags ShortFlagPolicy.ofYaml?
  let space ← setting? entries "space_continuation" d.spaceContinuation Yaml.asBool?
  let locale ← setting? entries "locale" d.locale
    (Yaml.asOption? (LocaleTable.ofYaml? document))
  some ⟨maxDepth, separator, assign, flags, space, locale⟩

/-- Whether a text is a word that no literal, string or flag begins like. -/
def isBareWord (text : String) : Bool :=
  match text.toList with
  | [] => false
  | c :: cs => !(['\x7b', '[', '"', '-'].contains c || (c :: cs).any isBlank)

/-- The configuration, if its settings make sense. -/
def check (c : ParserConfig) : Except ConfigError ParserConfig :=
  if c.maxDepth = 0 then .error .zeroDepth
  else if !isBareWord c.chainSeparator then .error (.badSeparator c.chainSeparator)
  else .ok c

theorem check_eq_ok_iff {c d : ParserConfig} :
    c.check = .ok d ↔ 0 < c.maxDepth ∧ isBareWord c.chainSeparator = true ∧ c = d := by
  by_cases hz : c.maxDepth = 0
  · simp [check, hz]
  · by_cases hs : isBareWord c.chainSeparator = true <;>
      simp [check, hz, hs, Nat.pos_of_ne_zero hz]

/-- The configuration in a text. In a blank text every setting has its default. -/
def ofText (text : String) : Except ConfigError ParserConfig :=
  if text.toList.all isBlank then .ok default
  else
    match (Yaml.ofText? text).bind ofYaml? with
    | none => .error .malformed
    | some c => c.check

/-- The configuration in a file, whose text is missing if it cannot be read. -/
def ofFile (path : String) (text : Option String) : Except ConfigError ParserConfig :=
  match text with
  | none => .error (.unreadable path)
  | some text => ofText text

end ParserConfig
end CommandConsole
