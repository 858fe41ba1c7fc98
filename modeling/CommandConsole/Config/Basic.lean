/-
# Configuration of the parser

Key definitions: `ShortFlagPolicy`, `ParserConfig`, `ParserConfig.tokenRules`.
-/
import CommandConsole.Context.Locale
import CommandConsole.Token.Reader

namespace CommandConsole

/-- How a bundle of short flags such as `-rfo` is read. -/
inductive ShortFlagPolicy where
  /-- Every letter names a switch. -/
  | booleanOnly
  /-- The last letter may name an argument that takes a value; the value is the next token. -/
  | trailingValue
  deriving DecidableEq

def ShortFlagPolicy.name : ShortFlagPolicy → String
  | .booleanOnly => "boolean_only"
  | .trailingValue => "trailing_value"

structure ParserConfig where
  /-- How many containers of a literal may be open in each other. -/
  maxDepth : Nat
  /-- The word that ends one command and begins the next. -/
  chainSeparator : String
  /-- Whether `--name=value` assigns a value. -/
  assignSyntax : Bool
  shortFlags : ShortFlagPolicy
  /-- Whether a space is suggested behind a word that is already a whole name. -/
  spaceContinuation : Bool
  locale : Option LocaleTable

namespace ParserConfig

instance : Inhabited ParserConfig := ⟨⟨defaultMaxDepth, "&", true, .trailingValue, true, none⟩⟩

def tokenRules (c : ParserConfig) : TokenRules := ⟨c.chainSeparator, c.assignSyntax, c.maxDepth⟩

/-- The tokens of a line. -/
def tokensOf (c : ParserConfig) (text : String) : Tokens := Tokens.ofText c.tokenRules text

end ParserConfig
end CommandConsole
