/-
# Localized names and descriptions

A localizer gives extra names and descriptions for keys. The key of a command
is made of its full name, that of an argument of the full name of its command
and the argument's own name.

Key definitions: `Localizer`, `commandKey`, `argumentKey`, `LocaleTable`.
-/

namespace CommandConsole

structure Localizer where
  /-- Further names under which the item with this key may be typed. -/
  names : String → List String
  description? : String → Option String

/-- The further names that a localizer gives, or none without a localizer. -/
def Localizer.namesFor (l : Option Localizer) (key : String) : List String :=
  match l with
  | none => []
  | some l => l.names key

def commandKey (fullName : String) : String := "command." ++ fullName

def argumentKey (commandFullName argument : String) : String :=
  "argument." ++ commandFullName ++ "." ++ argument

/-- A localizer in two tables. -/
structure LocaleTable where
  names : List (String × List String)
  descriptions : List (String × String)

namespace LocaleTable

instance : Inhabited LocaleTable := ⟨⟨[], []⟩⟩

/-- The entry of a table under a key. -/
def lookup? {α : Type} (table : List (String × α)) (key : String) : Option α :=
  (table.find? fun e => e.1 == key).map (·.2)

/-- The table with `value` under a key, in the place of an earlier entry if there is one. -/
def put {α : Type} (table : List (String × α)) (key : String) (value : α) : List (String × α) :=
  if (lookup? table key).isSome then table.map fun e => if e.1 == key then (key, value) else e
  else table ++ [(key, value)]

/-- Adds names behind those that the key has. -/
def withNames (t : LocaleTable) (key : String) (names : List String) : LocaleTable :=
  { t with names := put t.names key ((lookup? t.names key).getD [] ++ names) }

/-- Sets the description of the key. -/
def withDescription (t : LocaleTable) (key text : String) : LocaleTable :=
  { t with descriptions := put t.descriptions key text }

def toLocalizer (t : LocaleTable) : Localizer :=
  ⟨fun key => (lookup? t.names key).getD [], fun key => lookup? t.descriptions key⟩

end LocaleTable
end CommandConsole
