/-
# Arguments

A command declares arguments, each with a type. An argument may be optional,
may have a default, and may take several values. Some commands have arguments
that depend on what has been bound before: their arguments come from a supplier.

Key definitions: `Argument`, `BoundArgument`, `ArgumentSource`, `ArgumentSource.remaining`.
-/
import CommandConsole.ArgType.Convert
import CommandConsole.Context.Information

namespace CommandConsole

/-- How many values an argument takes. -/
inductive Multiplicity where
  | single
  /-- A list or a map in one literal; a list also as a run of values. -/
  | multiple
  /-- A run of values, each of the type of the argument. -/
  | vararg
  deriving DecidableEq

def Multiplicity.isMulti : Multiplicity → Bool
  | .single => false
  | .multiple | .vararg => true

structure Argument where
  id : String
  type : ArgType
  isOptional : Bool
  multiplicity : Multiplicity
  /-- The long names; the first is the one that is suggested. -/
  names : List String
  /-- The letter of the short flag. -/
  short : Option Char
  default : Option Value
  description : Option String
  requirements : List Requirement

namespace Argument

/-- A required argument with one value, named like its id. -/
def new (id : String) (type : ArgType) : Argument :=
  ⟨id, type, false, .single, [id], none, none, none, []⟩

/-- An argument with a default is optional. -/
def withDefault (a : Argument) (v : Value) : Argument :=
  { a with default := some v, isOptional := true }

/-- A flag is a truth value that is false unless it is given. -/
def flag (id : String) (short : Char) : Argument :=
  { (new id .bool).withDefault (.bool false) with short := some short }

/-- Replaces the first long name. -/
def named (a : Argument) (name : String) : Argument := { a with names := name :: a.names.tail }

def withAlias (a : Argument) (name : String) : Argument := { a with names := a.names ++ [name] }

def longName (a : Argument) : String := a.names.headD a.id

/-- A switch needs no value: its name alone means true. -/
def isSwitch (a : Argument) : Bool := a.type.isBool && a.multiplicity == .single

/-- The value of an argument for several values that got none. -/
def emptyMultiValue (a : Argument) : Value :=
  match a.multiplicity, a.type.kind with
  | .multiple, .map => .map []
  | _, _ => .list []

/-- The value of an argument that nothing was given for, if it can do without. -/
def fallback? (a : Argument) : Option Value :=
  match a.default with
  | some v => some v
  | none => if a.multiplicity.isMulti then some a.emptyMultiValue else none

end Argument

/-- How an argument got its value. -/
inductive BindOrigin where
  | positional
  | named
  | flag
  | default
  deriving DecidableEq

def BindOrigin.name : BindOrigin → String
  | .positional => "positional"
  | .named => "named"
  | .flag => "flag"
  | .default => "default"

structure BoundArgument where
  id : String
  input : Literal
  value : Value
  origin : BindOrigin

/-- Supplies arguments that depend on what is bound. -/
structure ArgumentSupplier where
  /-- Every argument that can ever be supplied. -/
  all : List Argument
  /-- The arguments that come next, in the order in which values are offered to them. -/
  remaining : List BoundArgument → List Argument

inductive ArgumentSource where
  | static (arguments : List Argument)
  | dynamic (supplier : ArgumentSupplier)

namespace ArgumentSource

def all : ArgumentSource → List Argument
  | .static arguments => arguments
  | .dynamic supplier => supplier.all

/-- Those of which one may be next, bound ones among them. -/
def candidates (s : ArgumentSource) (bound : List BoundArgument) : List Argument :=
  match s with
  | .static arguments => arguments
  | .dynamic supplier => supplier.remaining bound

/-- The arguments that are not bound, in the order in which values are offered to them. -/
def remaining (s : ArgumentSource) (bound : List BoundArgument) : List Argument :=
  (s.candidates bound).filter fun a => !bound.any fun b => b.id == a.id

end ArgumentSource
end CommandConsole
