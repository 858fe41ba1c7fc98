/-
# Literal trees

A literal is one untyped value of a command line: a scalar, a list, a map, or
nothing at all. Every node carries the span it was read from, so that a
failure can point back into the line; two literals are the same when they
differ in spans only.

Key definitions: `Literal`, `Literal.kind`, `Literal.same`, `Literal.unspanned`,
`Literal.depth`.
Key theorem: `Literal.same_iff`.
-/
import CommandConsole.Text.Span

namespace CommandConsole

inductive Literal where
  /-- Stands where an argument got no input. The grammar has no spelling for it. -/
  | empty (span : Span)
  | scalar (text : String) (span : Span)
  | list (items : List Literal) (span : Span)
  | map (entries : List (Literal × Literal)) (span : Span)

/-- The shapes of literals. -/
inductive LiteralKind where
  | empty
  | scalar
  | list
  | map
  deriving DecidableEq

/-- The name of the shape in JSON documents. -/
def LiteralKind.name : LiteralKind → String
  | .empty => "empty"
  | .scalar => "single"
  | .list => "list"
  | .map => "map"

def LiteralKind.describe : LiteralKind → String
  | .empty => "nothing"
  | .scalar => "a single value"
  | .list => "a list"
  | .map => "a map"

namespace Literal

instance : Inhabited Literal := ⟨.empty default⟩

def span : Literal → Span
  | .empty s | .scalar _ s | .list _ s | .map _ s => s

def kind : Literal → LiteralKind
  | .empty _ => .empty
  | .scalar _ _ => .scalar
  | .list _ _ => .list
  | .map _ _ => .map

def asScalar? : Literal → Option String
  | .scalar text _ => some text
  | _ => none

def isEmpty : Literal → Bool
  | .empty _ => true
  | _ => false

mutual

/-- Equality up to spans. -/
def same : Literal → Literal → Bool
  | .empty _, .empty _ => true
  | .scalar a _, .scalar b _ => a == b
  | .list as _, .list bs _ => sameItems as bs
  | .map as _, .map bs _ => sameEntries as bs
  | _, _ => false

def sameItems : List Literal → List Literal → Bool
  | [], [] => true
  | a :: as, b :: bs => same a b && sameItems as bs
  | _, _ => false

def sameEntries : List (Literal × Literal) → List (Literal × Literal) → Bool
  | [], [] => true
  | (k, v) :: as, (l, w) :: bs => same k l && same v w && sameEntries as bs
  | _, _ => false

end

mutual

/-- The literal with every span forgotten. -/
def unspanned : Literal → Literal
  | .empty _ => .empty default
  | .scalar text _ => .scalar text default
  | .list items _ => .list (unspannedItems items) default
  | .map entries _ => .map (unspannedEntries entries) default

def unspannedItems : List Literal → List Literal
  | [] => []
  | i :: is => unspanned i :: unspannedItems is

def unspannedEntries : List (Literal × Literal) → List (Literal × Literal)
  | [] => []
  | (k, v) :: es => (unspanned k, unspanned v) :: unspannedEntries es

end

mutual

/-- How many containers are open around the deepest node. -/
def depth : Literal → Nat
  | .empty _ | .scalar _ _ => 0
  | .list items _ => depthItems items + 1
  | .map entries _ => depthEntries entries + 1

def depthItems : List Literal → Nat
  | [] => 0
  | i :: is => max (depth i) (depthItems is)

def depthEntries : List (Literal × Literal) → Nat
  | [] => 0
  | (k, v) :: es => max (max (depth k) (depth v)) (depthEntries es)

end

mutual

theorem same_iff : ∀ a b : Literal, same a b = true ↔ unspanned a = unspanned b
  | .empty _, b => by cases b <;> simp [same, unspanned]
  | .scalar _ _, b => by cases b <;> simp [same, unspanned]
  | .list as _, b => by cases b <;> simp [same, unspanned, sameItems_iff as]
  | .map as _, b => by cases b <;> simp [same, unspanned, sameEntries_iff as]

theorem sameItems_iff : ∀ as bs : List Literal,
    sameItems as bs = true ↔ unspannedItems as = unspannedItems bs
  | [], bs => by cases bs <;> simp [sameItems, unspannedItems]
  | a :: as, bs => by
    cases bs <;> simp [sameItems, unspannedItems, same_iff a, sameItems_iff as]

theorem sameEntries_iff : ∀ as bs : List (Literal × Literal),
    sameEntries as bs = true ↔ unspannedEntries as = unspannedEntries bs
  | [], bs => by cases bs <;> simp [sameEntries, unspannedEntries]
  | (k, v) :: as, bs => by
    cases bs <;>
      simp [sameEntries, unspannedEntries, same_iff k, same_iff v, sameEntries_iff as, and_assoc]

end

end Literal
end CommandConsole
