/-
# Byte spans

Offsets count bytes of the UTF-8 form of a text. A span runs from `start` up
to, and without, `stop`; one whose `stop` does not lie after its `start` is
empty.

Key definitions: `Span`, `Span.cover`, `Span.Encloses`.
-/

namespace CommandConsole

structure Span where
  start : Nat
  stop : Nat
  deriving DecidableEq

namespace Span

instance : Inhabited Span := ⟨⟨0, 0⟩⟩

/-- The empty span at a position. -/
def point (position : Nat) : Span := ⟨position, position⟩

def length (s : Span) : Nat := s.stop - s.start

def isEmpty (s : Span) : Bool := s.length == 0

def contains (s : Span) (position : Nat) : Bool :=
  s.start ≤ position && position < s.stop

/-- The smallest span that encloses both. -/
def cover (s t : Span) : Span := ⟨min s.start t.start, max s.stop t.stop⟩

/-- Every position of `t` lies in `s`, the end of `t` included. -/
def Encloses (s t : Span) : Prop := s.start ≤ t.start ∧ t.stop ≤ s.stop

instance (s t : Span) : Decidable (s.Encloses t) :=
  inferInstanceAs (Decidable (_ ∧ _))

theorem cover_encloses_left (s t : Span) : (s.cover t).Encloses s :=
  ⟨Nat.min_le_left _ _, Nat.le_max_left _ _⟩

theorem cover_encloses_right (s t : Span) : (s.cover t).Encloses t :=
  ⟨Nat.min_le_right _ _, Nat.le_max_right _ _⟩

/-- The span that covers a list of spans, and `0..0` for none. -/
def coverAll : List Span → Span
  | [] => ⟨0, 0⟩
  | s :: rest => rest.foldl cover s

end Span
end CommandConsole
