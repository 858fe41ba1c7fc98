/-
# The literal grammar

    value    := map | list | scalar
    map      := '{' (entry (',' entry)*)? '}'
    entry    := value '=' value
    list     := '[' (value (',' value)*)? ']'
    scalar   := quoted | bareword

The reader goes through the text once, from left to right, and holds the
containers that are open at its cursor with the parts read so far, innermost
first. A step either reads what can start a value, or puts a finished value
into the innermost container. Nothing half-built is lost, so a failure can
name the frames that are open around it.

Key definitions: `OpenContainer`, `Reading`, `Reading.step`, `Reading.run`,
`readValue`, `parseLiteral`.
Key theorems: `Reading.step_measure_lt`, `Reading.run_go`.
-/
import CommandConsole.Literal.Failure
import CommandConsole.Literal.Render
import CommandConsole.Literal.Scalar

namespace CommandConsole

/-- A container that has been opened and not yet closed, with its finished parts. -/
inductive OpenContainer where
  /-- A list that waits for an element. -/
  | list (start : Nat) (items : List Literal)
  /-- A map that waits for a key. -/
  | mapKey (start : Nat) (entries : List (Literal × Literal))
  /-- A map that waits for the value of `key`. -/
  | mapValue (start : Nat) (entries : List (Literal × Literal)) (key : Literal)

namespace OpenContainer

def frame : OpenContainer → Frame
  | .list _ items => .list items.length
  | .mapKey _ entries => .mapKey entries.length (entries.map fun e => e.1.keyText)
  | .mapValue _ entries key => .mapValue entries.length key.keyText

/-- The closing character that may stand in place of a value: only before the first one. -/
def freshCloser : OpenContainer → List Char
  | .list _ [] => [']']
  | .mapKey _ [] => ['}']
  | _ => []

end OpenContainer

inductive Phase where
  /-- A value comes next. -/
  | value
  /-- A value has just ended. -/
  | after (v : Literal)

/-- A literal that has been read up to a cursor. -/
structure Reading where
  phase : Phase
  /-- The open containers, innermost first. -/
  opened : List OpenContainer
  lastScalar : Option ScalarTrace
  cursor : Cursor

/-- What a step of the reader comes to. -/
inductive Move where
  | go (next : Reading)
  | done (v : Literal) (rest : Cursor)
  | stuck (failure : LiteralFailure)

namespace Reading

/-- The reading of a value that starts at a cursor. -/
def start (c : Cursor) : Reading := ⟨.value, [], none, c⟩

/-- How deep in containers the cursor is. -/
def depth (r : Reading) : Nat := r.opened.length

def place (r : Reading) : Place := if r.opened = [] then .topLevel else .nested

def frames (r : Reading) : List Frame := (r.opened.map OpenContainer.frame).reverse

def failAt (r : Reading) (kind : LiteralFailKind) (position : Nat) : Move :=
  .stuck ⟨kind, position, r.frames, r.lastScalar⟩

def expect (r : Reading) (chars : List Char) (value : Bool) (c : Cursor) : Move :=
  r.failAt (.tokenExpected ⟨chars, value⟩) c.offset

/-- The reading after a scalar that `scan` found at the cursor. -/
def acceptScalar (r : Reading) (scan : ScalarScan) : Reading :=
  let text := String.ofList scan.text
  let span : Span := ⟨r.cursor.offset, scan.stop⟩
  ⟨.after (.scalar text span), r.opened, some ⟨text, span, r.depth, !scan.closed⟩, scan.after⟩

def acceptBareword (r : Reading) : Reading :=
  r.acceptScalar (scanBareword r.place 0 r.cursor.offset r.cursor.rest)

/-- The closing character that may stand at the cursor in place of a value. -/
def freshCloser (r : Reading) : List Char :=
  match r.opened with
  | [] => []
  | top :: _ => top.freshCloser

/-- Opens a container at its bracket, or closes it at once if nothing is in it. -/
def enter (limit : Nat) (r : Reading) (fresh : OpenContainer) (closer : Char)
    (close : Span → Literal) : Move :=
  if limit ≤ r.depth then r.failAt (.nestingLimitExceeded limit) r.cursor.offset
  else
    let inside := r.cursor.advance.skipBlanks
    if inside.peek = some closer then
      let stop := inside.advance
      .go { r with phase := .after (close (r.cursor.spanTo stop)), cursor := stop }
    else .go { r with opened := fresh :: r.opened, cursor := inside }

/-- Starts the value at the cursor. In a container a value cannot start with a
separator or a closing character, nor at the end of the text. -/
def beginValue (limit : Nat) (r : Reading) : Move :=
  match r.cursor.peek with
  | none => if r.opened = [] then .go r.acceptBareword else r.expect r.freshCloser true r.cursor
  | some ch =>
    if r.opened ≠ [] ∧ Place.nested.ends ch then r.expect r.freshCloser true r.cursor
    else if ch = '{' then enter limit r (.mapKey r.cursor.offset []) '}' (.map [])
    else if ch = '[' then enter limit r (.list r.cursor.offset []) ']' (.list [])
    else if ch = '"' then
      let scan := scanQuoted r.cursor.advance.offset r.cursor.advance.rest
      if scan.closed then .go (r.acceptScalar scan)
      else (r.acceptScalar scan).expect ['"'] false scan.after
    else .go r.acceptBareword

/-- Puts the value `v`, which ends at the cursor, where it belongs. -/
def endValue (r : Reading) (v : Literal) : Move :=
  let c := r.cursor.skipBlanks
  let proceed (top : OpenContainer) (outer : List OpenContainer) : Move :=
    .go ⟨.value, top :: outer, r.lastScalar, c.advance.skipBlanks⟩
  let close (whole : Span → Literal) (start : Nat) (outer : List OpenContainer) : Move :=
    .go ⟨.after (whole ⟨start, c.advance.offset⟩), outer, r.lastScalar, c.advance⟩
  match r.opened with
  | [] => .done v r.cursor
  | .list start items :: outer =>
    if c.peek = some ',' then proceed (.list start (items ++ [v])) outer
    else if c.peek = some ']' then close (.list (items ++ [v])) start outer
    else r.expect [',', ']'] false c
  | .mapKey start entries :: outer =>
    if c.peek = some '=' then proceed (.mapValue start entries v) outer
    else r.expect ['='] false c
  | .mapValue start entries key :: outer =>
    if c.peek = some ',' then proceed (.mapKey start (entries ++ [(key, v)])) outer
    else if c.peek = some '}' then close (.map (entries ++ [(key, v)])) start outer
    else r.expect [',', '}'] false c

def step (limit : Nat) (r : Reading) : Move :=
  match r.phase with
  | .value => r.beginValue limit
  | .after v => r.endValue v

theorem enter_full {limit : Nat} {r : Reading} (h : limit ≤ r.depth) (fresh : OpenContainer)
    (closer : Char) (close : Span → Literal) :
    r.enter limit fresh closer close =
      r.failAt (.nestingLimitExceeded limit) r.cursor.offset := by
  simp [enter, h]

theorem enter_empty {limit : Nat} {r : Reading} {closer : Char} (h : r.depth < limit)
    (hc : r.cursor.advance.skipBlanks.peek = some closer) (fresh : OpenContainer)
    (close : Span → Literal) :
    r.enter limit fresh closer close =
      .go { r with
        phase := .after (close (r.cursor.spanTo r.cursor.advance.skipBlanks.advance))
        cursor := r.cursor.advance.skipBlanks.advance } := by
  simp [enter, Nat.not_le.mpr h, hc]

theorem enter_inside {limit : Nat} {r : Reading} {closer : Char} (h : r.depth < limit)
    (hc : r.cursor.advance.skipBlanks.peek ≠ some closer) (fresh : OpenContainer)
    (close : Span → Literal) :
    r.enter limit fresh closer close =
      .go { r with opened := fresh :: r.opened, cursor := r.cursor.advance.skipBlanks } := by
  simp [enter, Nat.not_le.mpr h, hc]

theorem beginValue_quote {limit : Nat} {r : Reading} {cs : List Char}
    (h : r.cursor.rest = '"' :: cs) :
    r.beginValue limit =
      let scan := scanQuoted r.cursor.advance.offset cs
      if scan.closed then .go (r.acceptScalar scan)
      else (r.acceptScalar scan).expect ['"'] false scan.after := by
  simp [beginValue, Cursor.peek_of_rest h, Place.ends, h]

theorem beginValue_bracket {limit : Nat} {r : Reading} {cs : List Char}
    (h : r.cursor.rest = '[' :: cs) :
    r.beginValue limit = r.enter limit (.list r.cursor.offset []) ']' (.list []) := by
  simp [beginValue, Cursor.peek_of_rest h, Place.ends]

theorem beginValue_brace {limit : Nat} {r : Reading} {cs : List Char}
    (h : r.cursor.rest = '\x7b' :: cs) :
    r.beginValue limit = r.enter limit (.mapKey r.cursor.offset []) '\x7d' (.map []) := by
  simp [beginValue, Cursor.peek_of_rest h, Place.ends]

theorem beginValue_char {limit : Nat} {r : Reading} {c : Char} {cs : List Char}
    (h : r.cursor.rest = c :: cs) (he : Place.nested.ends c = false) (ho : opensGroup c = false) :
    r.beginValue limit = .go r.acceptBareword := by
  simp only [opensGroup, List.contains_cons, List.contains_nil, Bool.or_false, Bool.or_eq_false_iff,
    beq_eq_false_iff_ne] at ho
  simp [beginValue, Cursor.peek_of_rest h, he, ho]

/-- Every step reads a character or ends a value. -/
def measure (r : Reading) : Nat :=
  2 * r.cursor.rest.length + match r.phase with
    | .value => 1
    | .after _ => 0

theorem enter_measure_lt {limit : Nat} {r next : Reading} {fresh : OpenContainer} {closer ch : Char}
    {close : Span → Literal} (hp : r.phase = .value) (hc : r.cursor.peek = some ch)
    (h : r.enter limit fresh closer close = .go next) : next.measure < r.measure := by
  have h1 := Cursor.advance_rest_length_lt hc
  have h2 := r.cursor.advance.skipBlanks_rest_length_le
  have h3 := r.cursor.advance.skipBlanks.advance_rest_length_le
  unfold enter at h
  split at h
  · simp [failAt] at h
  · dsimp only at h
    split at h <;> cases h <;> simp only [measure, hp] <;> omega

theorem acceptBareword_rest_length_le (r : Reading) :
    r.acceptBareword.cursor.rest.length ≤ r.cursor.rest.length :=
  scanBareword_after_length_le r.place 0 r.cursor.offset r.cursor.rest

theorem beginValue_measure_lt {limit : Nat} {r next : Reading} (hp : r.phase = .value)
    (h : r.beginValue limit = .go next) : next.measure < r.measure := by
  have hq := scanQuoted_after_length_le r.cursor.advance.offset r.cursor.advance.rest
  have ha := r.cursor.advance_rest_length_le
  have hb : r.acceptBareword.measure < r.measure := by
    have := r.acceptBareword_rest_length_le
    simp only [measure, acceptBareword, acceptScalar, hp] at this ⊢
    omega
  unfold beginValue at h
  split at h
  · split at h
    · cases h
      exact hb
    · simp [expect, failAt] at h
  · rename_i ch hc
    split at h
    · simp [expect, failAt] at h
    · split at h
      · exact enter_measure_lt hp hc h
      · split at h
        · exact enter_measure_lt hp hc h
        · split at h
          · dsimp only at h
            split at h
            · cases h
              simp only [measure, acceptScalar, hp]
              omega
            · simp [expect, failAt] at h
          · cases h
            exact hb

theorem endValue_measure_lt {r next : Reading} {v : Literal} (hp : r.phase = .after v)
    (h : r.endValue v = .go next) : next.measure < r.measure := by
  have h1 := r.cursor.skipBlanks_rest_length_le
  have h2 := r.cursor.skipBlanks.advance.skipBlanks_rest_length_le
  have h3 : ∀ ch, r.cursor.skipBlanks.peek = some ch → _ :=
    fun _ hc => Cursor.advance_rest_length_lt hc
  unfold endValue at h
  dsimp only [expect, failAt] at h
  repeat' split at h
  all_goals first
    | contradiction
    | (cases h
       have := h3 _ (by assumption)
       simp only [measure, hp]
       omega)

theorem step_measure_lt {limit : Nat} {r next : Reading} (h : r.step limit = .go next) :
    next.measure < r.measure := by
  unfold step at h
  split at h
  · exact beginValue_measure_lt (by assumption) h
  · exact endValue_measure_lt (by assumption) h

/-- Steps until the value is complete or cannot be. -/
def run (limit : Nat) (r : Reading) : Except LiteralFailure (Literal × Cursor) :=
  match _h : r.step limit with
  | .go next => run limit next
  | .done v rest => .ok (v, rest)
  | .stuck failure => .error failure
termination_by r.measure
decreasing_by exact step_measure_lt _h

theorem run_go {limit : Nat} {r next : Reading} (h : r.step limit = .go next) :
    r.run limit = next.run limit := by
  rw [run]; split <;> simp_all

theorem run_done {limit : Nat} {r : Reading} {v : Literal} {c : Cursor}
    (h : r.step limit = .done v c) : r.run limit = .ok (v, c) := by
  rw [run]; split <;> simp_all

theorem run_stuck {limit : Nat} {r : Reading} {failure : LiteralFailure}
    (h : r.step limit = .stuck failure) : r.run limit = .error failure := by
  rw [run]; split <;> simp_all

/-- A step does not go back in the text. -/
theorem step_rest_length_le {limit : Nat} {r next : Reading} (h : r.step limit = .go next) :
    next.cursor.rest.length ≤ r.cursor.rest.length := by
  have hm := step_measure_lt h
  unfold measure at hm
  cases hp : r.phase <;> cases hn : next.phase <;> simp only [hp, hn] at hm <;> omega

theorem enter_rest_length_lt {limit : Nat} {r next : Reading} {fresh : OpenContainer}
    {closer ch : Char} {close : Span → Literal} (hc : r.cursor.peek = some ch)
    (h : r.enter limit fresh closer close = .go next) :
    next.cursor.rest.length < r.cursor.rest.length := by
  have h1 := Cursor.advance_rest_length_lt hc
  have h2 := r.cursor.advance.skipBlanks_rest_length_le
  have h3 := r.cursor.advance.skipBlanks.advance_rest_length_le
  unfold enter at h
  split at h
  · simp [failAt] at h
  · dsimp only at h
    split at h <;> cases h <;> dsimp only <;> omega

theorem place_ends_eq_false {r : Reading} {ch : Char} (hb : isBlank ch = false)
    (hn : ¬(r.opened ≠ [] ∧ Place.nested.ends ch = true)) : r.place.ends ch = false := by
  unfold place
  split
  · exact hb
  · simp_all

/-- The start of a value takes a character, if there is one that is not blank. -/
theorem beginValue_rest_length_lt {limit : Nat} {r next : Reading} {ch : Char}
    (hc : r.cursor.peek = some ch) (hb : isBlank ch = false)
    (h : r.beginValue limit = .go next) :
    next.cursor.rest.length < r.cursor.rest.length := by
  have hlt := Cursor.advance_rest_length_lt hc
  have hq := scanQuoted_after_length_le r.cursor.advance.offset r.cursor.advance.rest
  unfold beginValue at h
  rw [hc] at h
  dsimp only at h
  split at h
  · simp [expect, failAt] at h
  · rename_i hn
    split at h
    · exact enter_rest_length_lt hc h
    · split at h
      · exact enter_rest_length_lt hc h
      · split at h
        · split at h
          · cases h
            simp only [acceptScalar]
            omega
          · simp [expect, failAt] at h
        · cases h
          obtain ⟨x, xs, hx⟩ : ∃ x xs, r.cursor.rest = x :: xs := by
            cases hr : r.cursor.rest <;> simp_all [Cursor.peek]
          have hch : x = ch := by simpa [Cursor.peek, hx] using hc
          subst hch
          have := scanBareword_length_lt xs r.cursor.offset (place_ends_eq_false hb hn)
          simpa [acceptBareword, acceptScalar, hx] using this

theorem beginValue_ne_done {limit : Nat} (r : Reading) {v : Literal} {c : Cursor} :
    r.beginValue limit ≠ .done v c := by
  intro h
  unfold beginValue enter at h
  dsimp only [expect, failAt] at h
  repeat' split at h
  all_goals contradiction

theorem step_done_rest {limit : Nat} {r : Reading} {v : Literal} {c : Cursor}
    (h : r.step limit = .done v c) : c = r.cursor := by
  unfold step at h
  split at h
  · exact absurd h (beginValue_ne_done r)
  · unfold endValue at h
    dsimp only [expect, failAt] at h
    repeat' split at h
    all_goals first
      | contradiction
      | (cases h; rfl)

theorem run_rest_length_le {limit : Nat} {r : Reading} {v : Literal} {c : Cursor}
    (h : r.run limit = .ok (v, c)) : c.rest.length ≤ r.cursor.rest.length := by
  fun_induction run limit r with
  | case1 r next hs ih => exact Nat.le_trans (ih h) (step_rest_length_le hs)
  | case2 r v' c' hs =>
    cases h
    exact Nat.le_of_eq (by rw [step_done_rest hs])
  | case3 r failure hs => cases h

end Reading

/-- Reads one value at the cursor. A bareword outside of containers runs up to a blank. -/
def readValue (limit : Nat) (c : Cursor) : Except LiteralFailure (Literal × Cursor) :=
  (Reading.start c).run limit

/-- A value at a character that is not blank takes at least that character. -/
theorem readValue_rest_length_lt {limit : Nat} {c stop : Cursor} {v : Literal} {ch : Char}
    (hc : c.peek = some ch) (hb : isBlank ch = false) (h : readValue limit c = .ok (v, stop)) :
    stop.rest.length < c.rest.length := by
  unfold readValue at h
  cases hs : (Reading.start c).step limit with
  | stuck f => rw [Reading.run_stuck hs] at h; cases h
  | done w d => exact absurd hs (Reading.beginValue_ne_done _)
  | go next =>
    rw [Reading.run_go hs] at h
    exact Nat.lt_of_le_of_lt (Reading.run_rest_length_le h)
      (Reading.beginValue_rest_length_lt (r := Reading.start c) hc hb hs)

/-- Reads a text that is exactly one value, with any blanks around it. -/
def parseLiteral (limit : Nat) (text : String) : Except LiteralFailure Literal := do
  let (v, c) ← readValue limit (Cursor.start text).skipBlanks
  let c := c.skipBlanks
  if c.atEnd then .ok v
  else .error ⟨.tokenExpected .endOfInput, c.offset, [], none⟩

/-- The number of containers that may be open in each other, unless it is set otherwise. -/
def defaultMaxDepth : Nat := 64

end CommandConsole
