/-
# Reading tokens

A token is read at a cursor after the blanks before it. Reading depends on the
text after the cursor only, so a line has one sequence of tokens, whoever asks
for them and however often.

Key definitions: `TokenRules`, `Token.read?`, `Tokens.ofCursor`, `Tokens.ofText`.
Key theorem: `Token.read?_rest_length_lt`.
-/
import CommandConsole.Token.Basic
import CommandConsole.Literal.Reader

namespace CommandConsole

structure TokenRules where
  /-- The word that stands between commands. -/
  separator : String
  /-- Whether a name takes a value with an equals sign. -/
  assignSyntax : Bool
  /-- How many containers may be open in each other. -/
  maxDepth : Nat

instance : Inhabited TokenRules := ⟨⟨"&", true, defaultMaxDepth⟩⟩

/-- The characters that a name goes on with. -/
def TokenRules.inName (rules : TokenRules) (c : Char) : Bool :=
  !(isBlank c || (c == '=' && rules.assignSyntax))

namespace Token

/-- The name of a token that starts with two dashes, and the cursor behind it. Two dashes
on their own name nothing: they are an ordinary value. -/
def nameAt? (rules : TokenRules) (c : Cursor) : Option (String × Cursor) :=
  match c.rest with
  | '-' :: '-' :: _ =>
    let start := c.advance.advance
    let stop := start.skipWhile rules.inName
    if stop.offset = start.offset then none else some (start.textTo stop, stop)
  | _ => none

/-- The literal assigned at the cursor behind a name, and the cursor behind it. -/
def readAssigned (rules : TokenRules) (c : Cursor) :
    Except LiteralFailure (Option Literal × Cursor) :=
  if rules.assignSyntax ∧ c.peek = some '=' then
    let stop := c.advance
    match stop.peek with
    | none => .ok (some (.empty (.point stop.offset)), stop)
    | some ch =>
      if isBlank ch then .ok (some (.empty (.point stop.offset)), stop)
      else (readValue rules.maxDepth stop).map fun r => (some r.1, r.2)
  else .ok (none, c)

/-- The token between two cursors. -/
def between (kind : TokenKind) (c stop : Cursor) : Token := ⟨kind, c.spanTo stop, c.textTo stop⟩

/-- The token that the value `v`, read between two cursors, is. -/
def ofValue (rules : TokenRules) (v : Literal) (c stop : Cursor) : Token :=
  between (if c.textTo stop = rules.separator then .separator else .value v) c stop

/-- The token at a cursor that stands neither before a blank nor at the end. -/
def readHere (rules : TokenRules) (c : Cursor) : Except LiteralFailure (Token × Cursor) :=
  match nameAt? rules c with
  | some (name, stop) =>
    (readAssigned rules stop).map fun r => (between (.named name r.1) c r.2, r.2)
  | none => (readValue rules.maxDepth c).map fun r => (ofValue rules r.1 c r.2, r.2)

/-- The next token and the cursor behind it, or nothing at the end of the line. -/
def read? (rules : TokenRules) (c : Cursor) : Except LiteralFailure (Option (Token × Cursor)) :=
  if c.skipBlanks.atEnd then .ok none else (readHere rules c.skipBlanks).map some

theorem nameAt?_rest_length_lt {rules : TokenRules} {c stop : Cursor} {name : String}
    (h : nameAt? rules c = some (name, stop)) : stop.rest.length < c.rest.length := by
  unfold nameAt? at h
  split at h
  · rename_i cs hc
    dsimp only at h
    split at h
    · cases h
    · cases h
      have hp : c.peek = some '-' := by simp [Cursor.peek, hc]
      have h1 := Cursor.advance_rest_length_lt hp
      have h2 := c.advance.advance_rest_length_le
      have h3 := Cursor.skipFrom_rest_length_le rules.inName c.advance.advance.offset
        c.advance.advance.rest
      simp only [Cursor.skipWhile]
      omega
  · cases h

theorem readAssigned_rest_length_le {rules : TokenRules} {c stop : Cursor} {v : Option Literal}
    (h : readAssigned rules c = .ok (v, stop)) : stop.rest.length ≤ c.rest.length := by
  have ha := c.advance_rest_length_le
  unfold readAssigned at h
  split at h
  · dsimp only at h
    split at h
    · cases h
      exact ha
    · rename_i ch hc
      split at h
      · cases h
        exact ha
      · rename_i hb
        cases hr : readValue rules.maxDepth c.advance with
        | error f => rw [hr] at h; cases h
        | ok r =>
          rw [hr] at h
          cases h
          have := readValue_rest_length_lt hc (by simpa using hb) hr
          omega
  · cases h
    exact Nat.le_refl _

theorem readHere_rest_length_lt {rules : TokenRules} {c stop : Cursor} {t : Token} {ch : Char}
    (hc : c.peek = some ch) (hb : isBlank ch = false) (h : readHere rules c = .ok (t, stop)) :
    stop.rest.length < c.rest.length := by
  unfold readHere at h
  split at h
  · rename_i name after hn
    have h1 := nameAt?_rest_length_lt hn
    cases hr : readAssigned rules after with
    | error f => rw [hr] at h; cases h
    | ok r =>
      rw [hr] at h
      cases h
      have := readAssigned_rest_length_le hr
      omega
  · cases hr : readValue rules.maxDepth c with
    | error f => rw [hr] at h; cases h
    | ok r =>
      rw [hr] at h
      cases h
      exact readValue_rest_length_lt hc hb hr

/-- A token takes at least one character. -/
theorem read?_rest_length_lt {rules : TokenRules} {c stop : Cursor} {t : Token}
    (h : read? rules c = .ok (some (t, stop))) : stop.rest.length < c.rest.length := by
  unfold read? at h
  split at h
  · cases h
  · rename_i hne
    cases hr : readHere rules c.skipBlanks with
    | error f => rw [hr] at h; cases h
    | ok r =>
      rw [hr] at h
      cases h
      have hle := c.skipBlanks_rest_length_le
      cases hd : dropBlanks c.rest with
      | nil => simp [Cursor.atEnd, hd] at hne
      | cons x xs =>
        have hx : c.skipBlanks.peek = some x := by simp [Cursor.peek, hd]
        have := readHere_rest_length_lt hx (isBlank_of_dropBlanks hd) hr
        omega

end Token

namespace Tokens

/-- The tokens from a cursor on. -/
def ofCursor (rules : TokenRules) (c : Cursor) : Tokens :=
  match _h : Token.read? rules c with
  | .error failure => .broken c.skipBlanks.offset failure
  | .ok none => .finished c.skipBlanks.offset
  | .ok (some (t, stop)) => .more t (ofCursor rules stop)
termination_by c.rest.length
decreasing_by exact Token.read?_rest_length_lt _h

def ofText (rules : TokenRules) (text : String) : Tokens := ofCursor rules (Cursor.start text)

theorem ofCursor_error {rules : TokenRules} {c : Cursor} {failure : LiteralFailure}
    (h : Token.read? rules c = .error failure) : ofCursor rules c = .broken c.skipBlanks.offset failure := by
  rw [ofCursor]; split <;> simp_all

theorem ofCursor_none {rules : TokenRules} {c : Cursor} (h : Token.read? rules c = .ok none) :
    ofCursor rules c = .finished c.skipBlanks.offset := by
  rw [ofCursor]; split <;> simp_all

theorem ofCursor_some {rules : TokenRules} {c stop : Cursor} {t : Token}
    (h : Token.read? rules c = .ok (some (t, stop))) :
    ofCursor rules c = .more t (ofCursor rules stop) := by
  rw [ofCursor]; split <;> simp_all

end Tokens
end CommandConsole
