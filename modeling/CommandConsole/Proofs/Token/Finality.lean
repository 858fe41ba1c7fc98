/-
# Tokens that are settled

A token that ends in a text, or cannot be read there, is read in the same way
when the text goes on, unless what is put there ends a group that has been given
up. So a line that cannot be read in front of its end keeps its tokens, and it
cannot be read, however it goes on.

Key definitions: `Token.givesUp`, `Tokens.givesUp`, `lineGivesUp`.
Key theorems: `Token.readHere_final`, `Tokens.ofCursor_final`.
-/
import CommandConsole.Proofs.Token.Tiling

namespace CommandConsole
namespace Token

variable {rules : TokenRules} {c : Cursor} {ds : List Char}

/-! ### Names and values -/

/-- The groups that are given up in the token at the cursor: in its value, or in the one that is
assigned to its name. -/
def givesUp (rules : TokenRules) (c : Cursor) : List (List Char) :=
  match nameAt? rules c with
  | none => valueGivesUp rules.maxDepth c
  | some (_, behind) =>
    if rules.assignSyntax = true ∧ behind.peek = some '=' then
      valueGivesUp rules.maxDepth behind.advance
    else []

/-- A value that cannot be read begins with a bracket or a quote, and one that ends in the text
ends with a bracket or a quote or before a blank: a name does not begin there when the text goes
on. -/
theorem nameAt?_none_final (h : nameAt? rules c = none) (hne : c.rest ≠ [])
    (hends : SettledBefore (c.offset + byteLength c.rest) (readValue rules.maxDepth c)) :
    nameAt? rules (c.extend ds) = none := by
  refine nameAt?_none_extend h ?_
  obtain ⟨ch, cs, hc⟩ := List.exists_cons_of_ne_nil hne
  have hbegins : opensGroup ch = true ∨
      ∃ v stop, readValue rules.maxDepth c = .ok (v, stop) ∧ stop.rest ≠ [] := by
    cases hr : readValue rules.maxDepth c with
    | error f => exact .inl (opensGroup_of_readValue_error hc hr)
    | ok r =>
      rw [hr] at hends
      exact .inr ⟨r.1, r.2, rfl, hends⟩
  exact exists_ne_dash hc hbegins

/-- An assigned value that is settled, like `readValue_final`. -/
theorem readAssigned_final
    (hends : SettledBefore (c.offset + byteLength c.rest) (readAssigned rules c))
    (hs : rules.assignSyntax = true → c.peek = some '=' →
      ¬Reopens (valueGivesUp rules.maxDepth c.advance) ds) :
    readAssigned rules (c.extend ds) = (readAssigned rules c).map fun p => (p.1, p.2.extend ds) := by
  by_cases ha : rules.assignSyntax = true ∧ c.peek = some '='
  · have hne : c.rest ≠ [] := by
      intro hempty
      rw [Cursor.peek_of_rest_nil hempty] at ha
      cases ha.2
    have hpeek : (c.extend ds).peek = some '=' := by rw [Cursor.peek_extend hne, ha.2]
    have hadv : (c.extend ds).advance = c.advance.extend ds := Cursor.advance_extend hne
    by_cases hb : ∀ ch ∈ c.advance.peek, isBlank ch = true
    · rw [readAssigned_empty ha.1 ha.2 hb] at hends ⊢
      have hinside : c.advance.rest ≠ [] := hends
      rw [readAssigned_empty ha.1 hpeek (by rwa [hadv, Cursor.peek_extend hinside]), hadv]
      rfl
    · push Not at hb
      obtain ⟨ch, hch, hb⟩ := hb
      have hblank : isBlank ch = false := by simpa using hb
      have hinside : c.advance.rest ≠ [] := by
        intro hempty
        rw [Cursor.peek_of_rest_nil hempty] at hch
        cases hch
      have hchar : (c.extend ds).advance.peek = some ch := by
        rw [hadv, Cursor.peek_extend hinside, hch]
      rw [readAssigned_value ha.1 ha.2 hch hblank] at hends ⊢
      have hvalue : SettledBefore (c.advance.offset + byteLength c.advance.rest)
          (readValue rules.maxDepth c.advance) := by
        rw [(Cursor.Reaches.advance c).end_eq]
        exact hends.of_map
      rw [readAssigned_value ha.1 hpeek hchar hblank, hadv,
        readValue_final hvalue (hs ha.1 ha.2)]
      cases readValue rules.maxDepth c.advance <;> rfl
  · rw [readAssigned_none ha] at hends ⊢
    have hne : c.rest ≠ [] := hends
    rw [readAssigned_none (by rwa [Cursor.peek_extend hne])]
    rfl

theorem readAssigned_rest_ne_nil
    (hends : SettledBefore (c.offset + byteLength c.rest) (readAssigned rules c)) :
    c.rest ≠ [] := by
  intro hempty
  have hno : ¬(rules.assignSyntax = true ∧ c.peek = some '=') := by
    rw [Cursor.peek_of_rest_nil hempty]
    simp
  rw [readAssigned_none hno] at hends
  exact hends hempty

/-! ### Whole tokens -/

/-- **A token that is settled before the end of a text** is read in the same way when the text goes
on, if no group that has been given up ends there. -/
theorem readHere_final (hne : c.rest ≠ [])
    (hends : SettledBefore (c.offset + byteLength c.rest) (readHere rules c))
    (hs : ¬Reopens (givesUp rules c) ds) :
    readHere rules (c.extend ds) = (readHere rules c).map fun p => (p.1, p.2.extend ds) := by
  unfold readHere at hends
  cases hname : nameAt? rules c with
  | none =>
    rw [givesUp, hname] at hs
    rw [hname] at hends
    dsimp only at hends hs
    have hvalue := hends.of_map
    rw [readHere, readHere, hname, nameAt?_none_final hname hne hvalue]
    dsimp only
    rw [readValue_final hvalue hs]
    cases readValue rules.maxDepth c with
    | error f => rfl
    | ok r => exact congrArg (fun t => Except.ok (t, r.2.extend ds)) (ofValue_extend r.1 c r.2 ds)
  | some r =>
    obtain ⟨name, behind⟩ := r
    rw [givesUp, hname] at hs
    rw [hname] at hends
    dsimp only at hends hs
    have hreach := nameAt?_reaches hname
    have hassigned : SettledBefore (behind.offset + byteLength behind.rest)
        (readAssigned rules behind) := by
      rw [hreach.end_eq]
      exact hends.of_map
    have hbehind : behind.rest ≠ [] := readAssigned_rest_ne_nil hassigned
    have hname' : nameAt? rules (c.extend ds) = some (name, behind.extend ds) := by
      refine nameAt?_extend hname fun ch hch => ?_
      rw [List.head?_append_of_ne_nil _ hbehind] at hch
      exact nameAt?_head hname ch hch
    have hlost : rules.assignSyntax = true → behind.peek = some '=' →
        ¬Reopens (valueGivesUp rules.maxDepth behind.advance) ds := by
      intro ha hpeek
      rwa [if_pos ⟨ha, hpeek⟩] at hs
    rw [readHere, readHere, hname, hname']
    dsimp only
    rw [readAssigned_final hassigned hlost]
    cases readAssigned rules behind with
    | error f => rfl
    | ok r =>
      exact congrArg (fun t => Except.ok (t, r.2.extend ds))
        (between_extend (.named name r.1) c r.2 ds)

/-- So is the token behind the blanks at a cursor. -/
theorem read?_final (hne : dropBlanks c.rest ≠ [])
    (hends : SettledBefore (c.offset + byteLength c.rest) (readHere rules c.skipBlanks))
    (hs : ¬Reopens (givesUp rules c.skipBlanks) ds) :
    (c.extend ds).skipBlanks = c.skipBlanks.extend ds ∧ read? rules (c.extend ds) =
      (readHere rules c.skipBlanks).map fun p => some (p.1, p.2.extend ds) := by
  rw [← Cursor.skipBlanks_rest] at hne
  rw [← (Cursor.Reaches.skipBlanks c).end_eq] at hends
  have hskip := Cursor.skipBlanks_extend_of_ne ds hne
  have hsome : (c.extend ds).skipBlanks.atEnd = false := by
    rw [hskip, Cursor.atEnd, List.isEmpty_eq_false_iff]
    exact List.append_ne_nil_of_left_ne_nil hne ds
  refine ⟨hskip, ?_⟩
  rw [read?, if_neg (by simp [hsome]), hskip, readHere_final hne hends hs]
  cases readHere rules c.skipBlanks <;> rfl

end Token

/-! ### Lines -/

namespace Tokens

variable {rules : TokenRules} {c : Cursor} {ds : List Char} {f : LiteralFailure}

/-- The groups that are given up in the tokens from a cursor on. -/
def givesUp (rules : TokenRules) (c : Cursor) : List (List Char) :=
  match _h : Token.read? rules c with
  | .error _ => Token.givesUp rules c.skipBlanks
  | .ok none => []
  | .ok (some (_, stop)) => Token.givesUp rules c.skipBlanks ++ givesUp rules stop
termination_by c.rest.length
decreasing_by exact Token.read?_rest_length_lt _h

theorem givesUp_error (h : Token.read? rules c = .error f) :
    givesUp rules c = Token.givesUp rules c.skipBlanks := by
  rw [givesUp]; split <;> simp_all

theorem givesUp_some {t : Token} {stop : Cursor} (h : Token.read? rules c = .ok (some (t, stop))) :
    givesUp rules c = Token.givesUp rules c.skipBlanks ++ givesUp rules stop := by
  conv => lhs; rw [givesUp]
  split <;> simp_all

/-- **A line that cannot be read in front of its end keeps its tokens** when it goes on, if no
group that has been given up ends there. -/
theorem ofCursor_final (h : (ofCursor rules c).failure? = some f)
    (hf : f.position < c.offset + byteLength c.rest) (hs : ¬Reopens (givesUp rules c) ds) :
    ofCursor rules (c.extend ds) = ofCursor rules c := by
  fun_induction ofCursor rules c with
  | case1 c g hread =>
    cases h
    obtain ⟨hne, hhere⟩ := Token.read?_eq_error_iff.mp hread
    rw [givesUp_error hread] at hs
    obtain ⟨hskip, hread'⟩ := Token.read?_final hne (by rw [hhere]; exact hf) hs
    rw [hhere] at hread'
    rw [ofCursor_error hread', hskip]
    rfl
  | case2 c hread => cases h
  | case3 c t stop hread ih =>
    obtain ⟨hne, hhere⟩ := Token.read?_eq_some_iff.mp hread
    rw [givesUp_some hread, reopens_append, not_or] at hs
    have hreach := (Cursor.Reaches.skipBlanks c).trans (Token.read?_reaches hread).1
    -- the token that cannot be read stands behind this one
    have hstop : stop.rest ≠ [] := by
      intro hempty
      rw [ofCursor_none (Token.read?_eq_none_iff.mpr (by rw [hempty]; rfl))] at h
      cases h
    obtain ⟨-, hread'⟩ := Token.read?_final hne (by rw [hhere]; exact hstop) hs.1
    rw [hhere] at hread'
    rw [ofCursor_some hread', ih h (by rwa [hreach.end_eq]) hs.2]

end Tokens

/-- The groups that are given up in a line. -/
def lineGivesUp (rules : TokenRules) (line : String) : List (List Char) :=
  Tokens.givesUp rules (.start line)

/-- **A line that cannot be read in front of its end** has the same tokens when it goes on, and the
same failure, if no group that has been given up ends there. -/
theorem Tokens.ofText_final {rules : TokenRules} {line s : String} {f : LiteralFailure}
    (h : (ofText rules line).failure? = some f) (hf : f.position < textLength line)
    (hs : ¬Reopens (lineGivesUp rules line) s.toList) :
    ofText rules (line ++ s) = ofText rules line := by
  rw [ofText, Cursor.start_append]
  exact ofCursor_final h (by rwa [Cursor.start, Nat.zero_add]) hs

end CommandConsole
