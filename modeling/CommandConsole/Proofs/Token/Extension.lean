/-
# The tokens of a text that goes on

A line is completed behind some of its tokens. What is put there may change
how they are read: a word at the end goes on, and a group that was open ends.
Neither happens if the text ends with a blank or another token stood there, and
if what is put there closes nothing.

Key definitions: `Token.Delimited`, `Token.ReadTo`, `Token.StaysTo`.
Key theorems: `Token.StaysTo.extend`, `Token.ReadTo.staysTo_of_extend`,
`Token.ReadTo.staysTo_of_endsBlank`.
-/
import CommandConsole.Proofs.Literal.Within
import CommandConsole.Proofs.Token.Ending
import CommandConsole.Proofs.Token.Layout

namespace CommandConsole

/-! ### Characters -/

namespace Cursor

variable {p : Char → Bool} {c stop : Cursor} {ds : List Char}

theorem textTo_extend (c stop : Cursor) (ds : List Char) :
    (c.extend ds).textTo (stop.extend ds) = c.textTo stop := by
  simp only [textTo, charsTo, extend_rest, List.length_append, Nat.add_sub_add_right]
  rw [List.take_append_of_le_length (Nat.sub_le _ _)]

theorem spanTo_extend (c stop : Cursor) (ds : List Char) :
    (c.extend ds).spanTo (stop.extend ds) = c.spanTo stop := rfl

/-- Skipping stops before a character that is not skipped. -/
theorem skipFrom_head (p : Char → Bool) : ∀ (offset : Nat) (cs : List Char),
    ∀ ch ∈ (skipFrom p offset cs).rest.head?, p ch = false
  | _, [], ch, h => by simp [skipFrom] at h
  | offset, d :: cs, ch, h => by
    unfold skipFrom at h
    split at h
    · exact skipFrom_head p _ cs ch h
    · cases h
      simp_all

/-- Skipping stops in the first part of a text if nothing is skipped behind it. -/
theorem skipFrom_extend : ∀ {offset : Nat} {cs : List Char},
    (∀ ch ∈ ((skipFrom p offset cs).rest ++ ds).head?, p ch = false) →
      skipFrom p offset (cs ++ ds) = (skipFrom p offset cs).extend ds
  | offset, [], h => by
    cases ds with
    | nil => rfl
    | cons d ds =>
      have hd : p d = false := h d (by simp [skipFrom])
      simp [skipFrom, hd, extend]
  | offset, d :: cs, h => by
    by_cases hd : p d = true
    · rw [skipFrom, if_pos hd] at h
      rw [List.cons_append, skipFrom, if_pos hd, skipFrom, if_pos hd, skipFrom_extend h]
    · rw [List.cons_append, skipFrom, if_neg hd, skipFrom, if_neg hd]
      rfl

/-- Skipping up to the end of a text skips all of it. -/
theorem of_skipFrom_rest : ∀ {offset : Nat} {cs : List Char},
    (skipFrom p offset cs).rest = [] → ∀ ch ∈ cs, p ch = true
  | _, [], _, _, hch => by cases hch
  | offset, d :: cs, h, ch, hch => by
    by_cases hd : p d = true
    · rw [skipFrom, if_pos hd] at h
      rcases List.mem_cons.mp hch with rfl | hch
      · exact hd
      · exact of_skipFrom_rest h ch hch
    · rw [skipFrom, if_neg hd] at h
      cases h

/-- Skipping that skips nothing stays before a character that is not skipped. -/
theorem skipFrom_offset_eq_iff {offset : Nat} {cs : List Char} :
    (skipFrom p offset cs).offset = offset ↔ ∀ ch ∈ cs.head?, p ch = false := by
  cases cs with
  | nil => simp [skipFrom]
  | cons d cs =>
    by_cases hd : p d = true
    · have hle := (Reaches.skipFrom p (offset + d.utf8Size) cs).offset_le
      have hpos := d.utf8Size_pos
      rw [skipFrom, if_pos hd]
      simp only [List.head?_cons, Option.mem_some_iff, forall_eq']
      constructor
      · intro h
        rw [h] at hle
        simp only at hle
        omega
      · intro h
        rw [h] at hd
        cases hd
    · simp [skipFrom, hd]

end Cursor

/-! ### Names -/

namespace Token

variable {rules : TokenRules} {c : Cursor} {ds : List Char} {name : String} {t : Token} {assigned : Option Literal}

/-- Behind two dashes a name goes up to where it stops. -/
def nameEnd (rules : TokenRules) (c : Cursor) : Cursor := c.advance.advance.skipWhile rules.inName

theorem nameAt?_of_rest {ch : Char} {cs : List Char} (hc : c.rest = '-' :: '-' :: ch :: cs)
    (hn : rules.inName ch = true) :
    nameAt? rules c = some (c.advance.advance.textTo (nameEnd rules c), nameEnd rules c) := by
  have hrest : c.advance.advance.rest = ch :: cs := by simp [hc]
  have hmoves : (nameEnd rules c).offset ≠ c.advance.advance.offset := by
    rw [nameEnd, Cursor.skipWhile, hrest, ne_eq, Cursor.skipFrom_offset_eq_iff]
    simp [hn]
  unfold nameAt?
  rw [hc]
  exact if_neg hmoves

/-- A name begins with two dashes and a character that names go on with. -/
theorem nameAt?_eq_some_iff {r : String × Cursor} : nameAt? rules c = some r ↔
    ∃ ch cs, c.rest = '-' :: '-' :: ch :: cs ∧ rules.inName ch = true ∧
      r = (c.advance.advance.textTo (nameEnd rules c), nameEnd rules c) := by
  constructor
  · intro h
    by_cases hname : ∃ ch cs, c.rest = '-' :: '-' :: ch :: cs ∧ rules.inName ch = true
    · obtain ⟨ch, cs, hc, hn⟩ := hname
      rw [nameAt?_of_rest hc hn] at h
      exact ⟨ch, cs, hc, hn, (Option.some.inj h).symm⟩
    · exfalso
      unfold nameAt? at h
      split at h
      · rename_i cs hc
        have hrest : c.advance.advance.rest = cs := by simp [hc]
        have hstays : (c.advance.advance.skipWhile rules.inName).offset =
            c.advance.advance.offset := by
          rw [Cursor.skipWhile, hrest, Cursor.skipFrom_offset_eq_iff]
          intro ch hch
          obtain ⟨ds, rfl⟩ := List.head?_eq_some_iff.mp hch
          by_cases hn : rules.inName ch = true
          · exact absurd ⟨ch, ds, hc, hn⟩ hname
          · simpa using hn
        dsimp only at h
        rw [if_pos hstays] at h
        cases h
      · cases h
  · rintro ⟨ch, cs, hc, hn, rfl⟩
    exact nameAt?_of_rest hc hn

theorem advance_advance_extend (hne : 2 ≤ c.rest.length) :
    (c.extend ds).advance.advance = c.advance.advance.extend ds := by
  have h1 : c.rest ≠ [] := by
    intro h
    simp [h] at hne
  have h2 : c.advance.rest ≠ [] := by
    rw [Cursor.advance_rest]
    intro h
    have hl := congrArg List.length h
    rw [List.length_tail, List.length_nil] at hl
    omega
  rw [Cursor.advance_extend h1, Cursor.advance_extend h2]

theorem nameEnd_extend (hne : 2 ≤ c.rest.length)
    (hs : Cursor.skipFrom rules.inName c.advance.advance.offset (c.advance.advance.rest ++ ds) =
      (nameEnd rules c).extend ds) :
    nameEnd rules (c.extend ds) = (nameEnd rules c).extend ds := by
  rw [nameEnd, advance_advance_extend hne]
  exact hs

/-- Nothing that goes on with the name follows it. -/
theorem nameAt?_head {stop : Cursor} (h : nameAt? rules c = some (name, stop)) :
    ∀ ch ∈ stop.rest.head?, rules.inName ch = false := by
  obtain ⟨-, -, -, -, hend⟩ := nameAt?_eq_some_iff.mp h
  rw [(Prod.mk.inj hend).2]
  exact Cursor.skipFrom_head _ _ _

/-- A name that is read before the new part of a text is read in the old part alone. -/
theorem nameAt?_of_extend {stop : Cursor} (h : nameAt? rules (c.extend ds) = some (name, stop))
    (hl : ds.length ≤ stop.rest.length) :
    ∃ stop', stop = stop'.extend ds ∧ nameAt? rules c = some (name, stop') := by
  obtain ⟨ch, cs, hc, hn, hr⟩ := nameAt?_eq_some_iff.mp h
  obtain ⟨rfl, rfl⟩ := Prod.mk.inj hr
  rw [Cursor.extend_rest] at hc
  -- the name itself lies before the new part
  have hlt := nameAt?_rest_length_lt h
  have hshort : (nameEnd rules (c.extend ds)).rest.length ≤ cs.length := by
    have hrest : (c.extend ds).advance.advance.rest = ch :: cs := by simp [hc]
    rw [nameEnd, Cursor.skipWhile, hrest, Cursor.skipFrom, if_pos hn]
    exact Cursor.skipFrom_rest_length_le _ _ _
  have hlength := congrArg List.length hc
  simp only [List.length_append, List.length_cons] at hlength
  have hne : 2 ≤ c.rest.length := by omega
  have hskip : Cursor.skipFrom rules.inName c.advance.advance.offset
      (c.advance.advance.rest ++ ds) = (nameEnd rules c).extend ds := by
    refine Cursor.skipFrom_of_extend ?_
    rw [nameEnd, advance_advance_extend hne] at hl
    exact hl
  have hend := nameEnd_extend hne hskip
  obtain ⟨a, b, d, es, hold⟩ : ∃ a b d es, c.rest = a :: b :: d :: es := by
    have hthree : 3 ≤ c.rest.length := by omega
    obtain ⟨a, as, ha⟩ := List.exists_cons_of_length_pos (by omega : 0 < c.rest.length)
    rw [ha, List.length_cons] at hthree
    obtain ⟨b, bs, rfl⟩ := List.exists_cons_of_length_pos (by omega : 0 < as.length)
    rw [List.length_cons] at hthree
    obtain ⟨d, es, rfl⟩ := List.exists_cons_of_length_pos (by omega : 0 < bs.length)
    exact ⟨a, b, d, es, ha⟩
  rw [hold] at hc
  obtain ⟨rfl, rfl, rfl, -⟩ : a = '-' ∧ b = '-' ∧ d = ch ∧ es ++ ds = cs := by simpa using hc
  refine ⟨nameEnd rules c, hend, ?_⟩
  rw [hend, advance_advance_extend hne, Cursor.textTo_extend]
  exact nameAt?_of_rest hold hn

theorem nameAt?_none_of_extend (h : nameAt? rules (c.extend ds) = none) :
    nameAt? rules c = none := by
  cases hc : nameAt? rules c with
  | none => rfl
  | some r =>
    obtain ⟨ch, cs, hrest, hn, -⟩ := nameAt?_eq_some_iff.mp hc
    have hrest' : (c.extend ds).rest = '-' :: '-' :: ch :: (cs ++ ds) := by simp [hrest]
    rw [nameAt?_of_rest hrest' hn] at h
    cases h

/-- A name stays as it is if nothing behind the text belongs to it. -/
theorem nameAt?_extend {stop : Cursor} (h : nameAt? rules c = some (name, stop))
    (hs : ∀ ch ∈ (stop.rest ++ ds).head?, rules.inName ch = false) :
    nameAt? rules (c.extend ds) = some (name, stop.extend ds) := by
  obtain ⟨ch, cs, hc, hn, hr⟩ := nameAt?_eq_some_iff.mp h
  obtain ⟨rfl, rfl⟩ := Prod.mk.inj hr
  have hne : 2 ≤ c.rest.length := by simp [hc]
  have hend : nameEnd rules (c.extend ds) = (nameEnd rules c).extend ds :=
    nameEnd_extend hne (Cursor.skipFrom_extend hs)
  have hc' : (c.extend ds).rest = '-' :: '-' :: ch :: (cs ++ ds) := by simp [hc]
  rw [nameAt?_of_rest hc' hn, hend, advance_advance_extend hne, Cursor.textTo_extend]

/-- No name begins behind a text that holds something else than dashes. -/
theorem nameAt?_none_extend (h : nameAt? rules c = none) (hd : ∃ ch ∈ c.rest, ch ≠ '-') :
    nameAt? rules (c.extend ds) = none := by
  cases hc : nameAt? rules (c.extend ds) with
  | none => rfl
  | some r =>
    exfalso
    obtain ⟨ch, cs, hrest, hn, -⟩ := nameAt?_eq_some_iff.mp hc
    rw [Cursor.extend_rest] at hrest
    obtain ⟨x, hx, hne⟩ := hd
    match hold : c.rest, hrest with
    | a :: b :: d :: es, hrest =>
      obtain ⟨rfl, rfl, rfl, -⟩ : a = '-' ∧ b = '-' ∧ d = ch ∧ es ++ ds = cs := by
        simpa using hrest
      rw [nameAt?_of_rest hold hn] at h
      cases h
    | [], _ => simp [hold] at hx
    | [a], hrest => simp_all
    | [a, b], hrest => simp_all

/-! ### Values that are assigned -/

theorem readAssigned_none (h : ¬(rules.assignSyntax = true ∧ c.peek = some '=')) :
    readAssigned rules c = .ok (none, c) := by
  unfold readAssigned
  rw [if_neg h]

/-- An equals sign in front of a blank, or of nothing, assigns the empty literal. -/
theorem readAssigned_empty (ha : rules.assignSyntax = true) (hc : c.peek = some '=')
    (hb : ∀ ch ∈ c.advance.peek, isBlank ch = true) :
    readAssigned rules c = .ok (some (.empty (.point c.advance.offset)), c.advance) := by
  unfold readAssigned
  rw [if_pos ⟨ha, hc⟩]
  dsimp only
  cases hp : c.advance.peek with
  | none => rfl
  | some ch =>
    have hblank : isBlank ch = true := hb ch hp
    simp [hblank]

theorem readAssigned_value (ha : rules.assignSyntax = true) (hc : c.peek = some '=') {ch : Char}
    (hp : c.advance.peek = some ch) (hb : isBlank ch = false) :
    readAssigned rules c =
      (readValue rules.maxDepth c.advance).map fun r => (some r.1, r.2) := by
  unfold readAssigned
  rw [if_pos ⟨ha, hc⟩]
  dsimp only
  rw [hp]
  simp [hb]

/-- What follows a name: nothing is assigned, or the empty literal, or a value. -/
theorem readAssigned_cases {stop : Cursor} (h : readAssigned rules c = .ok (assigned, stop)) :
    (¬(rules.assignSyntax = true ∧ c.peek = some '=') ∧ assigned = none ∧ stop = c) ∨
    (rules.assignSyntax = true ∧ c.peek = some '=' ∧
      (((∀ ch ∈ c.advance.peek, isBlank ch = true) ∧
          assigned = some (.empty (.point c.advance.offset)) ∧ stop = c.advance) ∨
        ∃ ch v, c.advance.peek = some ch ∧ isBlank ch = false ∧ assigned = some v ∧
          readValue rules.maxDepth c.advance = .ok (v, stop))) := by
  by_cases ha : rules.assignSyntax = true ∧ c.peek = some '='
  · refine .inr ⟨ha.1, ha.2, ?_⟩
    by_cases hb : ∀ ch ∈ c.advance.peek, isBlank ch = true
    · rw [readAssigned_empty ha.1 ha.2 hb] at h
      cases h
      exact .inl ⟨hb, rfl, rfl⟩
    · push Not at hb
      obtain ⟨ch, hp, hb⟩ := hb
      have hblank : isBlank ch = false := by simpa using hb
      rw [readAssigned_value ha.1 ha.2 hp hblank] at h
      obtain ⟨⟨v, d⟩, hr, he⟩ := exists_of_map_eq_ok h
      cases he
      exact .inr ⟨ch, v, hp, hblank, rfl, hr⟩
  · rw [readAssigned_none ha] at h
    cases h
    exact .inl ⟨ha, rfl, rfl⟩

theorem readAssigned_of_extend {stop : Cursor}
    (h : readAssigned rules (c.extend ds) = .ok (assigned, stop))
    (hl : ds.length ≤ stop.rest.length) :
    ∃ stop', stop = stop'.extend ds ∧ readAssigned rules c = .ok (assigned, stop') := by
  rcases readAssigned_cases h with ⟨hno, rfl, rfl⟩ | ⟨ha, hp, hrest⟩
  · refine ⟨c, rfl, readAssigned_none fun hc => hno ⟨hc.1, ?_⟩⟩
    have hne : c.rest ≠ [] := by
      intro hempty
      rw [Cursor.peek_of_rest_nil hempty] at hc
      cases hc.2
    rw [Cursor.peek_extend hne]
    exact hc.2
  · -- the equals sign lies before the new part
    have hlength : stop.rest.length < (c.extend ds).rest.length := by
      have hadvance := Cursor.advance_rest_length_lt hp
      rcases hrest with ⟨-, -, rfl⟩ | ⟨ch, v, -, -, -, hr⟩
      · exact hadvance
      · have hle : stop.rest.length ≤ (c.extend ds).advance.rest.length :=
          Reading.run_rest_length_le hr
        omega
    have hne : c.rest ≠ [] := by
      intro hempty
      simp only [Cursor.extend_rest, hempty, List.nil_append] at hlength
      omega
    rw [Cursor.peek_extend hne] at hp
    rw [Cursor.advance_extend hne] at hrest
    rcases hrest with ⟨hb, rfl, rfl⟩ | ⟨ch, v, hch, hb, rfl, hr⟩
    · refine ⟨c.advance, rfl, readAssigned_empty ha hp fun ch hch => hb ch ?_⟩
      have hne' : c.advance.rest ≠ [] := by
        intro hempty
        rw [Cursor.peek_of_rest_nil hempty] at hch
        cases hch
      rw [Cursor.peek_extend hne']
      exact hch
    · obtain ⟨stop', rfl, hr'⟩ := readValue_of_extend hr hl
      refine ⟨stop', rfl, ?_⟩
      have hlt := readValue_rest_length_lt hch hb hr
      have hne' : c.advance.rest ≠ [] := by
        intro hempty
        simp only [Cursor.extend_rest, hempty, List.nil_append, List.length_append] at hlt
        omega
      rw [Cursor.peek_extend hne'] at hch
      rw [readAssigned_value ha hp hch hb, hr']
      rfl

theorem readAssigned_extend {stop : Cursor} (hd : Unclosing ds) (ht : dropBlanks ds = ds)
    (h : readAssigned rules c = .ok (assigned, stop))
    (hends : stop.rest ≠ [] ∨ ∃ ch ∈ c.advance.peek, opensGroup ch = true) :
    readAssigned rules (c.extend ds) = .ok (assigned, stop.extend ds) := by
  have hadvance : (∃ ch ∈ c.advance.peek, opensGroup ch = true) → c.advance.rest ≠ [] := by
    rintro ⟨ch, hch, -⟩ hempty
    rw [Cursor.peek_of_rest_nil hempty] at hch
    cases hch
  have hrest : c.advance.rest ≠ [] → c.rest ≠ [] := (Cursor.Reaches.advance c).rest_ne_nil
  rcases readAssigned_cases h with ⟨hno, rfl, rfl⟩ | ⟨ha, hp, ⟨hb, rfl, rfl⟩ | ⟨ch, v, hch, hb, rfl, hr⟩⟩
  · have hne : stop.rest ≠ [] := hends.elim id fun ho => hrest (hadvance ho)
    refine readAssigned_none ?_
    rwa [Cursor.peek_extend hne]
  · have hne : c.advance.rest ≠ [] := hends.elim id hadvance
    have hadv : (c.extend ds).advance = c.advance.extend ds := Cursor.advance_extend (hrest hne)
    rw [readAssigned_empty ha (by rwa [Cursor.peek_extend (hrest hne)])
      (by rwa [hadv, Cursor.peek_extend hne]), hadv]
    rfl
  · have hne : c.advance.rest ≠ [] := by
      intro hempty
      rw [Cursor.peek_of_rest_nil hempty] at hch
      cases hch
    have hadv : (c.extend ds).advance = c.advance.extend ds := Cursor.advance_extend (hrest hne)
    rw [readAssigned_value ha (by rwa [Cursor.peek_extend (hrest hne)])
      (by rwa [hadv, Cursor.peek_extend hne]) hb, hadv, hd.readValue_extend ht hr hends]
    rfl

/-! ### Whole tokens -/

/-- The token at the cursor ends with a literal in brackets or quotes. -/
def Delimited (rules : TokenRules) (c : Cursor) : Prop :=
  match nameAt? rules c with
  | none => ∃ ch ∈ c.peek, opensGroup ch = true
  | some (_, behind) => ∃ ch ∈ behind.advance.peek, opensGroup ch = true

theorem between_extend (kind : TokenKind) (c stop : Cursor) (ds : List Char) :
    between kind (c.extend ds) (stop.extend ds) = between kind c stop := by
  rw [between, between, Cursor.textTo_extend, Cursor.spanTo_extend]

theorem ofValue_extend (v : Literal) (c stop : Cursor) (ds : List Char) :
    ofValue rules v (c.extend ds) (stop.extend ds) = ofValue rules v c stop := by
  rw [ofValue, ofValue, Cursor.textTo_extend, between_extend]

/-- A token that is read before the new part of a text is read in the old part alone. -/
theorem readHere_of_extend {stop : Cursor}
    (h : readHere rules (c.extend ds) = .ok (t, stop)) (hl : ds.length ≤ stop.rest.length) :
    ∃ stop', stop = stop'.extend ds ∧ readHere rules c = .ok (t, stop') := by
  rcases readHere_cases h with ⟨name, behind, assigned, hname, hr, rfl⟩ | ⟨v, hname, hr, rfl⟩
  · have hle := readAssigned_rest_length_le hr
    obtain ⟨behind, rfl, hname'⟩ := nameAt?_of_extend hname (Nat.le_trans hl hle)
    obtain ⟨stop', rfl, hr'⟩ := readAssigned_of_extend hr hl
    exact ⟨stop', rfl, by rw [between_extend, readHere_of_nameAt? hname' hr']⟩
  · obtain ⟨stop', rfl, hr'⟩ := readValue_of_extend hr hl
    refine ⟨stop', rfl, ?_⟩
    rw [readHere_of_readValue (nameAt?_none_of_extend hname) hr', ofValue_extend]

/-- A token right in front of another one ends with a literal in brackets or quotes. -/
theorem delimited_of_adjacent {x : List Char} {stop : Cursor} (hx : x ≠ [])
    (ht : dropBlanks x = x) (h : readHere rules (c.extend x) = .ok (t, stop)) (hs : stop.rest = x)
    (hne : c.rest ≠ []) : Delimited rules c := by
  obtain ⟨d, ds, hd⟩ := List.exists_cons_of_ne_nil hx
  have hblank : isBlank d = false := isBlank_of_dropBlanks (hd ▸ ht)
  rcases readHere_cases h with ⟨name, behind, assigned, hname, hr, -⟩ | ⟨v, hname, hr, -⟩
  · have hle := readAssigned_rest_length_le hr
    rw [hs] at hle
    obtain ⟨behind, rfl, hname'⟩ := nameAt?_of_extend hname hle
    simp only [Delimited, hname']
    rcases readAssigned_cases hr with ⟨hno, -, rfl⟩ | ⟨-, hp, ⟨hb, -, rfl⟩ | ⟨ch, v, hch, hb, -, hv⟩⟩
    · -- only an equals sign stops a name that no blank stops
      exfalso
      have hend : (behind.extend x).rest.head? = some d := by rw [hs, hd]; rfl
      have hstops := nameAt?_head hname d hend
      refine hno ?_
      rw [Cursor.peek, hend]
      simp only [TokenRules.inName, hblank, Bool.false_or, Bool.not_eq_false', Bool.and_eq_true,
        beq_iff_eq] at hstops
      exact ⟨hstops.2, by rw [hstops.1]⟩
    · rw [Cursor.peek, hs, hd] at hb
      rw [hb d rfl] at hblank
      cases hblank
    · have hlt := readValue_rest_length_lt hch hb hv
      rw [hs] at hlt
      have hbehind : behind.rest ≠ [] := by
        intro hempty
        have hadvance := (behind.extend x).advance_rest_length_le
        simp only [Cursor.extend_rest, hempty, List.nil_append] at hadvance
        omega
      rw [Cursor.advance_extend hbehind] at hv hlt
      have hadvance : behind.advance.rest ≠ [] := by
        intro hempty
        simp only [Cursor.extend_rest, hempty, List.nil_append] at hlt
        exact Nat.lt_irrefl _ hlt
      exact opensGroup_of_adjacent hx ht hv hs hadvance
  · simp only [Delimited, nameAt?_none_of_extend hname]
    exact opensGroup_of_adjacent hx ht hr hs hne

/-- **A token that ends in a text stays as it is** if text that closes nothing is put behind,
unless the end of the text alone has stopped it. -/
theorem readHere_extend {stop : Cursor} (hd : Unclosing ds) (ht : dropBlanks ds = ds)
    (h : readHere rules c = .ok (t, stop)) (hne : c.rest ≠ [])
    (hends : stop.rest ≠ [] ∨ Delimited rules c) :
    readHere rules (c.extend ds) = .ok (t, stop.extend ds) := by
  rcases readHere_cases h with ⟨name, behind, assigned, hname, hr, rfl⟩ | ⟨v, hname, hr, rfl⟩
  · simp only [Delimited, hname] at hends
    have hbehind : behind.rest ≠ [] := by
      intro hempty
      rcases hends with hends | ⟨ch, hch, -⟩
      · have hle := readAssigned_rest_length_le hr
        rw [hempty] at hle
        exact hends (List.eq_nil_of_length_eq_zero (Nat.le_zero.mp hle))
      · rw [Cursor.peek, Cursor.advance_rest, hempty] at hch
        cases hch
    have hname' : nameAt? rules (c.extend ds) = some (name, behind.extend ds) := by
      refine nameAt?_extend hname fun ch hch => ?_
      rw [List.head?_append_of_ne_nil _ hbehind] at hch
      exact nameAt?_head hname ch hch
    rw [readHere_of_nameAt? hname' (readAssigned_extend hd ht hr hends), between_extend]
  · simp only [Delimited, hname] at hends
    obtain ⟨ch, cs, hc⟩ := List.exists_cons_of_ne_nil hne
    have hother : ∃ d ∈ c.rest, d ≠ '-' := by
      refine exists_ne_dash hc (hends.symm.imp (fun ho => ?_) fun hends => ⟨v, stop, hr, hends⟩)
      obtain ⟨d, hd, hopens⟩ := ho
      rw [Cursor.peek_of_rest hc] at hd
      cases hd
      exact hopens
    rw [readHere_of_readValue (nameAt?_none_extend hname hother) (hd.readValue_extend ht hr hends),
      ofValue_extend]

/-! ### The tokens of a text -/

/-- The tokens `ts` are read from the first cursor up to the second. -/
inductive ReadTo (rules : TokenRules) : Cursor → List Token → Cursor → Prop
  | nil (c : Cursor) : ReadTo rules c [] c
  | cons {c stop d : Cursor} {t : Token} {ts : List Token}
      (h : read? rules c = .ok (some (t, stop))) (hs : ReadTo rules stop ts d) :
      ReadTo rules c (t :: ts) d

namespace ReadTo

variable {ts : List Token} {d : Cursor}

theorem ofCursor (h : ReadTo rules c ts d) :
    Tokens.ofCursor rules c = .prepend ts (Tokens.ofCursor rules d) := by
  induction h with
  | nil => rfl
  | cons hread _ ih => rw [Tokens.ofCursor_some hread, ih, Tokens.prepend_cons]

theorem rest_length_le (h : ReadTo rules c ts d) : d.rest.length ≤ c.rest.length := by
  induction h with
  | nil => exact Nat.le_refl _
  | cons hread _ ih => exact Nat.le_trans ih (Nat.le_of_lt (read?_rest_length_lt hread))

/-- A text has the tokens that are read from it, and then those that are left. -/
theorem exists_of_ofCursor {tail : Tokens} : ∀ {ts : List Token} {c : Cursor},
    Tokens.ofCursor rules c = .prepend ts tail →
      ∃ d, ReadTo rules c ts d ∧ Tokens.ofCursor rules d = tail
  | [], c, h => ⟨c, .nil c, h⟩
  | t :: ts, c, h => by
    rw [Tokens.prepend_cons] at h
    obtain ⟨stop, hread, hrest⟩ := read?_of_more h
    obtain ⟨d, hd, htail⟩ := exists_of_ofCursor hrest
    exact ⟨d, .cons hread hd, htail⟩

end ReadTo

/-- The tokens `ts` are read from the first cursor up to the second, and each of them stays as it
is when the text goes on: it is delimited, or the end of the text has not stopped it. -/
inductive StaysTo (rules : TokenRules) : Cursor → List Token → Cursor → Prop
  | nil (c : Cursor) : StaysTo rules c [] c
  | cons {c stop d : Cursor} {t : Token} {ts : List Token}
      (h : read? rules c = .ok (some (t, stop)))
      (hstays : stop.rest ≠ [] ∨ Delimited rules c.skipBlanks) (hs : StaysTo rules stop ts d) :
      StaysTo rules c (t :: ts) d

variable {ts : List Token} {d : Cursor}

theorem StaysTo.readTo (h : StaysTo rules c ts d) : ReadTo rules c ts d := by
  induction h with
  | nil => exact .nil _
  | cons hread _ _ ih => exact .cons hread ih

/-- **Tokens that stay as they are** are read from a text that goes on. -/
theorem StaysTo.extend (hd : Unclosing ds) (ht : dropBlanks ds = ds) (h : StaysTo rules c ts d) :
    ReadTo rules (c.extend ds) ts (d.extend ds) := by
  induction h with
  | nil => exact .nil _
  | @cons c stop d t ts hread hstays _ ih =>
    obtain ⟨hne, hhere⟩ := read?_eq_some_iff.mp hread
    have hskip : (c.extend ds).skipBlanks = c.skipBlanks.extend ds := Cursor.skipBlanks_extend ht c
    have hsome : dropBlanks (c.extend ds).rest ≠ [] := by
      rw [← Cursor.skipBlanks_rest, hskip, Cursor.extend_rest, Cursor.skipBlanks_rest]
      exact List.append_ne_nil_of_left_ne_nil hne ds
    have hhere' := readHere_extend hd ht hhere (by rwa [Cursor.skipBlanks_rest]) hstays
    rw [← hskip] at hhere'
    exact .cons (read?_eq_some_iff.mpr ⟨hsome, hhere'⟩) ih

/-- **Tokens in front of another one** are read from the text before it, and stay as they are. -/
theorem ReadTo.staysTo_of_extend {x : List Char} (hx : x ≠ []) (ht : dropBlanks x = x) :
    ∀ {ts : List Token} {c d : Cursor}, ReadTo rules (c.extend x) ts d →
      x.length ≤ d.rest.length → ∃ d', d = d'.extend x ∧ StaysTo rules c ts d'
  | [], c, d, h, _ => by
    cases h
    exact ⟨c, rfl, .nil c⟩
  | t :: ts, c, d, h, hl => by
    cases h with
    | @cons _ stop _ _ _ hread hs =>
      have hstop := Nat.le_trans hl hs.rest_length_le
      have hlt := read?_rest_length_lt hread
      obtain ⟨hsome, hhere⟩ := read?_eq_some_iff.mp hread
      have hskip : (c.extend x).skipBlanks = c.skipBlanks.extend x := Cursor.skipBlanks_extend ht c
      rw [hskip] at hhere
      obtain ⟨stop', rfl, hhere'⟩ := readHere_of_extend hhere hstop
      have hne : c.skipBlanks.rest ≠ [] := by
        intro hempty
        obtain ⟨ch, cs, hc⟩ := List.exists_cons_of_ne_nil hx
        have hnew : (c.skipBlanks.extend x).rest = ch :: cs := by
          rw [Cursor.extend_rest, hempty, hc, List.nil_append]
        have htakes := readHere_rest_length_lt (Cursor.peek_of_rest hnew)
          (isBlank_of_dropBlanks (hc ▸ ht)) hhere
        simp only [Cursor.extend_rest, hempty, List.nil_append, List.length_append] at htakes
        omega
      have hread' : read? rules c = .ok (some (t, stop')) :=
        read?_eq_some_iff.mpr ⟨by rwa [Cursor.skipBlanks_rest] at hne, hhere'⟩
      obtain ⟨d', rfl, hstays⟩ := staysTo_of_extend hx ht hs hl
      refine ⟨d', rfl, .cons hread' ?_ hstays⟩
      by_cases hrest : stop'.rest = []
      · have hadjacent : (stop'.extend x).rest = x := by simp [hrest]
        exact .inr (delimited_of_adjacent hx ht hhere hadjacent hne)
      · exact .inl hrest

/-- A token up to the end of a text that ends with a blank is delimited. -/
theorem stays_of_endsBlank {stop : Cursor} (hs : '\\' ∉ c.rest) (hb : ¬EndsFull c.rest)
    (h : readHere rules c = .ok (t, stop)) : stop.rest ≠ [] ∨ Delimited rules c := by
  by_cases hstop : stop.rest = []
  · refine .inr ?_
    rcases readHere_cases h with ⟨name, behind, assigned, hname, hr, -⟩ | ⟨v, hname, hr, -⟩
    · simp only [Delimited, hname]
      obtain ⟨cs, hcs, -⟩ := nameAt?_reaches hname
      rcases readAssigned_cases hr with
        ⟨-, -, rfl⟩ | ⟨-, hp, ⟨-, -, rfl⟩ | ⟨ch, v, hch, -, -, hv⟩⟩
      · -- nothing in a name is blank
        exfalso
        obtain ⟨ch, ds, hc, -, hend⟩ := nameAt?_eq_some_iff.mp hname
        have hdashes : c.advance.advance.rest = ch :: ds := by simp [hc]
        rw [(Prod.mk.inj hend).2, nameEnd, Cursor.skipWhile, hdashes] at hstop
        have hall : ∀ d ∈ ch :: ds, isBlank d = false := by
          intro d hd
          have hin := Cursor.of_skipFrom_rest hstop d hd
          simp only [TokenRules.inName, Bool.not_eq_true', Bool.or_eq_false_iff] at hin
          exact hin.1
        refine hb (hc ▸ .of_all fun d hd => ?_)
        simp only [List.mem_cons] at hd hall
        rcases hd with rfl | rfl | hd
        · decide
        · decide
        · exact hall d hd
      · exfalso
        obtain ⟨es, hes⟩ := List.head?_eq_some_iff.mp hp
        rw [Cursor.advance_rest, hes, List.tail_cons] at hstop
        rw [hcs, hes, hstop] at hb
        exact hb (.append (List.cons_ne_nil _ _) fun d hd => by cases hd; decide)
      · obtain ⟨es, hes⟩ := List.head?_eq_some_iff.mp hp
        have hadvance : behind.advance.rest = es := by rw [Cursor.advance_rest, hes, List.tail_cons]
        have hall : c.rest = cs ++ ['='] ++ behind.advance.rest := by simp [hcs, hes]
        have hne : behind.advance.rest ≠ [] := by
          intro hempty
          rw [Cursor.peek_of_rest_nil hempty] at hch
          cases hch
        exact opensGroup_of_endsBlank (fun hm => hs (hall ▸ List.mem_append_right _ hm))
          (fun hfull => hb (hall ▸ .append hne hfull)) hv hstop
    · simp only [Delimited, hname]
      exact opensGroup_of_endsBlank hs hb hr hstop
  · exact .inl hstop

/-- **The tokens of a text that ends with a blank** stay as they are. -/
theorem ReadTo.staysTo_of_endsBlank (h : ReadTo rules c ts d) (hs : '\\' ∉ c.rest)
    (hb : ¬EndsFull c.rest) : StaysTo rules c ts d := by
  induction h with
  | nil => exact .nil _
  | @cons c stop d t ts hread htail ih =>
    obtain ⟨hne, hhere⟩ := read?_eq_some_iff.mp hread
    rw [← Cursor.skipBlanks_rest] at hne
    obtain ⟨bs, hbs, -⟩ := Cursor.Reaches.skipBlanks c
    have hstays : stop.rest ≠ [] ∨ Delimited rules c.skipBlanks :=
      stays_of_endsBlank (fun hm => hs (hbs ▸ List.mem_append_right bs hm))
        (fun hfull => hb (hbs ▸ .append hne hfull)) hhere
    refine .cons hread hstays ?_
    by_cases hstop : stop.rest = []
    · -- nothing is left to be read
      cases htail with
      | nil => exact .nil _
      | cons hread' _ =>
        have hsome := (read?_eq_some_iff.mp hread').1
        rw [hstop] at hsome
        exact absurd rfl hsome
    · obtain ⟨ch, cs, hc⟩ := List.exists_cons_of_ne_nil hne
      rw [Cursor.skipBlanks_rest] at hc
      have hpeek : c.skipBlanks.peek = some ch := Cursor.peek_of_rest (by rw [Cursor.skipBlanks_rest, hc])
      obtain ⟨us, hus, -⟩ := (readHere_placed hpeek (isBlank_of_dropBlanks hc) hhere).2.2
      have hall : c.rest = bs ++ us ++ stop.rest := by rw [hbs, hus, List.append_assoc]
      exact ih (fun hm => hs (hall ▸ List.mem_append_right _ hm)) (fun hfull => hb (hall ▸ .append hstop hfull))

end Token
end CommandConsole
