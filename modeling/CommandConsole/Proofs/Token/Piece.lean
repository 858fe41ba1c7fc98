/-
# Lines that are made of pieces

A line may be put together from pieces: words, names, and names with a literal
assigned, one space between any two. If each piece is fit to be written, it is
read back as one token, whatever stands behind it; so the line is read back as
the pieces it was made of, one after the other.

Key definitions: `TokenRules.isPlain`, `Piece`, `Piece.Fits`, `Piece.Reads`, `Piece.line`.
Key theorems: `Piece.Fits.readHere`, `Piece.ofText_line`.
-/
import CommandConsole.Command.Registration
import CommandConsole.Proofs.Literal.AsWritten
import CommandConsole.Proofs.Literal.RoundTrip
import CommandConsole.Proofs.Text.Reach
import CommandConsole.Proofs.Token.Joined
import CommandConsole.Text.Part

namespace CommandConsole

/-! ### Plain words -/

/-- A word that is read as itself: it holds nothing that groups or escapes, is not the
separator, and does not look like a name. -/
def TokenRules.isPlain (rules : TokenRules) (text : String) : Bool :=
  isWord text && text.toList.all (fun c => c != '\\' && !opensGroup c) &&
    !beginsWith text "--" && text != rules.separator

structure TokenRules.Plain (rules : TokenRules) (text : String) : Prop where
  ne_nil : text.toList ≠ []
  chars : ∀ c ∈ text.toList, isBlank c = false ∧ c ≠ '\\' ∧ opensGroup c = false
  dashes : ∀ cs, text.toList ≠ '-' :: '-' :: cs
  separator : text ≠ rules.separator

theorem isWord_iff {text : String} :
    isWord text = true ↔ text.toList ≠ [] ∧ ∀ c ∈ text.toList, isBlank c = false := by
  simp [isWord]

theorem TokenRules.plain_of_isPlain {rules : TokenRules} {text : String}
    (h : rules.isPlain text = true) : rules.Plain text := by
  simp only [isPlain, Bool.and_eq_true, List.all_eq_true, bne_iff_ne, Bool.not_eq_eq_eq_not,
    Bool.not_true] at h
  obtain ⟨⟨⟨hword, hchars⟩, hdashes⟩, hsep⟩ := h
  obtain ⟨hne, hblank⟩ := isWord_iff.mp hword
  refine ⟨hne, fun c hc => ⟨hblank c hc, (hchars c hc).1, (hchars c hc).2⟩, fun cs hcs => ?_, hsep⟩
  rw [beginsWith, hcs] at hdashes
  simp at hdashes

/-- What stands behind a plain word makes nothing else of it. -/
theorem TokenRules.Plain.asWritten {rules : TokenRules} {text : String} (h : rules.Plain text)
    (rest : List Char) : AsWritten rest 0 text.toList :=
  asWritten_of_ordinary fun c hc => (h.chars c hc).2

/-- A plain word is a scalar with its own text. -/
theorem readValue_plain {rules : TokenRules} {limit : Nat} {text : String} {c : Cursor}
    {rest : List Char} (hp : rules.Plain text) (hc : c.rest = text.toList ++ rest)
    (hstops : Place.topLevel.Stops rest) :
    ∃ span stop, readValue limit c = .ok (.scalar text span, stop) ∧ stop.rest = rest := by
  obtain ⟨ch, cs, htext⟩ : ∃ ch cs, text.toList = ch :: cs := List.exists_cons_of_ne_nil hp.ne_nil
  have hblank : ∀ c ∈ text.toList, isBlank c = false := fun c hc => (hp.chars c hc).1
  obtain ⟨stop, hscan⟩ := scanBareword_asWritten hstops hblank (Nat.zero_le _) (hp.asWritten rest)
    c.offset
  have hrest : c.rest = ch :: (cs ++ rest) := by rw [hc, htext, List.cons_append]
  have hplain := (hp.chars ch (by simp [htext])).2.2
  refine ⟨⟨c.offset, stop⟩, ⟨stop, rest⟩, ?_, rfl⟩
  rw [readValue_word limit hrest hplain, hc, hscan, String.ofList_toList]

/-! ### Names -/

namespace Cursor

theorem skipFrom_append {p : Char → Bool} {rest : List Char} (hr : ∀ c ∈ rest.head?, p c = false) :
    ∀ {w : List Char}, (∀ c ∈ w, p c = true) → ∀ offset : Nat,
      skipFrom p offset (w ++ rest) = ⟨offset + byteLength w, rest⟩
  | [], _, offset => by
    cases rest with
    | nil => rfl
    | cons c cs => simp [skipFrom, hr c rfl]
  | c :: w, hw, offset => by
    obtain ⟨hc, hw⟩ := List.forall_mem_cons.mp hw
    rw [List.cons_append, skipFrom, if_pos hc, skipFrom_append hr hw, byteLength_cons,
      Nat.add_assoc]

end Cursor

theorem byteLength_pos {cs : List Char} (h : cs ≠ []) : 0 < byteLength cs := by
  cases cs with
  | nil => exact absurd rfl h
  | cons c cs =>
    have := c.utf8Size_pos
    rw [byteLength_cons]
    omega

namespace Token

variable {rules : TokenRules} {c : Cursor} {name : String} {rest : List Char}

/-- Two dashes and a word are a name, up to where it stops. -/
theorem nameAt?_name (hn : isWord name = true)
    (he : rules.assignSyntax = true → '=' ∉ name.toList)
    (hc : c.rest = '-' :: '-' :: (name.toList ++ rest))
    (hr : ∀ ch ∈ rest.head?, rules.inName ch = false) :
    ∃ stop, nameAt? rules c = some (name, stop) ∧ stop.rest = rest := by
  obtain ⟨hne, hblank⟩ := isWord_iff.mp hn
  have hname : ∀ ch ∈ name.toList, rules.inName ch = true := by
    intro ch hch
    simp only [TokenRules.inName, hblank ch hch, Bool.false_or, Bool.not_eq_true',
      Bool.and_eq_false_iff, beq_eq_false_iff_ne]
    by_cases ha : rules.assignSyntax = true
    · exact .inl fun h => he ha (h ▸ hch)
    · exact .inr (by simpa using ha)
  have hstart : c.advance.advance.rest = name.toList ++ rest := by simp [hc]
  have hskip : c.advance.advance.skipWhile rules.inName =
      ⟨c.advance.advance.offset + byteLength name.toList, rest⟩ := by
    rw [Cursor.skipWhile, hstart, Cursor.skipFrom_append hr hname]
  have hpos := byteLength_pos hne
  refine ⟨⟨c.advance.advance.offset + byteLength name.toList, rest⟩, ?_, rfl⟩
  unfold nameAt?
  rw [hc]
  dsimp only
  rw [hskip, if_neg (by simp only; omega), Cursor.textTo_of_rest hstart]
  rfl

/-- What does not begin with two dashes is no name. -/
theorem nameAt?_of_not_dashes {w : List Char} (hne : w ≠ []) (hd : ∀ cs, w ≠ '-' :: '-' :: cs)
    (hc : c.rest = w ++ rest) (hstops : Place.topLevel.Stops rest) : nameAt? rules c = none := by
  unfold nameAt?
  split
  · rename_i cs hcs
    exfalso
    rw [hc] at hcs
    match w, hcs with
    | [], _ => exact hne rfl
    | [d], hcs =>
      obtain ⟨rfl, hrest⟩ := List.cons.inj hcs
      have : isBlank '-' = true := hstops '-' (by simp [show rest = '-' :: cs from hrest])
      exact absurd this (by decide)
    | d :: e :: ds, hcs =>
      obtain ⟨rfl, htail⟩ := List.cons.inj hcs
      obtain ⟨rfl, -⟩ := List.cons.inj htail
      exact hd ds rfl
  · rfl

/-- A scalar with the text that is written there is a word, if it is neither quoted nor the
separator. -/
theorem word?_ofValue {w : String} {span : Span} {stop : Cursor} (htext : c.textTo stop = w)
    (hsep : w ≠ rules.separator) (hquote : w.toList.head? ≠ some '"') :
    (ofValue rules (.scalar w span) c stop).word? = some w ∧
      (ofValue rules (.scalar w span) c stop).isSeparator = false := by
  rw [ofValue, htext, if_neg hsep]
  refine ⟨?_, rfl⟩
  simp only [word?, between, htext]
  rw [if_neg hquote]

end Token

/-! ### Pieces -/

/-- What one token is written from. -/
inductive Piece where
  | word (text : String)
  | name (name : String)
  | assigned (name : String) (value : Literal)

namespace Piece

def text : Piece → String
  | .word w => w
  | .name n => "--" ++ n
  | .assigned n v => "--" ++ n ++ "=" ++ v.render

/-- The pieces with a space between any two. -/
def line (pieces : List Piece) : String := String.intercalate " " (pieces.map text)

/-- The piece can be written so that it is read as one token. -/
def Fits (rules : TokenRules) : Piece → Prop
  | .word w => rules.Plain w
  | .name n => isWord n = true ∧ (rules.assignSyntax = true → '=' ∉ n.toList)
  | .assigned n v => isWord n = true ∧ '=' ∉ n.toList ∧ rules.assignSyntax = true ∧
      v.depth ≤ rules.maxDepth

/-- The token says what the piece says. -/
def Reads : Piece → Token → Prop
  | .word w, t => t.word? = some w ∧ t.isSeparator = false
  | .name n, t => t.kind = .named n none
  | .assigned n v, t => ∃ read, t.kind = .named n (some read) ∧ read.unspanned = v.filled.unspanned

variable {rules : TokenRules} {p : Piece} {c : Cursor} {rest : List Char}

theorem toList_dashes (name : String) : ("--" ++ name).toList = '-' :: '-' :: name.toList := by
  simp

theorem Fits.beginsFull (h : p.Fits rules) : BeginsFull p.text.toList := by
  cases p with
  | word w =>
    obtain ⟨ch, cs, hcs⟩ := List.exists_cons_of_ne_nil h.ne_nil
    exact ⟨ch, cs, hcs, (h.chars ch (by simp [hcs])).1⟩
  | name n => exact ⟨'-', _, toList_dashes n, by decide⟩
  | assigned n v =>
    refine ⟨'-', '-' :: (n ++ "=" ++ v.render).toList, ?_, by decide⟩
    simp [text]

theorem inName_of_stops (hstops : Place.topLevel.Stops rest) :
    ∀ ch ∈ rest.head?, rules.inName ch = false := by
  intro ch hch
  have hb : isBlank ch = true := hstops ch hch
  simp [TokenRules.inName, hb]

theorem readHere_word {w : String} (hp : rules.Plain w) (hc : c.rest = w.toList ++ rest)
    (hstops : Place.topLevel.Stops rest) :
    ∃ t stop, Token.readHere rules c = .ok (t, stop) ∧ stop.rest = rest ∧ (word w).Reads t := by
  obtain ⟨span, stop, hread, hrest⟩ := readValue_plain hp hc hstops
  have hname : Token.nameAt? rules c = none :=
    Token.nameAt?_of_not_dashes hp.ne_nil hp.dashes hc hstops
  have hquote : w.toList.head? ≠ some '"' := by
    intro hq
    have := (hp.chars '"' (List.mem_of_mem_head? hq)).2.2
    exact absurd this (by decide)
  exact ⟨_, stop, Token.readHere_of_readValue hname hread, hrest,
    Token.word?_ofValue (Cursor.textTo_of_rest (by rw [hc, hrest])) hp.separator hquote⟩

theorem readHere_name {n : String} (hn : isWord n = true)
    (he : rules.assignSyntax = true → '=' ∉ n.toList)
    (hc : c.rest = '-' :: '-' :: (n.toList ++ rest)) (hstops : Place.topLevel.Stops rest) :
    ∃ t stop, Token.readHere rules c = .ok (t, stop) ∧ stop.rest = rest ∧ (name n).Reads t := by
  obtain ⟨stop, hname, hrest⟩ := Token.nameAt?_name hn he hc (inName_of_stops hstops)
  have hassigned : Token.readAssigned rules stop = .ok (none, stop) := by
    unfold Token.readAssigned
    rw [if_neg]
    rintro ⟨-, hpeek⟩
    rw [Cursor.peek, hrest] at hpeek
    have : isBlank '=' = true := hstops '=' hpeek
    exact absurd this (by decide)
  exact ⟨_, stop, Token.readHere_of_nameAt? hname hassigned, hrest, rfl⟩

theorem readHere_assigned {n : String} {v : Literal} (hn : isWord n = true) (he : '=' ∉ n.toList)
    (ha : rules.assignSyntax = true) (hd : v.depth ≤ rules.maxDepth)
    (hc : c.rest = '-' :: '-' :: (n.toList ++ ('=' :: (v.render.toList ++ rest))))
    (hstops : Place.topLevel.Stops rest) :
    ∃ t stop, Token.readHere rules c = .ok (t, stop) ∧ stop.rest = rest ∧
      (assigned n v).Reads t := by
  have hequals : rules.inName '=' = false := by simp [TokenRules.inName, ha]
  obtain ⟨behind, hname, hrest⟩ := Token.nameAt?_name hn (fun _ => he) hc
    (fun ch hch => Option.some.inj hch ▸ hequals)
  have hpeek : behind.peek = some '=' := by rw [Cursor.peek, hrest]; rfl
  have hvalue : behind.advance.rest = v.render.toList ++ rest := by simp [hrest]
  obtain ⟨read, stop, hread, hv, hstop⟩ := readValue_spells (spells_render v) hvalue hstops hd
  obtain ⟨ch, cs, hcs, hb, -⟩ := (spells_render v).head
  have hfirst : behind.advance.peek = some ch := by rw [Cursor.peek, hvalue, hcs]; rfl
  have hassigned : Token.readAssigned rules behind = .ok (some read, stop) := by
    unfold Token.readAssigned
    rw [if_pos ⟨ha, hpeek⟩]
    dsimp only
    rw [hfirst]
    dsimp only
    rw [if_neg (by simp [hb]), hread]
    rfl
  exact ⟨_, stop, Token.readHere_of_nameAt? hname hassigned, hstop, read, rfl, hv⟩

/-- **A piece is read as one token that says what it says**, in front of a blank or the end. -/
theorem Fits.readHere (h : p.Fits rules) (hc : c.rest = p.text.toList ++ rest)
    (hstops : Place.topLevel.Stops rest) :
    ∃ t stop, Token.readHere rules c = .ok (t, stop) ∧ stop.rest = rest ∧ p.Reads t := by
  cases p with
  | word w => exact readHere_word h hc hstops
  | name n =>
    rw [text, toList_dashes] at hc
    exact readHere_name h.1 h.2 hc hstops
  | assigned n v =>
    obtain ⟨hn, he, ha, hd⟩ := h
    refine readHere_assigned hn he ha hd ?_ hstops
    rw [hc, text]
    simp

/-- **A line of pieces is read as the pieces it is made of.** -/
theorem ofText_line {ps : List Piece} (h : ∀ p ∈ ps, p.Fits rules) :
    ∃ ts stop, Tokens.ofText rules (line ps) = .prepend ts (.finished stop) ∧
      List.Forall₂ Reads ps ts :=
  Tokens.ofText_joined (fun p hp => (h p hp).beginsFull)
    (.of_forall fun p hp _ hstops _ hc => (h p hp).readHere hc hstops)

end Piece
end CommandConsole
