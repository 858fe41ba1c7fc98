/-
# Words that can be typed

A word is read from a line as one token with its own text if it begins neither
a group nor a name, is not the separator, and is read as it is written; and in
no other case. A name behind two dashes is read with nothing assigned if there
is no equals sign in it, and in no other case.

Key definitions: `TokenRules.beginsName`, `Typable`, `Token.Spells`.
Key theorems: `Tokens.ofText_typable_iff`, `Tokens.ofText_name_iff`.
-/
import CommandConsole.Proofs.Literal.AsWritten
import CommandConsole.Proofs.Literal.Derivation
import CommandConsole.Proofs.Token.Tiling

namespace CommandConsole

/-- Two dashes and a character that names go on with. -/
def TokenRules.beginsName (rules : TokenRules) : List Char → Bool
  | '-' :: '-' :: c :: _ => rules.inName c
  | _ => false

/-- In front of `rest` the word is read as a token with its own text. -/
structure Typable (rules : TokenRules) (rest : List Char) (w : String) : Prop where
  head : w.toList.head?.all (!opensGroup ·) = true
  noName : rules.beginsName w.toList = false
  noSeparator : w ≠ rules.separator
  asWritten : AsWritten rest 0 w.toList

theorem typable_iff {rules : TokenRules} {rest : List Char} {w : String} :
    Typable rules rest w ↔ w.toList.head?.all (!opensGroup ·) = true ∧
      rules.beginsName w.toList = false ∧ w ≠ rules.separator ∧ AsWritten rest 0 w.toList :=
  ⟨fun h => ⟨h.head, h.noName, h.noSeparator, h.asWritten⟩, fun ⟨h, hn, hs, hw⟩ => ⟨h, hn, hs, hw⟩⟩

instance decidableTypable (rules : TokenRules) (rest : List Char) (w : String) :
    Decidable (Typable rules rest w) :=
  decidable_of_iff _ typable_iff.symm

/-- The token is written as the word, and says it. -/
structure Token.Spells (w : String) (t : Token) : Prop where
  raw : t.raw = w
  word : t.word? = some w

variable {rules : TokenRules} {rest : List Char} {w : String} {c stop : Cursor} {t : Token}

/-! ### Words -/

theorem TokenRules.beginsName_iff {cs : List Char} : rules.beginsName cs = true ↔
    ∃ ch ds, cs = '-' :: '-' :: ch :: ds ∧ rules.inName ch = true := by
  unfold beginsName
  split
  · rename_i ch ds
    exact ⟨fun h => ⟨ch, ds, rfl, h⟩, fun ⟨_, _, hcs, h⟩ => by cases hcs; exact h⟩
  · rename_i hno
    exact ⟨fun h => (by cases h), fun ⟨ch, ds, hcs, _⟩ => absurd hcs (hno ch ds)⟩

theorem nameAt?_eq_none_iff : Token.nameAt? rules c = none ↔ rules.beginsName c.rest = false := by
  rw [← Option.not_isSome_iff_eq_none, ← Bool.not_eq_true, TokenRules.beginsName_iff, not_iff_not,
    Option.isSome_iff_exists]
  constructor
  · rintro ⟨r, hr⟩
    obtain ⟨ch, cs, hc, hn, -⟩ := Token.nameAt?_eq_some_iff.mp hr
    exact ⟨ch, cs, hc, hn⟩
  · rintro ⟨ch, cs, hc, hn⟩
    exact ⟨_, Token.nameAt?_of_rest hc hn⟩

/-- What stands behind a word does not make a name of it. -/
theorem TokenRules.beginsName_append (hw : w.toList ≠ []) (hstops : Place.topLevel.Stops rest) :
    rules.beginsName (w.toList ++ rest) = rules.beginsName w.toList := by
  rw [Bool.eq_iff_iff, beginsName_iff, beginsName_iff]
  match w.toList, hw with
  | [a], _ =>
    refine iff_of_false ?_ (by simp)
    rintro ⟨ch, ds, hcs, -⟩
    obtain ⟨-, rfl⟩ : a = '-' ∧ rest = '-' :: ch :: ds := by simpa using hcs
    exact absurd (hstops '-' rfl) (by decide)
  | [a, b], _ =>
    refine iff_of_false ?_ (by simp)
    rintro ⟨ch, ds, hcs, hn⟩
    obtain ⟨-, -, rfl⟩ : a = '-' ∧ b = '-' ∧ rest = ch :: ds := by simpa using hcs
    rw [Piece.inName_of_stops hstops ch rfl] at hn
    cases hn
  | a :: b :: d :: ds, _ => simp

/-- **A word that can be typed** is read as one token with its own text. -/
theorem Typable.readHere (h : Typable rules rest w) (hw : isWord w = true)
    (hstops : Place.topLevel.Stops rest) (hc : c.rest = w.toList ++ rest) :
    ∃ t stop, Token.readHere rules c = .ok (t, stop) ∧ stop.rest = rest ∧ t.word? = some w := by
  obtain ⟨hne, hblank⟩ := isWord_iff.mp hw
  obtain ⟨ch, cs, hcs⟩ := List.exists_cons_of_ne_nil hne
  have ho : opensGroup ch = false := by simpa [hcs] using h.head
  have hquote : w.toList.head? ≠ some '"' := by
    rw [hcs]
    rintro ⟨⟩
    exact absurd ho (by decide)
  have hname : Token.nameAt? rules c = none := by
    rw [nameAt?_eq_none_iff, hc, TokenRules.beginsName_append hne hstops]
    exact h.noName
  obtain ⟨stop, hscan⟩ := scanBareword_asWritten hstops hblank (Nat.zero_le _) h.asWritten c.offset
  have hread : readValue rules.maxDepth c = .ok (.scalar w ⟨c.offset, stop⟩, ⟨stop, rest⟩) := by
    rw [readValue_word _ (by rw [hc, hcs, List.cons_append]) ho, hc, hscan, String.ofList_toList]
  exact ⟨_, _, Token.readHere_of_readValue hname hread, rfl,
    (Token.word?_ofValue (Cursor.textTo_of_rest hc) h.noSeparator hquote).1⟩

/-- A scalar that is read stands in quotes or is a bareword. -/
theorem beginsWord_of_scalar {limit : Nat} {text : String} {span : Span}
    (h : readValue limit c = .ok (.scalar text span, stop)) :
    c.peek = some '"' ∨ c.BeginsWord 0 := by
  generalize hv : Literal.scalar text span = v at h
  cases readValue_iff_derives.mp h with
  | word hword => exact .inr hword
  | quoted hq => exact .inl hq
  | _ => cases hv

/-- A token that is a word is a scalar without quotes, and not the separator. -/
theorem scalar_of_word? (h : Token.readHere rules c = .ok (t, stop)) (ht : t.word? = some w) :
    Token.nameAt? rules c = none ∧ c.textTo stop ≠ rules.separator ∧
      (c.textTo stop).toList.head? ≠ some '"' ∧
        ∃ span, readValue rules.maxDepth c = .ok (.scalar w span, stop) := by
  obtain ⟨span, hkind⟩ := Token.kind_of_word? ht
  obtain ⟨hname, hsep, hread⟩ := Token.readHere_value_iff.mp ⟨t, h, hkind⟩
  refine ⟨hname, hsep, fun hquote => ?_, span, hread⟩
  unfold Token.word? at ht
  rw [hkind, Token.raw_of_readHere h] at ht
  dsimp only at ht
  rw [if_pos hquote] at ht
  cases ht

/-- **No other word is.** -/
theorem typable_of_readHere (hw : isWord w = true) (hstops : Place.topLevel.Stops rest)
    (hc : c.rest = w.toList ++ rest) (h : Token.readHere rules c = .ok (t, stop))
    (ht : t.word? = some w) : Typable rules rest w ∧ stop.rest = rest := by
  obtain ⟨hne, hblank⟩ := isWord_iff.mp hw
  obtain ⟨ch, cs, hcs⟩ := List.exists_cons_of_ne_nil hne
  obtain ⟨hname, hsep, hquote, span, hread⟩ := scalar_of_word? h ht
  have hrest : c.rest = ch :: (cs ++ rest) := by rw [hc, hcs, List.cons_append]
  have ho : opensGroup ch = false := by
    rcases beginsWord_of_scalar hread with hpeek | hbegins
    · -- a token that begins with a quote is none
      have hlt := readValue_rest_length_lt (Cursor.peek_of_rest hrest)
        (hblank ch (by simp [hcs])) hread
      have htaken : c.rest.length - stop.rest.length ≠ 0 := by omega
      rw [Cursor.textTo, String.toList_ofList, Cursor.charsTo, List.head?_take, if_neg htaken] at hquote
      exact absurd hpeek hquote
    · rw [Cursor.BeginsWord, Cursor.peek_of_rest hrest] at hbegins
      exact hbegins.1
  rw [readValue_word _ hrest ho] at hread
  obtain ⟨hscalar, hstop⟩ := Prod.mk.inj (Except.ok.inj hread)
  have htext : (scanBareword .topLevel 0 c.offset (w.toList ++ rest)).text = w.toList := by
    rw [← hc, ← (Literal.scalar.inj hscalar).1, String.toList_ofList]
  have hwritten : AsWritten rest 0 w.toList := asWritten_of_scanBareword hstops hblank htext
  obtain ⟨last, hscan⟩ := scanBareword_asWritten hstops hblank (Nat.zero_le _) hwritten c.offset
  have hstoprest : stop.rest = rest := by rw [← hstop, hc, hscan]
  rw [Cursor.textTo_of_rest (by rw [hc, hstoprest])] at hsep
  refine ⟨⟨by simp [hcs, ho], ?_, hsep, hwritten⟩, hstoprest⟩
  rw [← TokenRules.beginsName_append hne hstops, ← hc]
  exact nameAt?_eq_none_iff.mp hname

/-- Every word can be typed in front of those that follow it. -/
abbrev AllTypable (rules : TokenRules) : List String → Prop := AllInFront id (Typable rules)

/-- A plain word can be typed in front of anything. -/
theorem TokenRules.Plain.typable (h : rules.Plain w) (rest : List Char) : Typable rules rest w := by
  refine ⟨?_, ?_, h.separator, h.asWritten rest⟩
  · obtain ⟨ch, cs, hcs⟩ := List.exists_cons_of_ne_nil h.ne_nil
    simp [hcs, (h.chars ch (by simp [hcs])).2.2]
  · rw [← Bool.not_eq_true, TokenRules.beginsName_iff]
    rintro ⟨ch, ds, hcs, -⟩
    exact h.dashes _ hcs

theorem allTypable_of_plain {words : List String} (h : ∀ w ∈ words, rules.Plain w) :
    AllTypable rules words :=
  .of_forall fun w hw rest _ => (h w hw).typable rest

/-- **Words are read from a line as tokens with their own texts exactly if all of them can be
typed.** -/
theorem Tokens.ofText_typable_iff {words : List String} (h : ∀ w ∈ words, isWord w = true) :
    (∃ ts stop, ofText rules (joined words) = .prepend ts (.finished stop) ∧
      List.Forall₂ (fun w t => Token.word? t = some w) words ts) ↔ AllTypable rules words := by
  have hfull : ∀ w ∈ words, BeginsFull (id w).toList := by
    intro w hw
    obtain ⟨hne, hblank⟩ := isWord_iff.mp (h w hw)
    obtain ⟨ch, cs, hcs⟩ := List.exists_cons_of_ne_nil hne
    exact ⟨ch, cs, hcs, hblank ch (by simp [hcs])⟩
  refine ofCursor_joined_iff hfull (fun w hw rest hstops htyped c hc => ?_)
    (fun w hw rest hstops c hc t stop hhere ht => ?_) ?_
  · exact htyped.readHere (h w hw) hstops hc
  · exact typable_of_readHere (h w hw) hstops hc hhere ht
  · have hline := dropBlanks_joined (List.forall_mem_map.mpr hfull)
    rwa [List.map_id] at hline ⊢

/-! ### Names -/

namespace Token

variable {name : String}

/-- A name holds nothing that names do not go on with. -/
theorem inName_of_nameAt? (h : nameAt? rules c = some (name, stop)) :
    ∀ ch ∈ name.toList, rules.inName ch = true := by
  obtain ⟨ch, cs, -, -, hr⟩ := nameAt?_eq_some_iff.mp h
  obtain ⟨rfl, rfl⟩ := Prod.mk.inj hr
  obtain ⟨used, hused, hall⟩ := Cursor.skipFrom_used (p := rules.inName) c.advance.advance.offset
    c.advance.advance.rest
  have htext : c.advance.advance.textTo (nameEnd rules c) = String.ofList used :=
    Cursor.textTo_of_rest (by rw [String.toList_ofList]; exact hused)
  rw [htext, String.toList_ofList]
  exact hall

theorem nameAt?_of_named {v : Option Literal} (h : readHere rules c = .ok (t, stop))
    (ht : t.kind = .named name v) : ∃ behind, nameAt? rules c = some (name, behind) := by
  obtain ⟨behind, hname, -⟩ := readHere_named_iff.mp ⟨t, h, ht⟩
  exact ⟨behind, hname⟩

end Token

/-- **A word behind two dashes is read as a name with nothing assigned exactly if there is no equals
sign in it**, where names are assigned to. -/
theorem Tokens.ofText_name_iff {n : String} (hn : isWord n = true) :
    (∃ t stop, ofText rules ("--" ++ n) = .more t (.finished stop) ∧ t.kind = .named n none) ↔
      (rules.assignSyntax = true → '=' ∉ n.toList) := by
  constructor
  · rintro ⟨t, stop, hts, ht⟩ ha hmem
    obtain ⟨last, hread, -⟩ := Token.read?_of_more hts
    obtain ⟨behind, hname⟩ := Token.nameAt?_of_named (Token.read?_eq_some_iff.mp hread).2 ht
    have hin := Token.inName_of_nameAt? hname '=' hmem
    simp [TokenRules.inName, ha] at hin
  · intro he
    have hfits : ∀ p ∈ [Piece.name n], p.Fits rules := by
      intro p hp
      obtain rfl := List.mem_singleton.mp hp
      exact ⟨hn, he⟩
    obtain ⟨ts, stop, hts, hreads⟩ := Piece.ofText_line hfits
    obtain ⟨t, us, ht, hnil, rfl⟩ := List.forall₂_cons_left_iff.mp hreads
    obtain rfl := List.forall₂_nil_left_iff.mp hnil
    exact ⟨t, stop, hts, ht⟩

end CommandConsole
