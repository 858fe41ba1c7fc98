/-
# What separates commands

A separator is accepted if it is a word that no literal, string or flag begins
like. Between words of letters and digits it is read as one token, whatever
brackets, quotes and backslashes are in it, unless a backslash at its end takes
the blank behind it along: then it is part of a longer word.

Key definitions: `leavesEscape`, `wordsOf`, `ParserConfig.Separates`.
Key theorems: `scanBareword_unclosing`, `scanBareword_escaping`, `Tokens.ofCursor_words`,
`ParserConfig.separates_iff`.
-/
import CommandConsole.Config.Load
import CommandConsole.Proofs.Literal.Unclosing
import CommandConsole.Proofs.Token.Word

namespace CommandConsole

/-! ### Backslashes -/

/-- A backslash at the end of the characters is left to take the next one along. -/
def leavesEscape : List Char → Bool
  | [] => false
  | [c] => c == '\\'
  | c :: d :: cs => if c = '\\' then leavesEscape cs else leavesEscape (d :: cs)

theorem leavesEscape_escape (c : Char) (cs : List Char) :
    leavesEscape ('\\' :: c :: cs) = leavesEscape cs := by
  rw [leavesEscape, if_pos rfl]

theorem leavesEscape_char {c : Char} (hc : c ≠ '\\') (cs : List Char) :
    leavesEscape (c :: cs) = leavesEscape cs := by
  cases cs with
  | nil => simp [leavesEscape, hc]
  | cons d cs => rw [leavesEscape, if_neg hc]

/-- A group takes backslashes along with the characters behind them. -/
theorem leavesEscape_drop (cs : List Char) : ∀ {closers : List Char} {quoted : Bool} {n : Nat},
    groupLength closers quoted cs = some n → leavesEscape (cs.drop n) = leavesEscape cs := by
  induction cs using escaped_induction with
  | nil =>
    intro closers quoted n h
    cases h
  | lone =>
    intro closers quoted n h
    cases h
  | escape c cs ih =>
    intro closers quoted n h
    rw [groupLength_escape] at h
    obtain ⟨m, hm, rfl⟩ := Option.map_eq_some_iff.mp h
    rw [leavesEscape_escape, ← ih hm]
    rfl
  | char c cs hc ih =>
    intro closers quoted n h
    rcases groupLength_cons hc closers quoted with hnone | hend | ⟨closers', quoted', -, hgoes⟩
    · rw [hnone] at h
      cases h
    · rw [hend] at h
      cases h
      rw [leavesEscape_char hc]
      rfl
    · rw [hgoes] at h
      obtain ⟨m, hm, rfl⟩ := Option.map_eq_some_iff.mp h
      rw [leavesEscape_char hc, ← ih hm]
      rfl

variable {rest : List Char}

/-- In front of text that closes nothing, a group that begins in a word ends in it. -/
theorem Unclosing.groupTail_le (h : Unclosing rest) {c : Char} (hc : c ≠ '\\') (w : List Char) :
    groupTail c (w ++ rest) ≤ w.length ∧
      leavesEscape (w.drop (groupTail c (w ++ rest))) = leavesEscape w := by
  unfold groupTail
  split
  · cases hg : balancedGroup? (c :: w) with
    | none =>
      have hnone : balancedGroup? (c :: (w ++ rest)) = none := h.groupLength_append (c :: w) hg
      rw [hnone]
      exact ⟨Nat.zero_le _, rfl⟩
    | some n =>
      have hsome : balancedGroup? (c :: (w ++ rest)) = some n :=
        CommandConsole.groupLength_append rest (c :: w) hg
      obtain ⟨hpos, hle⟩ := balancedGroup?_le_length hg
      have hdrop := leavesEscape_drop (c :: w) hg
      obtain ⟨m, rfl⟩ : ∃ m, n = m + 1 := ⟨n - 1, by omega⟩
      rw [hsome]
      rw [leavesEscape_char hc] at hdrop
      exact ⟨Nat.le_of_succ_le_succ hle, hdrop⟩
  · exact ⟨Nat.zero_le _, rfl⟩

section Scan

variable (hrest : Unclosing rest) (hstops : Place.topLevel.Stops rest)

include hrest hstops

/-- **A bareword ends where it is written to end** if it leaves no backslash. -/
theorem scanBareword_unclosing : ∀ {w : List Char} {n : Nat}, (∀ c ∈ w, isBlank c = false) →
    n ≤ w.length → leavesEscape (w.drop n) = false → ∀ offset : Nat,
      (scanBareword .topLevel n offset (w ++ rest)).after.rest = rest
  | [], n, _, hn, _, offset => by
    obtain rfl : n = 0 := Nat.le_zero.mp hn
    have hends : ∀ c ∈ rest.head?, Place.topLevel.ends c = true := hstops
    rw [List.nil_append, scanBareword_stops hends]
  | c :: w, n + 1, hw, hn, he, offset => by
    obtain ⟨-, hw⟩ := List.forall_mem_cons.mp hw
    rw [List.cons_append, scanBareword]
    exact scanBareword_unclosing hw (Nat.le_of_succ_le_succ hn) he _
  | c :: w, 0, hall, _, he, offset => by
    obtain ⟨hb, hw⟩ := List.forall_mem_cons.mp hall
    by_cases hc : c = '\\'
    · subst hc
      cases w with
      | nil => cases he
      | cons e ds =>
        obtain ⟨-, hds⟩ := List.forall_mem_cons.mp hw
        rw [List.drop_zero, leavesEscape_escape] at he
        rw [List.cons_append, List.cons_append, scanBareword_escape, ScalarScan.after_prepend]
        exact scanBareword_unclosing hds (Nat.zero_le ds.length) he _
    · obtain ⟨hle, htail⟩ := hrest.groupTail_le hc w
      rw [List.drop_zero, leavesEscape_char hc, ← htail] at he
      rw [List.cons_append, scanBareword_topLevel hb hc, ScalarScan.after_prepend]
      exact scanBareword_unclosing hw hle he _

/-- **A backslash that is left takes along what follows the bareword.** -/
theorem scanBareword_escaping (hne : rest ≠ []) : ∀ {w : List Char} {n : Nat},
    (∀ c ∈ w, isBlank c = false) → n ≤ w.length → leavesEscape (w.drop n) = true → ∀ offset : Nat,
      (scanBareword .topLevel n offset (w ++ rest)).after.rest.length < rest.length
  | [], _, _, _, he, _ => by
    rw [List.drop_nil] at he
    cases he
  | c :: w, n + 1, hw, hn, he, offset => by
    obtain ⟨-, hw⟩ := List.forall_mem_cons.mp hw
    rw [List.cons_append, scanBareword]
    exact scanBareword_escaping hne hw (Nat.le_of_succ_le_succ hn) he _
  | c :: w, 0, hall, _, he, offset => by
    obtain ⟨hb, hw⟩ := List.forall_mem_cons.mp hall
    by_cases hc : c = '\\'
    · subst hc
      cases w with
      | nil =>
        obtain ⟨b, bs, rfl⟩ := List.exists_cons_of_ne_nil hne
        rw [List.cons_append, List.nil_append, scanBareword_escape, ScalarScan.after_prepend]
        exact Nat.lt_succ_of_le (scanBareword_after_length_le ..)
      | cons e ds =>
        obtain ⟨-, hds⟩ := List.forall_mem_cons.mp hw
        rw [List.drop_zero, leavesEscape_escape] at he
        rw [List.cons_append, List.cons_append, scanBareword_escape, ScalarScan.after_prepend]
        exact scanBareword_escaping hne hds (Nat.zero_le ds.length) he _
    · obtain ⟨hle, htail⟩ := hrest.groupTail_le hc w
      rw [List.drop_zero, leavesEscape_char hc, ← htail] at he
      rw [List.cons_append, scanBareword_topLevel hb hc, ScalarScan.after_prepend]
      exact scanBareword_escaping hne hw hle he _

end Scan

/-! ### Words between blanks -/

/-- The words of a text: what stands between its blanks. -/
def wordsIn (cs : List Char) : List String :=
  ((cs.splitOnP isBlank).filter (· ≠ [])).map String.ofList

def wordsOf (text : String) : List String := wordsIn text.toList

theorem wordsIn_blank {b : Char} (hb : isBlank b = true) (cs : List Char) :
    wordsIn (b :: cs) = wordsIn cs := by
  rw [wordsIn, List.splitOnP_cons_eq_if_modifyHead, if_pos hb]
  rfl

theorem wordsIn_word {w : List Char} (hw : ∀ c ∈ w, isBlank c = false) (hne : w ≠ [])
    {cs : List Char} (hcs : Place.topLevel.Stops cs) :
    wordsIn (w ++ cs) = String.ofList w :: wordsIn cs := by
  have hfull : decide (w ≠ []) = true := decide_eq_true hne
  cases cs with
  | nil =>
    rw [List.append_nil, wordsIn, List.splitOnP_eq_singleton hw, List.filter_cons, if_pos hfull]
    rfl
  | cons b cs =>
    have hb : isBlank b = true := hcs b rfl
    rw [wordsIn_blank hb, wordsIn, List.splitOnP_append_cons_of_forall_mem hw b hb,
      List.filter_cons, if_pos hfull]
    rfl

theorem Place.Stops.append {cs ds : List Char} (hcs : Place.topLevel.Stops cs)
    (hds : Place.topLevel.Stops ds) : Place.topLevel.Stops (cs ++ ds) := by
  cases cs with
  | nil => exact hds
  | cons c cs => exact hcs

/-- The characters up to the first blank. -/
theorem exists_word : ∀ cs : List Char, ∃ w behind, cs = w ++ behind ∧
    (∀ c ∈ w, isBlank c = false) ∧ Place.topLevel.Stops behind
  | [] => ⟨[], [], rfl, by simp, fun _ h => by cases h⟩
  | c :: cs => by
    by_cases hb : isBlank c = true
    · refine ⟨[], c :: cs, rfl, by simp, fun d hd => ?_⟩
      cases hd
      exact hb
    · obtain ⟨w, behind, rfl, hw, hbehind⟩ := exists_word cs
      exact ⟨c :: w, behind, rfl, List.forall_mem_cons.mpr ⟨by simpa using hb, hw⟩, hbehind⟩

/-- Induction on a text by its blanks and its words. -/
theorem words_induction {P : List Char → Prop} (nil : P [])
    (blank : ∀ b cs, isBlank b = true → P cs → P (b :: cs))
    (word : ∀ w behind, w ≠ [] → (∀ c ∈ w, isBlank c = false) → Place.topLevel.Stops behind →
      P behind → P (w ++ behind)) (cs : List Char) : P cs := by
  match cs with
  | [] => exact nil
  | c :: cs =>
    by_cases hb : isBlank c = true
    · exact blank c cs hb (words_induction nil blank word cs)
    · obtain ⟨w, behind, hsplit, hw, hbehind⟩ := exists_word (c :: cs)
      have hne : w ≠ [] := by
        rintro rfl
        rw [List.nil_append] at hsplit
        exact hb (hbehind c (by rw [← hsplit]; rfl))
      have hlt : behind.length < (c :: cs).length := by
        have hpos := List.length_pos_iff.mpr hne
        rw [hsplit, List.length_append]
        omega
      rw [hsplit]
      exact word w behind hne hw hbehind (words_induction nil blank word behind)
termination_by cs.length
decreasing_by
  · exact Nat.lt_succ_self cs.length
  · exact hlt

/-- The characters with a meaning of their own in a line. -/
def markers : List Char := ['-', '\\', '\x7b', '[', '"', '\x7d', ']']

theorem plain_of_isAlphanum {c : Char} (h : c.isAlphanum = true) :
    isBlank c = false ∧ c ∉ markers := by
  have hranges : ((decide (c.val ≥ 'A'.val ∧ c.val ≤ 'Z'.val) ||
      (decide (c.val ≥ 'a'.val) && decide (c.val ≤ 'z'.val))) ||
      (decide (c.val ≥ '0'.val) && decide (c.val ≤ '9'.val))) = true := h
  simp only [Bool.or_eq_true, Bool.and_eq_true, decide_eq_true_eq, ge_iff_le,
    UInt32.le_iff_toNat_le] at hranges
  have hcode : ((65 ≤ c.toNat ∧ c.toNat ≤ 90) ∨ (97 ≤ c.toNat ∧ c.toNat ≤ 122)) ∨
      (48 ≤ c.toNat ∧ c.toNat ≤ 57) := hranges
  constructor
  · simp only [isBlank, blankRanges, List.any_cons, List.any_nil, Bool.or_eq_false_iff,
      Bool.and_eq_false_iff, decide_eq_false_iff_not, and_true]
    omega
  · intro hmem
    have hcodes : c.toNat ∈ markers.map Char.toNat := List.mem_map_of_mem hmem
    simp only [markers, List.map_cons, List.map_nil, List.mem_cons, List.not_mem_nil, or_false,
      Char.reduceToNat] at hcodes
    omega

theorem opensGroup_of_not_marker {c : Char} (h : c ∉ markers) : opensGroup c = false := by
  simp only [markers, List.mem_cons, List.not_mem_nil, or_false, not_or] at h
  simp [opensGroup, h]

/-- The text is made of words of letters and digits, none of them the separator. -/
structure LettersAndDigits (separator text : String) : Prop where
  chars : ∀ c ∈ text.toList, c.isAlphanum = true ∨ isBlank c = true
  words : separator ∉ wordsOf text

/-- The characters one by one, so that a text can be tested. -/
theorem LettersAndDigits.of_all {separator text : String}
    (h : (text.toList.all fun c => c.isAlphanum || isBlank c) = true)
    (hwords : separator ∉ wordsOf text) : LettersAndDigits separator text :=
  ⟨fun c hc => by simpa using List.all_eq_true.mp h c hc, hwords⟩

theorem LettersAndDigits.unclosing {separator text : String} (h : LettersAndDigits separator text) :
    Unclosing (' ' :: text.toList) := by
  refine List.forall_mem_cons.mpr ⟨by decide, fun c hc => ?_⟩
  have hnot : ∀ d ∈ ['\x7d', ']', '"'], c ≠ d := by
    rintro d hd rfl
    rcases h.chars c hc with halnum | hblank
    · have hmarks : ['\x7d', ']', '"'] ⊆ markers := by decide
      exact (plain_of_isAlphanum halnum).2 (hmarks hd)
    · revert hblank
      simp only [List.mem_cons, List.not_mem_nil, or_false] at hd
      rcases hd with rfl | rfl | rfl <;> decide
  exact ⟨hnot _ (by decide), hnot _ (by decide), hnot _ (by decide)⟩

namespace Tokens

variable {rules : TokenRules}

/-- Tokens are read behind the blanks. -/
theorem ofCursor_of_skipBlanks {c d : Cursor} (h : c.skipBlanks = d.skipBlanks) :
    ofCursor rules c = ofCursor rules d := by
  have hread : Token.read? rules c = Token.read? rules d := by
    rw [Token.read?, Token.read?, h]
  cases hd : Token.read? rules d with
  | error f => rw [ofCursor_error (hread.trans hd), ofCursor_error hd, h]
  | ok o =>
    cases o with
    | none => rw [ofCursor_none (hread.trans hd), ofCursor_none hd, h]
    | some r => rw [ofCursor_some (hread.trans hd), ofCursor_some hd]

theorem prepend_cancel : ∀ {us vs : List Token} {ts ts' : Tokens}, us.length = vs.length →
    prepend us ts = prepend vs ts' → ts = ts'
  | [], [], _, _, _, h => h
  | _ :: _, _ :: _, _, _, hl, h => prepend_cancel (Nat.succ.inj hl) (more.inj h).2

theorem ofCursor_blank {ch : Char} {cs : List Char} {c : Cursor} (hb : isBlank ch = true)
    (hc : c.rest = ch :: cs) : ofCursor rules c = ofCursor rules c.advance := by
  refine ofCursor_of_skipBlanks ?_
  rw [Cursor.skipBlanks, Cursor.skipWhile, hc, Cursor.skipFrom, if_pos hb, Cursor.advance, hc]
  rfl

/-- What is read where no blank is, is the next token. -/
theorem ofCursor_more {cs : List Char} {c stop : Cursor} {t : Token}
    (hc : c.skipBlanks.rest = cs) (hne : cs ≠ [])
    (hread : Token.readHere rules c.skipBlanks = .ok (t, stop)) :
    ofCursor rules c = .more t (ofCursor rules stop) := by
  refine ofCursor_some (Token.read?_eq_some_iff.mpr ⟨?_, hread⟩)
  rwa [← Cursor.skipBlanks_rest, hc]

/-- A word of letters and digits is read as one token. -/
theorem ofCursor_letters {rest w : List Char} {c : Cursor} (hw : ∀ ch ∈ w, ch.isAlphanum = true)
    (hne : w ≠ []) (hsep : String.ofList w ≠ rules.separator) (hstops : Place.topLevel.Stops rest)
    (hc : c.rest = w ++ rest) :
    ∃ t stop, ofCursor rules c = .more t (ofCursor rules stop) ∧ stop.rest = rest ∧
      Token.Spells (String.ofList w) t := by
  have hplain : rules.Plain (String.ofList w) := by
    refine ⟨by simpa using hne, fun ch hch => ?_, fun cs hcs => ?_, hsep⟩
    · rw [String.toList_ofList] at hch
      obtain ⟨hb, hm⟩ := plain_of_isAlphanum (hw ch hch)
      exact ⟨hb, fun h => hm (h ▸ by decide), opensGroup_of_not_marker hm⟩
    · rw [String.toList_ofList] at hcs
      exact (plain_of_isAlphanum (hw '-' (by simp [hcs]))).2 (by decide)
  have hword : isWord (String.ofList w) = true :=
    isWord_iff.mpr ⟨hplain.ne_nil, fun ch hch => (hplain.chars ch hch).1⟩
  have hrest : c.skipBlanks.rest = (String.ofList w).toList ++ rest := by
    obtain ⟨x, xs, rfl⟩ := List.exists_cons_of_ne_nil hne
    rw [String.toList_ofList, Cursor.skipBlanks_rest, hc, List.cons_append,
      dropBlanks_cons (plain_of_isAlphanum (hw x List.mem_cons_self)).1]
  obtain ⟨t, stop, hread, hstop, ht⟩ := (hplain.typable rest).readHere hword hstops hrest
  have hcons : (String.ofList w).toList ++ rest ≠ [] := by simp [hne]
  refine ⟨t, stop, ofCursor_more hrest hcons hread, hstop, ?_, ht⟩
  rw [Token.raw_of_readHere hread]
  exact Cursor.textTo_of_rest (by rw [hrest, hstop])

/-- **Words of letters and digits are read as they are written**, up to what stands behind them. -/
theorem ofCursor_words (rules : TokenRules) {tail : List Char} (htail : Place.topLevel.Stops tail)
    (cs : List Char) (hcs : ∀ ch ∈ cs, ch.isAlphanum = true ∨ isBlank ch = true)
    (hsep : rules.separator ∉ wordsIn cs) (c : Cursor) (hc : c.rest = cs ++ tail) :
    ∃ ts d, ofCursor rules c = .prepend ts (ofCursor rules d) ∧
      dropBlanks d.rest = dropBlanks tail ∧ List.Forall₂ Token.Spells (wordsIn cs) ts := by
  induction cs using words_induction generalizing c with
  | nil => exact ⟨[], c, rfl, by rw [hc, List.nil_append], .nil⟩
  | blank ch cs hb ih =>
    rw [wordsIn_blank hb] at hsep ⊢
    rw [ofCursor_blank hb hc]
    exact ih (List.forall_mem_cons.mp hcs).2 hsep c.advance
      (by rw [Cursor.advance_rest, hc, List.cons_append, List.tail_cons])
  | word w behind hne hw hbehind ih =>
    rw [wordsIn_word hw hne hbehind] at hsep ⊢
    obtain ⟨hsepw, hsepb⟩ := not_or.mp (mt List.mem_cons.mpr hsep)
    obtain ⟨hcw, hcb⟩ := List.forall_mem_append.mp hcs
    have hletters : ∀ x ∈ w, x.isAlphanum = true := fun x hx =>
      (hcw x hx).resolve_right (by simp [hw x hx])
    rw [List.append_assoc] at hc
    obtain ⟨t, stop, hread, hstop, ht⟩ :=
      ofCursor_letters hletters hne (Ne.symm hsepw) (hbehind.append htail) hc
    obtain ⟨ts, d, hts, hd, hwords⟩ := ih hcb hsepb stop hstop
    exact ⟨t :: ts, d, by rw [hread, hts, prepend_cons], hd, .cons ht hwords⟩

end Tokens

/-! ### The separator -/

/-- What a word that is accepted as a separator is. -/
theorem isBareWord_iff {text : String} : ParserConfig.isBareWord text = true ↔
    ∃ ch cs, text.toList = ch :: cs ∧ ch ≠ '-' ∧ opensGroup ch = false ∧
      ∀ c ∈ text.toList, isBlank c = false := by
  unfold ParserConfig.isBareWord
  cases htext : text.toList with
  | nil => simp
  | cons c cs =>
    simp only [opensGroup, List.contains_cons, List.contains_nil, Bool.or_false,
      Bool.not_eq_true', Bool.or_eq_false_iff, beq_eq_false_iff_ne, List.any_eq_false,
      Bool.not_eq_true, List.cons.injEq]
    constructor
    · rintro ⟨⟨hbrace, hbracket, hquote, hdash⟩, hblank⟩
      exact ⟨c, cs, ⟨rfl, rfl⟩, hdash, ⟨hbrace, hbracket, hquote⟩, hblank⟩
    · rintro ⟨_, _, ⟨rfl, rfl⟩, hdash, ⟨hbrace, hbracket, hquote⟩, hblank⟩
      exact ⟨⟨hbrace, hbracket, hquote, hdash⟩, hblank⟩

namespace Token

variable {rules : TokenRules} {rest : List Char} {c : Cursor}

/-- Where the separator stands, a bareword is read. -/
theorem readHere_bareWord (hsep : ParserConfig.isBareWord rules.separator = true)
    (hc : c.rest = rules.separator.toList ++ rest) :
    ∃ v, readHere rules c =
      .ok (ofValue rules v c (scanBareword .topLevel 0 c.offset c.rest).after,
        (scanBareword .topLevel 0 c.offset c.rest).after) := by
  obtain ⟨ch, cs, htext, hdash, ho, -⟩ := isBareWord_iff.mp hsep
  have hrest : c.rest = ch :: (cs ++ rest) := by rw [hc, htext, List.cons_append]
  have hname : nameAt? rules c = none := by
    rw [nameAt?_eq_none_iff, hrest, ← Bool.not_eq_true, TokenRules.beginsName_iff]
    rintro ⟨x, xs, hx, -⟩
    exact hdash (List.cons.inj hx).1
  exact ⟨_, readHere_of_readValue hname (readValue_word rules.maxDepth hrest ho)⟩

section

variable (hsep : ParserConfig.isBareWord rules.separator = true) (hrest : Unclosing rest)
  (hstops : Place.topLevel.Stops rest) (hc : c.rest = rules.separator.toList ++ rest)

include hsep hrest hstops hc

/-- **A separator that leaves no backslash is one token.** -/
theorem readHere_separator (he : leavesEscape rules.separator.toList = false) :
    ∃ t stop, readHere rules c = .ok (t, stop) ∧ stop.rest = rest ∧ t.kind = .separator ∧
      t.raw = rules.separator := by
  obtain ⟨-, -, -, -, -, hblank⟩ := isBareWord_iff.mp hsep
  obtain ⟨v, hread⟩ := readHere_bareWord hsep hc
  have hstop : (scanBareword .topLevel 0 c.offset c.rest).after.rest = rest := by
    rw [hc]
    exact scanBareword_unclosing hrest hstops hblank (Nat.zero_le _) he c.offset
  generalize (scanBareword .topLevel 0 c.offset c.rest).after = stop at hread hstop
  have htext : c.textTo stop = rules.separator := Cursor.textTo_of_rest (by rw [hc, hstop])
  refine ⟨_, stop, hread, hstop, ?_, htext⟩
  rw [ofValue, if_pos htext]
  rfl

/-- **One that leaves a backslash is part of a longer token.** -/
theorem readHere_escaping (hne : rest ≠ []) (he : leavesEscape rules.separator.toList = true) :
    ∃ t stop, readHere rules c = .ok (t, stop) ∧ t.raw ≠ rules.separator := by
  obtain ⟨-, -, -, -, -, hblank⟩ := isBareWord_iff.mp hsep
  obtain ⟨v, hread⟩ := readHere_bareWord hsep hc
  have hlt : (scanBareword .topLevel 0 c.offset c.rest).after.rest.length < rest.length := by
    rw [hc]
    exact scanBareword_escaping hrest hstops hne hblank (Nat.zero_le _) he c.offset
  refine ⟨_, _, hread, fun hraw => ?_⟩
  have hlength := congrArg (·.toList.length) hraw
  simp only [ofValue, between, Cursor.textTo, Cursor.charsTo, String.toList_ofList,
    List.length_take, hc, List.length_append] at hlength
  rw [hc] at hlt
  omega

end

end Token

namespace ParserConfig

variable {c d : ParserConfig} {a b : String}

/-- Two texts with the separator between them are read as the words of the first, a separator and
the words of the second. -/
def Separates (c : ParserConfig) (a b : String) : Prop :=
  ∃ us t vs stop, c.tokensOf (a ++ " " ++ c.chainSeparator ++ " " ++ b) =
      .prepend (us ++ t :: vs) (.finished stop) ∧
    List.Forall₂ Token.Spells (wordsOf a) us ∧ (t.kind = .separator ∧ t.raw = c.chainSeparator) ∧
    List.Forall₂ Token.Spells (wordsOf b) vs

/-- A space ends a bare word. -/
theorem stops_space (cs : List Char) : Place.topLevel.Stops (' ' :: cs) := by
  intro c hc
  cases hc
  decide

/-- The words in front of a separator are read, and the separator is read next. -/
theorem exists_front (hsep : isBareWord c.chainSeparator = true)
    (ha : LettersAndDigits c.chainSeparator a) (b : String) :
    ∃ us e, List.Forall₂ Token.Spells (wordsOf a) us ∧
      e.rest = c.chainSeparator.toList ++ (' ' :: b.toList) ∧
      ∀ {t : Token} {stop : Cursor}, Token.readHere c.tokenRules e = .ok (t, stop) →
        c.tokensOf (a ++ " " ++ c.chainSeparator ++ " " ++ b) =
          .prepend us (.more t (Tokens.ofCursor c.tokenRules stop)) := by
  obtain ⟨ch, cs, hhead, -, -, hblank⟩ := isBareWord_iff.mp hsep
  have hline : (a ++ " " ++ c.chainSeparator ++ " " ++ b).toList =
      a.toList ++ (' ' :: (c.chainSeparator.toList ++ (' ' :: b.toList))) := by
    simp [String.toList_append]
  obtain ⟨us, e, hus, he, hwords⟩ := Tokens.ofCursor_words c.tokenRules (stops_space _)
    a.toList ha.chars ha.words (.start _) hline
  have hskip : e.skipBlanks.rest = c.chainSeparator.toList ++ (' ' :: b.toList) := by
    rw [Cursor.skipBlanks_rest, he, dropBlanks, if_pos (by decide), hhead, List.cons_append,
      dropBlanks_cons (hblank ch (by simp [hhead]))]
  refine ⟨us, e.skipBlanks, hwords, hskip, fun hread => ?_⟩
  rw [tokensOf, Tokens.ofText, hus, Tokens.ofCursor_more hskip (by simp) hread]

/-- **An accepted separator separates exactly if it leaves no backslash.** -/
theorem separates_iff (h : c.check = .ok d) (ha : LettersAndDigits d.chainSeparator a)
    (hb : LettersAndDigits d.chainSeparator b) :
    d.Separates a b ↔ leavesEscape d.chainSeparator.toList = false := by
  obtain ⟨-, hsep, rfl⟩ := check_eq_ok_iff.mp h
  have hrules : isBareWord c.tokenRules.separator = true := hsep
  obtain ⟨us, e, hwords, he, htokens⟩ := exists_front hsep ha b
  constructor
  · rintro ⟨us', t, vs, stop, htokens', hwords', ⟨-, hraw⟩, -⟩
    refine Bool.eq_false_iff.mpr fun hescape => ?_
    obtain ⟨u, last, hread, hlong⟩ := Token.readHere_escaping hrules hb.unclosing (stops_space _) he
      (List.cons_ne_nil _ _) hescape
    have hsame : us.length = us'.length := hwords.length_eq.symm.trans hwords'.length_eq
    rw [htokens hread, Tokens.prepend_append] at htokens'
    obtain ⟨rfl, -⟩ := Tokens.more.inj (Tokens.prepend_cancel hsame htokens')
    exact hlong hraw
  · intro hescape
    obtain ⟨t, stop, hread, hstop, hkind, hraw⟩ := Token.readHere_separator hrules hb.unclosing
      (stops_space _) he hescape
    have hb' : wordsIn (' ' :: b.toList) = wordsOf b := wordsIn_blank (by decide) b.toList
    have hend : Place.topLevel.Stops [] := fun _ hx => by cases hx
    obtain ⟨vs, last, hvs, hlast, hwords'⟩ := Tokens.ofCursor_words c.tokenRules hend
      (' ' :: b.toList) (List.forall_mem_cons.mpr ⟨.inr (by decide), hb.chars⟩)
      (by rw [hb']; exact hb.words) stop (by rw [hstop, List.append_nil])
    have hfinished : Tokens.ofCursor c.tokenRules last = .finished last.skipBlanks.offset :=
      Tokens.ofCursor_none (Token.read?_eq_none_iff.mpr hlast)
    refine ⟨us, t, vs, last.skipBlanks.offset, ?_, hwords, ⟨hkind, hraw⟩, hb' ▸ hwords'⟩
    rw [htokens hread, hvs, hfinished, Tokens.prepend_append, Tokens.prepend_cons]

/-- A separator with a backslash that stands for the next one, and with a bracket. -/
theorem separates_iff_escaped :
    let c : ParserConfig := { (default : ParserConfig) with chainSeparator := ";\\\\[" }
    c.check = .ok c ∧ LettersAndDigits c.chainSeparator "run 1" ∧
      LettersAndDigits c.chainSeparator " stop" ∧ c.Separates "run 1" " stop" := by
  intro c
  have hcheck : c.check = .ok c := check_eq_ok_iff.mpr ⟨by decide, by decide, rfl⟩
  have ha : LettersAndDigits c.chainSeparator "run 1" := .of_all (by decide) (by decide +kernel)
  have hb : LettersAndDigits c.chainSeparator " stop" := .of_all (by decide) (by decide +kernel)
  exact ⟨hcheck, ha, hb, (separates_iff hcheck ha hb).mpr (by decide)⟩

/-- **Not every accepted separator separates.** A backslash takes the space behind it along, and
with it the word that follows. -/
theorem not_separates : ∃ c d : ParserConfig, c.check = .ok d ∧
    LettersAndDigits d.chainSeparator "a" ∧ LettersAndDigits d.chainSeparator "b" ∧
      ¬d.Separates "a" "b" := by
  let c : ParserConfig := { (default : ParserConfig) with chainSeparator := "\\" }
  have hcheck : c.check = .ok c := check_eq_ok_iff.mpr ⟨by decide, by decide, rfl⟩
  refine ⟨c, c, hcheck, .of_all (by decide) (by decide +kernel),
    .of_all (by decide) (by decide +kernel), ?_⟩
  rintro ⟨us, t, vs, stop, htokens, hus, -, hvs⟩
  have hcount : (c.tokensOf ("a" ++ " " ++ c.chainSeparator ++ " " ++ "b")).toList.length = 2 := by
    decide +kernel
  have hone : (wordsOf "a").length = 1 ∧ (wordsOf "b").length = 1 := by decide +kernel
  rw [htokens, Tokens.toList_prepend, List.length_append, List.length_append, List.length_cons,
    ← hus.length_eq, ← hvs.length_eq, hone.1, hone.2] at hcount
  cases hcount

end ParserConfig
end CommandConsole
