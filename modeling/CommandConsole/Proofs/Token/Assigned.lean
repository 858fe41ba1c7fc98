/-
# A value behind an equals sign

A value is read in the same way behind an equals sign and behind a blank. So a
line with `--name=value` has the tokens of the line with `--name value`, but for
one token where there are two; they end at the same offset.

Key theorems: `Token.readHere_assigned_of_following`, `Tokens.ofText_assigned`.
-/
import CommandConsole.Proofs.Text.Boundary
import CommandConsole.Proofs.Token.Word

namespace CommandConsole

namespace Cursor

/-- A cursor that is reached stands where the characters between say. -/
theorem Reaches.eq_of_rest {c d : Cursor} {cs : List Char} (h : c.Reaches d)
    (hrest : c.rest = cs ++ d.rest) : d = ⟨c.offset + byteLength cs, d.rest⟩ := by
  have hend := h.end_eq
  rw [hrest, byteLength_append] at hend
  obtain ⟨offset, rest⟩ := d
  dsimp only at hend ⊢
  rw [show offset = c.offset + byteLength cs by omega]

/-- One blank in front of a character that is none is skipped. -/
theorem skipBlanks_space {offset : Nat} {ch : Char} {cs : List Char} (h : isBlank ch = false) :
    skipBlanks ⟨offset, ' ' :: ch :: cs⟩ = ⟨offset + 1, ch :: cs⟩ := by
  have hspace : isBlank ' ' = true := by decide
  have hsize : ' '.utf8Size = 1 := by decide
  simp [skipBlanks, skipWhile, skipFrom, hspace, hsize, h]

end Cursor

/-! ### A name and what follows it -/

namespace Token

variable {rules : TokenRules} {c stop : Cursor} {t u : Token} {n : String} {w : Literal}

/-- A name that is read goes up to a character that does not belong to it. -/
theorem isWord_of_nameAt? (ha : rules.assignSyntax = true) (h : nameAt? rules c = some (n, stop)) :
    isWord n = true ∧ '=' ∉ n.toList := by
  have hin := inName_of_nameAt? h
  refine ⟨isWord_iff.mpr ⟨fun hempty => ?_, fun ch hch => ?_⟩, fun hmem => ?_⟩
  · obtain ⟨ch, cs, hc, hch, hr⟩ := nameAt?_eq_some_iff.mp h
    obtain ⟨rfl, -⟩ := Prod.mk.inj hr
    have hrest : c.advance.advance.rest = ch :: cs := by simp [hc]
    have hshort : (nameEnd rules c).rest.length ≤ cs.length := by
      rw [nameEnd, Cursor.skipWhile, hrest, Cursor.skipFrom, if_pos hch]
      exact Cursor.skipFrom_rest_length_le _ _ _
    rw [Cursor.textTo, Cursor.charsTo, hrest, String.toList_ofList, List.length_cons,
      Nat.succ_sub hshort] at hempty
    cases hempty
  · have := hin ch hch
    simp only [TokenRules.inName, Bool.not_eq_true', Bool.or_eq_false_iff] at this
    exact this.1
  · have := hin '=' hmem
    simp [TokenRules.inName, ha] at this

/-- A name ends in front of a character that does not belong to it. -/
theorem nameAt?_in_front {ch : Char} (hn : isWord n = true) (he : '=' ∉ n.toList)
    (hch : rules.inName ch = false) (offset : Nat) (rest : List Char) :
    nameAt? rules ⟨offset, '-' :: '-' :: (n.toList ++ ch :: rest)⟩ =
      some (n, ⟨offset + byteLength ('-' :: '-' :: n.toList), ch :: rest⟩) := by
  obtain ⟨d, hd, hrest⟩ : ∃ d, nameAt? rules ⟨offset, '-' :: '-' :: (n.toList ++ ch :: rest)⟩ =
      some (n, d) ∧ d.rest = ch :: rest :=
    nameAt?_name hn (fun _ => he) rfl fun x hx => Option.some.inj hx ▸ hch
  have hplace := (nameAt?_reaches hd).eq_of_rest
    (show _ = ('-' :: '-' :: n.toList) ++ d.rest by simp [hrest])
  rw [hrest] at hplace
  rw [hd, hplace]

/-- **A value is read in the same way behind an equals sign and behind a blank.** -/
theorem readHere_assigned_of_following (ha : rules.assignSyntax = true) {offset : Nat}
    {v : String} {rest : List Char} {us : Tokens}
    (h : readHere rules ⟨offset, '-' :: '-' :: (n.toList ++ ' ' :: (v.toList ++ rest))⟩ =
      .ok (t, stop))
    (ht : t.kind = .named n none) (hstop : Tokens.ofCursor rules stop = .more u us)
    (hu : u.kind = .value w) (hv : u.raw = v) :
    ∃ t' last,
      readHere rules ⟨offset, '-' :: '-' :: (n.toList ++ '=' :: (v.toList ++ rest))⟩ =
        .ok (t', last) ∧
      Tokens.ofCursor rules last = us ∧ t'.kind = .named n (some w) ∧
      t'.span.stop = u.span.stop ∧ w.isEmpty = false := by
  -- the name ends in front of either character
  obtain ⟨behind, hname⟩ := nameAt?_of_named h ht
  obtain ⟨hn, he⟩ := isWord_of_nameAt? ha hname
  have hspace : rules.inName ' ' = false := by
    simp [TokenRules.inName, show isBlank ' ' = true by decide]
  have hequals : rules.inName '=' = false := by simp [TokenRules.inName, ha]
  have hblank := nameAt?_in_front hn he hspace offset (v.toList ++ rest)
  have hassign := nameAt?_in_front hn he hequals offset (v.toList ++ rest)
  generalize offset + byteLength ('-' :: '-' :: n.toList) = m at hblank hassign
  have hnone : readAssigned rules ⟨m, ' ' :: (v.toList ++ rest)⟩ =
      .ok (none, ⟨m, ' ' :: (v.toList ++ rest)⟩) :=
    readAssigned_none fun h => by cases h.2
  rw [readHere_of_nameAt? hblank hnone] at h
  cases h
  -- the value begins with a character that is no blank
  obtain ⟨last, hread, rfl⟩ := read?_of_more hstop
  obtain ⟨-, hhere⟩ := read?_eq_some_iff.mp hread
  obtain ⟨⟨used, hused, -⟩, hlt⟩ := read?_reaches hread
  have hraw : u.raw = String.ofList used := by
    rw [raw_of_readHere hhere]
    exact Cursor.textTo_of_rest (by rw [String.toList_ofList, hused])
  have htext : v.toList = used := by rw [← hv, hraw, String.toList_ofList]
  obtain ⟨ch, cs, rfl⟩ : ∃ ch cs, used = ch :: cs := by
    refine List.exists_cons_of_ne_nil fun hempty => ?_
    rw [hused, hempty] at hlt
    exact Nat.lt_irrefl _ hlt
  have hch : isBlank ch = false := by
    have hdrop : dropBlanks (' ' :: (v.toList ++ rest)) = ch :: (cs ++ last.rest) := by
      rw [← Cursor.skipBlanks_rest ⟨m, ' ' :: (v.toList ++ rest)⟩, hused]
      rfl
    exact isBlank_of_dropBlanks hdrop
  rw [htext, List.cons_append] at hhere hassign ⊢
  rw [Cursor.skipBlanks_space hch] at hhere
  have hvalue := (readHere_value_iff.mp ⟨u, hhere, hu⟩).2.2
  have hadvance : Cursor.advance ⟨m, '=' :: ch :: (cs ++ rest)⟩ = ⟨m + 1, ch :: (cs ++ rest)⟩ := by
    have hsize : '='.utf8Size = 1 := by decide
    simp [Cursor.advance, hsize]
  have hread' : readAssigned rules ⟨m, '=' :: ch :: (cs ++ rest)⟩ = .ok (some w, last) := by
    rw [readAssigned_value ha rfl (show _ = some ch by rw [hadvance]; rfl) hch, hadvance, hvalue]
    rfl
  refine ⟨_, last, readHere_of_nameAt? hassign hread', rfl, rfl, ?_, ?_⟩
  · rw [span_of_readHere hhere]
    rfl
  · have hlaid := ((readHere_placed rfl hch hhere).1.value hu).1
    cases w with
    | empty span => exact hlaid.elim
    | _ => rfl

end Token

/-- What is read at a place of the text where a token begins, and what stands in front of it. -/
theorem Tokens.exists_readHere {rules : TokenRules} {text front : String} {cs : List Char}
    {before : List Token} {t : Token} {rest : Tokens} (htext : text.toList = front.toList ++ cs)
    (h : ofText rules text = .prepend before (.more t rest))
    (hstart : t.span.start = textLength front) :
    (ofText rules front).toList = before ∧ ∃ stop,
      Token.readHere rules ⟨textLength front, cs⟩ = .ok (t, stop) ∧ ofCursor rules stop = rest := by
  obtain ⟨d, hread, hd⟩ := Token.ReadTo.exists_of_ofCursor h
  obtain ⟨stop, ht, hrest⟩ := Token.read?_of_more hd
  obtain ⟨-, hhere⟩ := Token.read?_eq_some_iff.mp ht
  have hoffset : d.skipBlanks.offset = byteLength front.toList := by
    rw [← textLength, ← hstart, Token.span_of_readHere hhere]
    rfl
  have hplace : d.skipBlanks = ⟨textLength front, cs⟩ := by
    rw [← Cursor.seek_of_reaches (hread.reaches.trans (.skipBlanks d)), hoffset,
      Cursor.seek_byteLength htext]
    rfl
  have hcut := (hread.cuts ht).1
  rw [hstart, textLength, textBefore_append htext, String.ofList_toList] at hcut
  exact ⟨by rw [hcut]; simp [toList], stop, hplace ▸ hhere, hrest⟩

/-- **A line with `--name=value` has the tokens of the line with `--name value`**, but for the one
token in which the value is assigned. -/
theorem Tokens.ofText_assigned {rules : TokenRules} (ha : rules.assignSyntax = true)
    {front n v rest : String} {before before' : List Token} {t u s : Token} {us ts : Tokens}
    {w : Literal}
    (h : ofText rules (front ++ "--" ++ n ++ " " ++ v ++ rest) =
      .prepend before (.more t (.more u us)))
    (hstart : t.span.start = textLength front) (ht : t.kind = .named n none)
    (hu : u.kind = .value w) (hv : u.raw = v)
    (h' : ofText rules (front ++ "--" ++ n ++ "=" ++ v ++ rest) = .prepend before' (.more s ts))
    (hstart' : s.span.start = textLength front) :
    before' = before ∧ ts = us ∧ s.kind = .named n (some w) ∧ s.span.stop = u.span.stop ∧
      w.isEmpty = false := by
  have htext : (front ++ "--" ++ n ++ " " ++ v ++ rest).toList =
      front.toList ++ '-' :: '-' :: (n.toList ++ ' ' :: (v.toList ++ rest.toList)) := by simp
  have htext' : (front ++ "--" ++ n ++ "=" ++ v ++ rest).toList =
      front.toList ++ '-' :: '-' :: (n.toList ++ '=' :: (v.toList ++ rest.toList)) := by simp
  obtain ⟨hbefore, stop, hread, hstop⟩ := exists_readHere htext h hstart
  obtain ⟨hbefore', stop', hread', hstop'⟩ := exists_readHere htext' h' hstart'
  obtain ⟨s', last, hs, hlast, hk, hspan, he⟩ :=
    Token.readHere_assigned_of_following ha hread ht hstop hu hv
  obtain ⟨rfl, rfl⟩ := Prod.mk.inj (Except.ok.inj (hread'.symm.trans hs))
  exact ⟨hbefore'.symm.trans hbefore, hstop'.symm.trans hlast, hk, hspan, he⟩

end CommandConsole
