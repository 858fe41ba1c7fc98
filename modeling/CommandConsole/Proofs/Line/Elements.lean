/-
# Lines that are split beforehand

A line that comes in elements is written as one text, with a space between any
two elements, and read again. An element in quotes is read back as one token,
whatever stands behind it. A bare element is not always: a bracket, a brace or
a quote in it opens a group, and the group belongs to the token if it ends
anywhere in the line, also in a later element. So every element is one token
exactly if no group that begins in a bare element ends in a later one.

Key definitions: `Contained`, `GroupsStay`, `ReadsElement`.
Key theorems: `scanBareword_contained`, `scanBareword_overrun`,
`CommandParser.ofText_joinElements`.
-/
import CommandConsole.Line.Parse
import CommandConsole.Proofs.Literal.AsWritten
import CommandConsole.Proofs.Token.Piece

namespace CommandConsole

/-! ### Groups in a bareword -/

/-- No group that begins in the word ends in what follows it. The first `inside` characters of
the word belong to a group that has begun before them. -/
def Contained (rest : List Char) : (inside : Nat) → List Char → Prop
  | _, [] => True
  | n + 1, _ :: cs => Contained rest n cs
  | 0, c :: cs =>
    groupTail c (cs ++ rest) ≤ cs.length ∧ Contained rest (groupTail c (cs ++ rest)) cs

instance decidableContained (rest : List Char) :
    ∀ (n : Nat) (cs : List Char), Decidable (Contained rest n cs)
  | _, [] => isTrue trivial
  | n + 1, _ :: cs => decidableContained rest n cs
  | 0, c :: cs =>
    have := decidableContained rest (groupTail c (cs ++ rest)) cs
    inferInstanceAs (Decidable (_ ∧ _))

variable {rest : List Char}

theorem Contained.asWritten : ∀ {w : List Char} {n : Nat}, (∀ c ∈ w, c ≠ '\\') →
    Contained rest n w → AsWritten rest n w
  | [], _, _, _ => trivial
  | c :: w, n + 1, hw, h => by
    rw [Contained] at h
    rw [AsWritten]
    exact Contained.asWritten (List.forall_mem_cons.mp hw).2 h
  | c :: w, 0, hw, h => by
    obtain ⟨hs, hw⟩ := List.forall_mem_cons.mp hw
    rw [AsWritten, if_neg hs]
    exact ⟨h.1, Contained.asWritten hw h.2⟩

/-- **A word whose groups end in it is read up to its end.** -/
theorem scanBareword_contained (hstops : Place.topLevel.Stops rest) {w : List Char}
    (hw : ∀ c ∈ w, isBlank c = false ∧ c ≠ '\\') (h : Contained rest 0 w) (offset : Nat) :
    ∃ stop, scanBareword .topLevel 0 offset (w ++ rest) = ⟨w, stop, ⟨stop, rest⟩, true⟩ :=
  scanBareword_asWritten hstops (fun c hc => (hw c hc).1) (Nat.zero_le _)
    (h.asWritten fun c hc => (hw c hc).2) offset

/-- **A word with a group that ends behind it is read beyond its end.** -/
theorem scanBareword_overrun : ∀ {w : List Char} {n : Nat},
    (∀ c ∈ w, isBlank c = false ∧ c ≠ '\\') → ¬Contained rest n w → ∀ offset : Nat,
      (scanBareword .topLevel n offset (w ++ rest)).after.rest.length < rest.length
  | [], _, _, h, _ => absurd trivial h
  | c :: w, n + 1, hw, h, offset => by
    obtain ⟨-, hw⟩ := List.forall_mem_cons.mp hw
    rw [List.cons_append, scanBareword]
    exact scanBareword_overrun hw h (offset + c.utf8Size)
  | c :: w, 0, hw, h, offset => by
    obtain ⟨⟨hb, hs⟩, hw⟩ := List.forall_mem_cons.mp hw
    rw [List.cons_append, scanBareword_topLevel hb hs, ScalarScan.after_prepend]
    by_cases hlength : groupTail c (w ++ rest) ≤ w.length
    · exact scanBareword_overrun hw (fun h' => h ⟨hlength, h'⟩) (offset + c.utf8Size)
    · have hle := scanBareword_verbatim_length_le .topLevel (groupTail c (w ++ rest))
        (offset + c.utf8Size) (w ++ rest)
      have hin := groupTail_le_length c (w ++ rest)
      rw [List.length_append] at hle hin
      omega

/-! ### Elements -/

/-- The element is neither a map nor a list nor a name by the way it begins. -/
def isScalarElement (element : String) : Bool :=
  !beginsWith element "\x7b" && !beginsWith element "[" && !beginsWith element "--"

/-- What stands in the line behind an element. -/
def behindElement (es : List String) : List Char :=
  if es = [] then [] else ' ' :: (CommandParser.joinElements es).toList

/-- No group that begins in a bare element ends in a later one. -/
def GroupsStay : List String → Prop
  | [] => True
  | e :: es => (quoteElement e = e → Contained (behindElement es) 0 e.toList) ∧ GroupsStay es

instance decidableGroupsStay : ∀ es : List String, Decidable (GroupsStay es)
  | [] => isTrue trivial
  | _ :: es =>
    have := decidableGroupsStay es
    inferInstanceAs (Decidable (_ ∧ _))

/-- The token is what the element is written as, and says what the element says. -/
structure ReadsElement (rules : TokenRules) (e : String) (t : Token) : Prop where
  raw : t.raw = quoteElement e
  kind : if quoteElement e = rules.separator then t.kind = .separator
    else ∃ span, t.kind = .value (.scalar e span)

/-! ### One element -/

theorem length_escapeQuoted_le : ∀ cs : List Char, cs.length ≤ (escapeQuoted cs).length
  | [] => Nat.le_refl _
  | c :: cs => by
    have hle := length_escapeQuoted_le cs
    rw [escapeQuoted]
    split <;> simp only [List.length_cons] <;> omega

/-- Quotes make an element longer. -/
theorem quote_ne (text : String) : quote text ≠ text := by
  intro h
  have hlength := congrArg (·.toList.length) h
  have hle := length_escapeQuoted_le text.toList
  simp only [quote, String.toList_ofList, List.length_cons, List.length_append] at hlength
  omega

section Element

variable {rules : TokenRules} {c : Cursor} {e : String}

/-- An element that is written as it stands. -/
structure StandsBare (e : String) : Prop where
  written : quoteElement e = e
  chars : ∀ c ∈ e.toList, isBlank c = false ∧ c ≠ '\\'
  head : ∃ ch cs, e.toList = ch :: cs ∧ opensGroup ch = false
  dashes : ∀ cs, e.toList ≠ '-' :: '-' :: cs

/-- An element is put in quotes, or it is bare. -/
theorem quoteElement_cases (he : isScalarElement e = true) :
    quoteElement e = quote e ∨ StandsBare e := by
  simp only [isScalarElement, beginsWith, Bool.and_eq_true, Bool.not_eq_true'] at he
  obtain ⟨⟨hbrace, hbracket⟩, hdashes⟩ := he
  have hopen : ¬(e.toList.head? = some '\x7b' ∨ e.toList.head? = some '[') := by
    rintro (h | h)
    · obtain ⟨cs, hcs⟩ := List.head?_eq_some_iff.mp h
      rw [hcs] at hbrace
      simp at hbrace
    · obtain ⟨cs, hcs⟩ := List.head?_eq_some_iff.mp h
      rw [hcs] at hbracket
      simp at hbracket
  have hwritten : quoteElement e = if (e.toList.isEmpty || e.toList.head? == some '"' ||
      e.toList.contains '\\' || e.toList.any isBlank) = true then quote e else e :=
    if_neg hopen
  rw [hwritten]
  split
  · exact .inl rfl
  · rename_i hquote
    rw [if_neg hquote] at hwritten
    simp only [Bool.or_eq_true, not_or, Bool.not_eq_true, List.isEmpty_eq_false_iff,
      beq_eq_false_iff_ne, List.any_eq_false, List.contains_eq_mem, decide_eq_false_iff_not]
      at hquote
    obtain ⟨⟨⟨hne, hhead⟩, hslash⟩, hblank⟩ := hquote
    obtain ⟨ch, cs, hcs⟩ := List.exists_cons_of_ne_nil hne
    refine .inr ⟨hwritten, fun c hc => ⟨by simpa using hblank c hc, ?_⟩, ⟨ch, cs, hcs, ?_⟩, ?_⟩
    · rintro rfl
      exact hslash hc
    · rw [hcs] at hopen hhead
      have hmark : ch ≠ '"' := fun h => hhead (congrArg some h)
      simp only [List.head?_cons, Option.some.injEq, not_or] at hopen
      simp [opensGroup, hopen, hmark]
    · intro ds hds
      rw [hds] at hdashes
      simp at hdashes

theorem StandsBare.nameAt? (h : StandsBare e) (hc : c.rest = e.toList ++ rest)
    (hstops : Place.topLevel.Stops rest) : Token.nameAt? rules c = none := by
  obtain ⟨ch, cs, he, -⟩ := h.head
  exact Token.nameAt?_of_not_dashes (by simp [he]) h.dashes hc hstops

/-- An element in quotes is one token, whatever is behind it. -/
theorem readValue_quote {limit : Nat} (hc : c.rest = (quote e).toList ++ rest)
    (hstops : Place.topLevel.Stops rest) :
    ∃ span stop, readValue limit c = .ok (.scalar e span, stop) ∧ stop.rest = rest := by
  obtain ⟨v, stop, hread, hv, hrest⟩ :=
    readValue_spells (.quoted e default) hc hstops (Nat.zero_le limit)
  cases v with
  | scalar text span =>
    obtain ⟨rfl, -⟩ := Literal.scalar.inj hv
    exact ⟨span, stop, hread, hrest⟩
  | empty span => cases hv
  | list items span => cases hv
  | map entries span => cases hv

/-- A bare element is read as a bareword. -/
theorem StandsBare.readValue (h : StandsBare e) {limit : Nat} {s : ScalarScan}
    (hc : c.rest = e.toList ++ rest)
    (hs : scanBareword .topLevel 0 c.offset (e.toList ++ rest) = s) :
    CommandConsole.readValue limit c =
      .ok (.scalar (String.ofList s.text) ⟨c.offset, s.stop⟩, s.after) := by
  obtain ⟨ch, cs, he, ho⟩ := h.head
  have hrest : c.rest = ch :: (cs ++ rest) := by rw [hc, he, List.cons_append]
  rw [readValue_word limit hrest ho, hc, hs]

/-- A scalar with the text of an element, read from exactly its characters, is the element. -/
theorem ReadsElement.of_scalar {stop : Cursor} {span : Span}
    (hc : c.rest = (quoteElement e).toList ++ rest) (hrest : stop.rest = rest) :
    ReadsElement rules e (Token.ofValue rules (.scalar e span) c stop) := by
  have htext : c.textTo stop = quoteElement e := Cursor.textTo_of_rest (by rw [hc, hrest])
  refine ⟨htext, ?_⟩
  rw [Token.ofValue, htext]
  split
  · rfl
  · exact ⟨span, rfl⟩

/-- **An element is read back as one token**, if the groups in it end in it. -/
theorem readHere_element (he : isScalarElement e = true)
    (hc : c.rest = (quoteElement e).toList ++ rest) (hstops : Place.topLevel.Stops rest)
    (hin : quoteElement e = e → Contained rest 0 e.toList) :
    ∃ t stop, Token.readHere rules c = .ok (t, stop) ∧ ReadsElement rules e t ∧
      stop.rest = rest := by
  rcases quoteElement_cases he with hquote | hbare
  · have hcq : c.rest = (quote e).toList ++ rest := hquote ▸ hc
    obtain ⟨span, stop, hread, hrest⟩ := readValue_quote hcq hstops
    have hname : Token.nameAt? rules c = none := by
      refine Token.nameAt?_of_not_dashes ?_ ?_ hcq hstops <;> simp [quote]
    exact ⟨_, stop, Token.readHere_of_readValue hname hread, .of_scalar hc hrest, hrest⟩
  · have hcb : c.rest = e.toList ++ rest := hbare.written ▸ hc
    obtain ⟨stop, hscan⟩ := scanBareword_contained hstops hbare.chars (hin hbare.written) c.offset
    have hread : readValue rules.maxDepth c = .ok (.scalar e ⟨c.offset, stop⟩, ⟨stop, rest⟩) := by
      rw [hbare.readValue hcb hscan, String.ofList_toList]
    exact ⟨_, _, Token.readHere_of_readValue (hbare.nameAt? hcb hstops) hread, .of_scalar hc rfl, rfl⟩

/-- **A bare element with a group that ends behind it is not read back.** -/
theorem readHere_overrun (he : isScalarElement e = true)
    (hc : c.rest = (quoteElement e).toList ++ rest) (hstops : Place.topLevel.Stops rest)
    (hwritten : quoteElement e = e) (hout : ¬Contained rest 0 e.toList) :
    ∃ t stop, Token.readHere rules c = .ok (t, stop) ∧ ¬ReadsElement rules e t := by
  rcases quoteElement_cases he with hquote | hbare
  · exact absurd (hquote.symm.trans hwritten) (quote_ne e)
  · have hcb : c.rest = e.toList ++ rest := hbare.written ▸ hc
    refine ⟨_, _, Token.readHere_of_readValue (hbare.nameAt? hcb hstops) (hbare.readValue hcb rfl),
      fun h => ?_⟩
    -- the token has more characters than the element
    have hlt := scanBareword_overrun hbare.chars hout c.offset
    have hraw := congrArg (·.toList.length) (h.raw.trans hbare.written)
    simp only [Token.ofValue, Token.between, Cursor.textTo, Cursor.charsTo, String.toList_ofList,
      List.length_take, hcb, List.length_append] at hraw
    omega

end Element

/-! ### Lines of elements -/

section Line

variable {rules : TokenRules}

theorem behindElement_eq (es : List String) :
    behindElement es = joinedBehind (es.map quoteElement) := by
  simp [behindElement, joinedBehind, joined, CommandParser.joinElements]

/-- An element is written without a blank in front. -/
theorem beginsFull_quoteElement {e : String} (he : isScalarElement e = true) :
    BeginsFull (quoteElement e).toList := by
  rcases quoteElement_cases he with hquote | hbare
  · exact ⟨'"', escapeQuoted e.toList ++ ['"'], by rw [hquote, quote, String.toList_ofList],
      by decide⟩
  · obtain ⟨ch, cs, hcs, -⟩ := hbare.head
    exact ⟨ch, cs, by rw [hbare.written, hcs], (hbare.chars ch (by simp [hcs])).1⟩

theorem beginsFull_elements {es : List String} (h : ∀ e ∈ es, isScalarElement e = true) :
    ∀ text ∈ es.map quoteElement, BeginsFull text.toList :=
  List.forall_mem_map.mpr fun e he => beginsFull_quoteElement (h e he)

theorem groupsStay_iff : ∀ {es : List String}, GroupsStay es ↔
    AllInFront quoteElement (fun rest e => quoteElement e = e → Contained rest 0 e.toList) es
  | [] => Iff.rfl
  | e :: es => by rw [GroupsStay, AllInFront, behindElement_eq, groupsStay_iff]

/-- The tokens from a place in front of a line of elements. -/
theorem ofCursor_elements {es : List String} {c : Cursor} (h : ∀ e ∈ es, isScalarElement e = true)
    (hc : dropBlanks c.rest = (CommandParser.joinElements es).toList) :
    (∃ ts stop, Tokens.ofCursor rules c = .prepend ts (.finished stop) ∧
      List.Forall₂ (ReadsElement rules) es ts) ↔ GroupsStay es := by
  rw [groupsStay_iff]
  refine Tokens.ofCursor_joined_iff (fun e he => beginsFull_quoteElement (h e he))
    (fun e he rest hstops hin c hc => ?_) (fun e he rest hstops c hc t stop hhere hreads => ?_) hc
  · obtain ⟨t, stop, hhere, hreads, hstop⟩ := readHere_element (h e he) hc hstops hin
    exact ⟨t, stop, hhere, hstop, hreads⟩
  · by_cases hin : quoteElement e = e → Contained rest 0 e.toList
    · obtain ⟨u, last, hhere', -, hstop⟩ : ∃ u last, Token.readHere rules c = .ok (u, last) ∧
          ReadsElement rules e u ∧ last.rest = rest := readHere_element (h e he) hc hstops hin
      rw [hhere] at hhere'
      cases hhere'
      exact ⟨hin, hstop⟩
    · obtain ⟨hwritten, hout⟩ := Classical.not_imp.mp hin
      obtain ⟨u, last, hhere', hnot⟩ : ∃ u last, Token.readHere rules c = .ok (u, last) ∧
          ¬ReadsElement rules e u := readHere_overrun (h e he) hc hstops hwritten hout
      rw [hhere] at hhere'
      cases hhere'
      exact absurd hreads hnot

/-- **The elements of a line are its tokens exactly if no group begins in a bare element and ends
in a later one.** -/
theorem CommandParser.ofText_joinElements {es : List String}
    (h : ∀ e ∈ es, isScalarElement e = true) :
    (∃ ts stop, Tokens.ofText rules (joinElements es) = .prepend ts (.finished stop) ∧
      List.Forall₂ (ReadsElement rules) es ts) ↔ GroupsStay es :=
  ofCursor_elements h (dropBlanks_joined (beginsFull_elements h))

/-- A group within an element, one that never ends, and blanks in quotes. -/
theorem CommandParser.ofText_joinElements_say :
    (∀ e ∈ ["say", "a[1]", "b[", "c d]", "&"], isScalarElement e = true) ∧
    ∃ ts stop, Tokens.ofText default (joinElements ["say", "a[1]", "b[", "c d]", "&"]) =
        .prepend ts (.finished stop) ∧
      List.Forall₂ (ReadsElement default) ["say", "a[1]", "b[", "c d]", "&"] ts :=
  ⟨by decide +kernel, (ofText_joinElements (by decide +kernel)).mpr (by decide +kernel)⟩

/-- A bracket that is closed in the next element makes one token of the two. -/
theorem CommandParser.ofText_joinElements_group :
    (∀ e ∈ ["a[", "b]"], isScalarElement e = true) ∧
    (Tokens.ofText default (joinElements ["a[", "b]"])).toList.map (·.raw) = ["a[ b]"] ∧
    ¬∃ ts stop, Tokens.ofText default (joinElements ["a[", "b]"]) = .prepend ts (.finished stop) ∧
      List.Forall₂ (ReadsElement default) ["a[", "b]"] ts := by
  have hscalar : ∀ e ∈ ["a[", "b]"], isScalarElement e = true := by decide +kernel
  refine ⟨hscalar, by decide +kernel, ?_⟩
  rw [Tokens.ofText, ofCursor_elements hscalar (dropBlanks_joined (beginsFull_elements hscalar))]
  decide +kernel

end Line

end CommandConsole
