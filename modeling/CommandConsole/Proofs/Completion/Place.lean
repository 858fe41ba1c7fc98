/-
# What stands before the completion cursor

The place of the completion cursor splits a text: there is a part that has
tokens of its own, and behind it the word or the assigned value that is being
typed. The tokens of the first part stay as they are when something else is
typed behind it.

Key definition: `TypedPlace.Stands`.
Key theorems: `Token.ReadTo.cutAt`, `TypedPlace.stands_of_locate?`.
-/
import CommandConsole.Completion.Candidates
import CommandConsole.Completion.Place
import CommandConsole.Proofs.Token.Tiling

namespace CommandConsole

theorem splitOnce?_append {mark : Char} {b : List Char} : ∀ {a : List Char},
    (∀ ch ∈ a, ch ≠ mark) → splitOnce? mark (a ++ mark :: b) = some (a, b)
  | [], _ => by simp [splitOnce?]
  | ch :: a, h => by
    obtain ⟨hch, ha⟩ := List.forall_mem_cons.mp h
    rw [List.cons_append, splitOnce?, if_neg hch, splitOnce?_append ha]
    rfl

theorem splitOnce?_assigned {name : String} {cs : List Char} (h : '=' ∉ name.toList) :
    splitOnce? '=' ('-' :: '-' :: (name.toList ++ '=' :: cs)) =
      some ('-' :: '-' :: name.toList, cs) := by
  refine splitOnce?_append (a := '-' :: '-' :: name.toList) fun ch hch => ?_
  rintro rfl
  simp only [List.mem_cons] at hch
  rcases hch with hdash | hdash | hname
  · cases hdash
  · cases hdash
  · exact h hname

namespace Token

variable {rules : TokenRules} {c stop d : Cursor} {name : String} {t : Token} {ts : List Token}

/-- Where there is a name, it is written behind two dashes. -/
theorem of_nameAt? (h : nameAt? rules c = some (name, stop)) :
    c.rest = '-' :: '-' :: (name.toList ++ stop.rest) ∧ ∀ ch ∈ name.toList, rules.inName ch = true := by
  obtain ⟨ch, cs, hc, -, hr⟩ := nameAt?_eq_some_iff.mp h
  obtain ⟨rfl, rfl⟩ := Prod.mk.inj hr
  have hdashes : c.advance.advance.rest = ch :: cs := by simp [hc]
  obtain ⟨used, hused, hall⟩ := Cursor.skipFrom_used (p := rules.inName) c.advance.advance.offset
    c.advance.advance.rest
  have htext : c.advance.advance.textTo (nameEnd rules c) = String.ofList used :=
    Cursor.textTo_of_rest (by rw [String.toList_ofList]; exact hused)
  rw [htext, String.toList_ofList]
  refine ⟨?_, hall⟩
  have hsplit : c.advance.advance.rest = used ++ (nameEnd rules c).rest := hused
  rw [hdashes] at hsplit
  rw [hc, hsplit]

/-- A token that assigns is written as a name, an equals sign and the value. -/
theorem readHere_assigns {v : Literal} (h : readHere rules c = .ok (t, stop))
    (hk : t.kind = .named name (some v)) :
    rules.assignSyntax = true ∧ ∃ cs, c.rest = '-' :: '-' :: (name.toList ++ '=' :: cs) ∧
      '=' ∉ name.toList := by
  obtain ⟨behind, hname, hr⟩ := readHere_named_iff.mp ⟨t, h, hk⟩
  obtain ⟨hrest, hall⟩ := of_nameAt? hname
  rcases readAssigned_cases hr with ⟨-, hnone, -⟩ | ⟨ha, hp, -⟩
  · cases hnone
  · obtain ⟨cs, hcs⟩ := List.head?_eq_some_iff.mp hp
    refine ⟨ha, cs, by rw [hrest, hcs], fun hmem => ?_⟩
    have hin := hall '=' hmem
    simp [TokenRules.inName, ha] at hin

/-- **The text in front of a place with something behind it has the tokens before it**, and perhaps
blanks behind them. -/
theorem ReadTo.cutAt {text : String} {vs : List Token} {e : Cursor}
    (hread : ReadTo rules (.start text) vs e) (hne : dropBlanks e.rest ≠ []) :
    ∃ d', StaysTo rules (.start (textBefore text e.skipBlanks.offset)) vs d' ∧
      dropBlanks d'.rest = [] ∧
        text.toList = (textBefore text e.skipBlanks.offset).toList ++ e.skipBlanks.rest := by
  obtain ⟨blanks, hblanks, hrest, -⟩ := e.exists_blanks
  have hreaches := hread.reaches.trans (.skipBlanks e)
  have hx : e.skipBlanks.rest = dropBlanks e.rest := Cursor.skipBlanks_rest e
  have hdrop : dropBlanks e.skipBlanks.rest = e.skipBlanks.rest := by
    rw [hx, dropBlanks_dropBlanks]
  rw [Cursor.start_textBefore hreaches] at hread
  obtain ⟨d', he, hstays⟩ := hread.staysTo_of_extend (by rwa [hx]) hdrop
    (Cursor.skipBlanks_rest_length_le e)
  have hrest' : d'.rest ++ e.skipBlanks.rest = e.rest := (congrArg Cursor.rest he).symm
  have hd : d'.rest = blanks := List.append_cancel_right (hrest'.trans hrest)
  exact ⟨d', hstays, by rw [hd, dropBlanks_of_allBlank hblanks],
    Cursor.toList_textBefore hreaches⟩

/-- The text in front of a token has the tokens before it. -/
theorem ReadTo.cut {text : String} {vs : List Token} {e : Cursor}
    (hread : ReadTo rules (.start text) vs e) (hlast : read? rules e = .ok (some (t, d))) :
    ∃ d', StaysTo rules (.start (textBefore text t.span.start)) vs d' ∧ dropBlanks d'.rest = [] ∧
      text.toList = (textBefore text t.span.start).toList ++ e.skipBlanks.rest := by
  obtain ⟨hne, hhere⟩ := read?_eq_some_iff.mp hlast
  rw [span_of_readHere hhere]
  exact hread.cutAt hne

theorem read?_of_broken {start : Nat} {f : LiteralFailure}
    (h : Tokens.ofCursor rules c = .broken start f) :
    read? rules c = .error f ∧ start = c.skipBlanks.offset := by
  cases hr : read? rules c with
  | error g =>
    rw [Tokens.ofCursor_error hr] at h
    obtain ⟨rfl, rfl⟩ := Tokens.broken.inj h
    exact ⟨rfl, rfl⟩
  | ok r =>
    cases r with
    | none => rw [Tokens.ofCursor_none hr] at h; cases h
    | some r => rw [Tokens.ofCursor_some hr] at h; cases h

end Token

namespace TypedPlace

/-- The place stands in the text: in front of what is being typed there are tokens that stay as
they are, and blanks perhaps. -/
inductive Stands (rules : TokenRules) (text : String) : TypedPlace → Prop
  | word {consumed typed : String} {ts : List Token} {d : Cursor}
      (htext : text.toList = consumed.toList ++ typed.toList)
      (h : Token.StaysTo rules (.start consumed) ts d) (hd : dropBlanks d.rest = []) :
      Stands rules text (.word consumed typed)
  | assignment {consumed name typed : String} {ts : List Token} {d : Cursor}
      (htext : text.toList = consumed.toList ++ '-' :: '-' :: (name.toList ++ '=' :: typed.toList))
      (ha : rules.assignSyntax = true)
      (h : Token.StaysTo rules (.start consumed) ts d) (hd : dropBlanks d.rest = []) :
      Stands rules text (.assignment consumed name typed)

variable {config : ParserConfig} {text : String}

/-- The place behind the last token of a text. -/
def behind (text : String) : Option Token → TypedPlace
  | some t => if endsBlank text then .word text "" else ofLast text t
  | none => .word text ""

/-- In a text with an unfinished literal no place but the one in it can be completed. -/
theorem locateFrom?_of_failure? {place : TypedPlace} {f : LiteralFailure} :
    ∀ {ts : Tokens} {last : Option Token}, ts.failure? = some f →
      locateFrom? text last ts = some place → ∃ consumed token, place = .literal consumed token f
  | .finished stop, _, hf, _ => by cases hf
  | .broken start g, last, hf, h => by
    cases hf
    rw [locateFrom?] at h
    split at h
    · cases h
      exact ⟨_, _, rfl⟩
    · cases h
  | .more t rest, last, hf, h => by
    have hrest : rest.failure? = some f := hf
    rw [locateFrom?] at h
    exact locateFrom?_of_failure? hrest h

/-- In a text without one the place is that behind the last token. -/
theorem locateFrom?_of_finished {place : TypedPlace} : ∀ {ts : Tokens} {last : Option Token},
    ts.failure? = none → locateFrom? text last ts = some place →
      place = behind text (ts.toList.getLast?.or last)
  | .finished stop, last, _, h => by
    unfold behind
    cases last with
    | none =>
      rw [locateFrom?] at h
      cases h
      rfl
    | some t =>
      rw [locateFrom?] at h
      split at h
      · rename_i hb
        cases h
        simp [Tokens.toList, hb]
      · rename_i hb
        cases h
        simp [Tokens.toList, hb]
  | .broken start f, _, hf, _ => by cases hf
  | .more t rest, last, hf, h => by
    have hrest : rest.failure? = none := hf
    rw [locateFrom?] at h
    rw [locateFrom?_of_finished hrest h, Tokens.toList_more]
    cases rest.toList with
    | nil => rfl
    | cons u us =>
      rw [List.getLast?_cons_cons]
      cases hl : (u :: us).getLast? with
      | none => simp at hl
      | some w => rfl

/-- The tokens of a text are read from its start up to a place with blanks only behind it. -/
theorem readTo_of_tokensOf {us : List Token} {stop : Nat}
    (h : config.tokensOf text = .prepend us (.finished stop)) :
    ∃ d, Token.ReadTo config.tokenRules (.start text) us d ∧ dropBlanks d.rest = [] := by
  obtain ⟨d, hd, hend⟩ := Token.ReadTo.exists_of_ofCursor h
  refine ⟨d, hd, ?_⟩
  by_contra hne
  cases hread : Token.read? config.tokenRules d with
  | error f => rw [Tokens.ofCursor_error hread] at hend; cases hend
  | ok r =>
    cases r with
    | none => exact hne (Token.read?_eq_none_iff.mp hread)
    | some r =>
      obtain ⟨t, e⟩ := r
      rw [Tokens.ofCursor_some hread] at hend
      cases hend

theorem not_endsFull (h : endsBlank text = true) : ¬EndsFull text.toList := by
  obtain ⟨d, hd, hb⟩ := (Option.any_eq_true _ _).mp h
  intro hfull
  rw [hfull d hd] at hb
  cases hb

/-- Only a text that ends with a blank has blanks behind its last token. -/
theorem rest_eq_nil {d : Cursor} (hb : endsBlank text = false)
    (hr : (Cursor.start text).Reaches d) (hd : dropBlanks d.rest = []) : d.rest = [] := by
  obtain ⟨cs, hcs, -⟩ := hr
  by_contra hne
  have hlast : text.toList.getLast? = d.rest.getLast? := by
    have htext : text.toList = cs ++ d.rest := hcs
    rw [htext, List.getLast?_append_of_ne_nil _ hne]
  obtain ⟨ch, hch⟩ : ∃ ch, d.rest.getLast? = some ch := by
    cases hl : d.rest.getLast? with
    | none => exact absurd (List.getLast?_eq_none_iff.mp hl) hne
    | some ch => exact ⟨ch, rfl⟩
  have hblank := allBlank_of_dropBlanks hd ch (List.mem_of_getLast? hch)
  rw [endsBlank, hlast, hch] at hb
  simp [hblank] at hb

/-- The place of a last token that the text ends with. -/
theorem stands_ofLast {rules : TokenRules} {vs : List Token} {t : Token} {e d : Cursor}
    (hread : Token.ReadTo rules (.start text) vs e)
    (hlast : Token.read? rules e = .ok (some (t, d))) (hend : d.rest = []) :
    (ofLast text t).Stands rules text := by
  obtain ⟨-, hhere⟩ := Token.read?_eq_some_iff.mp hlast
  have hraw : t.raw = String.ofList e.skipBlanks.rest := by
    rw [Token.raw_of_readHere hhere]
    exact Cursor.textTo_of_rest (by rw [hend, String.toList_ofList, List.append_nil])
  obtain ⟨d', hstays, hd', htext⟩ := hread.cut hlast
  have hword : Stands rules text (.word (textBefore text t.span.start) t.raw) :=
    .word (by rw [hraw, String.toList_ofList, htext]) hstays hd'
  unfold ofLast
  dsimp only
  split
  · rename_i name v hk
    obtain ⟨ha, cs, hcs, hequals⟩ := Token.readHere_assigns hhere hk
    have hsplitOnce : splitOnce? '=' t.raw.toList = some ('-' :: '-' :: name.toList, cs) := by
      rw [hraw, String.toList_ofList, hcs, splitOnce?_assigned hequals]
    rw [hsplitOnce]
    refine .assignment ?_ ha hstays hd'
    simp only [Option.map_some, Option.getD_some, String.toList_ofList]
    rw [htext, hcs]
  · exact hword

/-- **The completion cursor stands behind tokens that stay as they are**, unless it is in a
literal that is not finished. -/
theorem stands_of_locate? {place : TypedPlace} (hs : '\\' ∉ text.toList)
    (h : locate? config text = some place) :
    (∃ c t f, place = .literal c t f) ∨ place.Stands config.tokenRules text := by
  cases hf : (config.tokensOf text).failure? with
  | some f =>
    obtain ⟨consumed, token, hplace⟩ := locateFrom?_of_failure? hf h
    exact .inl ⟨consumed, token, f, hplace⟩
  | none =>
    refine .inr ?_
    obtain ⟨us, stop, hts⟩ := Tokens.exists_of_finished hf
    obtain ⟨d, hread, hd⟩ := readTo_of_tokensOf hts
    rw [locateFrom?_of_finished hf h, hts, Tokens.toList_prepend, Tokens.toList, List.append_nil,
      Option.or_none]
    rcases List.eq_nil_or_concat us with rfl | ⟨vs, t, rfl⟩
    · cases hread
      exact .word (by simp) (.nil _) hd
    · rw [List.concat_eq_append, List.getLast?_concat]
      rw [List.concat_eq_append] at hread
      by_cases hb : endsBlank text = true
      · rw [behind, if_pos hb]
        exact .word (by simp) (hread.staysTo_of_endsBlank hs (not_endsFull hb)) hd
      · rw [behind, if_neg hb]
        have hend : d.rest = [] := rest_eq_nil (by simpa using hb) hread.reaches hd
        obtain ⟨e, hread, hlast⟩ := hread.snoc
        exact stands_ofLast hread hlast hend

end TypedPlace
end CommandConsole
