/-
# Suggestions go on from what is typed

What is typed at the cursor is the whole last token, or the value assigned in
it, or the scalar at the end of a literal that is not finished. Each way to
complete picks its candidates in its own manner; but a suggestion begins with
what is typed and goes on behind it, unless it is the space behind a whole name
or a character that the grammar expects.

Key definitions: `TypedAt`, `TypedAt.Plain`, `Continues`.
Key theorem: `CommandParser.complete_continues`.
-/
import CommandConsole.Completion.Suggest
import CommandConsole.Proofs.Completion.Admission
import CommandConsole.Proofs.Completion.Place
import CommandConsole.Proofs.Line.Truncation
import CommandConsole.Proofs.Literal.LastScalar

namespace CommandConsole

/-- The suggestion begins with what is typed and is longer. -/
def Continues (s typed : String) : Prop := ∃ more, more ≠ [] ∧ s.toList = typed.toList ++ more

theorem continues_iff {s typed : String} :
    Continues s typed ↔ beginsWith s typed = true ∧ s ≠ typed := by
  rw [beginsWith, List.isPrefixOf_iff_prefix]
  constructor
  · rintro ⟨more, hmore, hs⟩
    refine ⟨⟨more, hs.symm⟩, ?_⟩
    rintro rfl
    exact hmore (List.self_eq_append_right.mp hs)
  · rintro ⟨⟨more, hs⟩, hne⟩
    refine ⟨more, ?_, hs.symm⟩
    rintro rfl
    rw [List.append_nil] at hs
    exact hne (String.toList_inj.mp hs.symm)

instance (s typed : String) : Decidable (Continues s typed) :=
  decidable_of_iff _ continues_iff.symm

/-- What is being typed at the end of a text with the tokens `tokens`, where a token reaches the
end. -/
inductive TypedAt (tokens : Tokens) (text : String) : String → Prop
  /-- The last token ends there. -/
  | token {t : Token} (hf : tokens.failure? = none) (ht : tokens.toList.getLast? = some t)
      (hend : t.span.stop = textLength text) (hk : ∀ name v, t.kind ≠ .named name (some v)) :
      TypedAt tokens text t.raw
  /-- It is `--name=value`, and the value is being typed. -/
  | assigned {t : Token} {name typed : String} {v : Literal} (hf : tokens.failure? = none)
      (ht : tokens.toList.getLast? = some t) (hend : t.span.stop = textLength text)
      (hk : t.kind = .named name (some v)) (hraw : t.raw = "--" ++ name ++ "=" ++ typed) :
      TypedAt tokens text typed
  /-- A literal is not finished, and the scalar read last in it ends there. -/
  | scalar {f : LiteralFailure} {sc : ScalarTrace} (hf : tokens.failure? = some f)
      (hs : f.lastScalar = some sc) (hend : sc.span.stop = textLength text) :
      TypedAt tokens text (textFrom text sc.span.start)
  /-- A literal is not finished, and no scalar has been begun there. -/
  | fresh {f : LiteralFailure} (hf : tokens.failure? = some f)
      (hs : ∀ sc, f.lastScalar = some sc → sc.span.stop ≠ textLength text) :
      TypedAt tokens text ""

/-- The characters that the grammar expects at the end of a literal that is not finished. -/
def Tokens.expectedChars (tokens : Tokens) : List Char :=
  match tokens.failure?.bind LiteralFailure.expected? with
  | some e => e.chars
  | none => []

theorem Tokens.expectedChars_of {tokens : Tokens} {f : LiteralFailure} {e : ExpectedTokens}
    (hf : tokens.failure? = some f) (he : f.expected? = some e) : tokens.expectedChars = e.chars := by
  rw [expectedChars, hf, Option.bind_some, he]

/-- What is typed is read as it is written: a token does not end with a blank, which only a
backslash can put there, and a bareword in an unfinished literal has no backslash. -/
structure TypedAt.Plain (tokens : Tokens) (text typed : String) : Prop where
  blank : tokens.failure? = none → endsBlank text = false
  escape : tokens.failure? ≠ none → beginsWith typed "\"" = true ∨ '\\' ∉ typed.toList

/-! ### Candidates -/

theorem continues_nil {s : String} (h : s ≠ "") : Continues s "" :=
  ⟨s.toList, fun hnil => h (String.toList_inj.mp hnil), rfl⟩

theorem continues_of_mem_continuing {s typed : String} {candidates : List String}
    (h : s ∈ continuing typed candidates) : Continues s typed := by
  obtain ⟨-, hs⟩ := List.mem_filter.mp h
  obtain ⟨hbegins, hne⟩ := Bool.and_eq_true_iff.mp hs
  exact continues_iff.mpr ⟨hbegins, by simpa using hne⟩

theorem Candidates.mem_select {c : Candidates} {continuation : Bool} {typed s : String}
    (h : s ∈ c.select continuation typed) : s = " " ∧ continuation = true ∨ Continues s typed := by
  unfold Candidates.select at h
  simp only [List.mem_append] at h
  rcases h with ((hspace | hs) | hs) | hs
  · split at hspace
    · rename_i hc
      exact .inl ⟨List.mem_singleton.mp hspace, (Bool.and_eq_true_iff.mp hc).2⟩
    · cases hspace
  · exact .inr (continues_of_mem_continuing hs)
  · exact .inr (continues_of_mem_continuing hs)
  · exact .inr (continues_of_mem_continuing hs)

/-- What is suggested for a quoted scalar that is still open is longer: it is closed. -/
theorem continues_of_mem_completeQuoted {candidates : List String} {part typed s : String}
    {ds : List Char} {offset : Nat} (htyped : typed.toList = '"' :: ds)
    (hopen : (scanQuoted offset ds).closed = false)
    (h : s ∈ completeQuoted candidates part typed) : Continues s typed := by
  obtain ⟨hs, hbegins⟩ := List.mem_filter.mp h
  obtain ⟨c, -, rfl⟩ := List.mem_map.mp hs
  refine continues_iff.mpr ⟨hbegins, fun heq => ?_⟩
  rw [← heq, quote, String.toList_ofList] at htyped
  obtain ⟨stop, hscan⟩ := scanQuoted_escapeQuoted [] offset c.toList
  rw [← List.cons.inj htyped |>.2, hscan] at hopen
  cases hopen

/-! ### Unfinished literals -/

section Literal

variable {text s : String} {start : Cursor} {f : LiteralFailure} {e : ExpectedTokens}
  {nested : Option ArgType}

/-- What may come next where no scalar has been begun. -/
theorem mem_suggestInLiteral_fresh (hs : ∀ sc, f.lastScalar = some sc → sc.span.stop ≠ textLength text)
    (h : s ∈ suggestInLiteral text f e nested) (hempty : s ≠ "") :
    s ∈ e.chars.map Char.toString ∨ Continues s "" := by
  have hat : s ∈ e.chars.map Char.toString ++
      (if e.value then freshInside f.frames nested else []) →
        s ∈ e.chars.map Char.toString ∨ Continues s "" := by
    intro hmem
    exact (List.mem_append.mp hmem).imp_right fun _ => continues_nil hempty
  unfold suggestInLiteral at h
  dsimp only at h
  split at h
  · exact hat h
  · rename_i sc hsc
    rw [if_neg fun hc => hs sc hsc hc.1] at h
    exact hat h

/-- **Behind a scalar that ends an unfinished literal a suggestion is a character that the grammar
expects, or goes on from the scalar.** -/
theorem mem_suggestInLiteral_scalar (hstart : (Cursor.start text).Reaches start) {limit : Nat}
    (hread : readValue limit start = .error f) (he : f.expected? = some e) {sc : ScalarTrace}
    (hsc : f.lastScalar = some sc) (hend : sc.span.stop = textLength text)
    (hplain : beginsWith (textFrom text sc.span.start) "\"" = true ∨
      '\\' ∉ (textFrom text sc.span.start).toList)
    (h : s ∈ suggestInLiteral text f e nested) :
    s ∈ e.chars.map Char.toString ∨ Continues s (textFrom text sc.span.start) := by
  have htext : start.offset + byteLength start.rest = textLength text := by
    rw [hstart.end_eq, Cursor.start, Nat.zero_add, textLength]
  obtain ⟨⟨d, hd, hat⟩, hdepth, hvalue⟩ :=
    readValue_lastScalar hread hsc (Nat.le_of_eq (htext.trans hend.symm))
  have htyped : textFrom text sc.span.start = String.ofList d.rest := by
    rw [hat.start_eq, textFrom_of_reaches (hstart.trans hd)]
  have hquote : beginsWith (textFrom text sc.span.start) "\"" = true ↔ d.peek = some '"' := by
    rw [htyped, beginsWith, String.toList_ofList, Cursor.peek]
    cases d.rest with
    | nil => simp
    | cons ch cs => simp [List.isPrefixOf, eq_comm (a := '"') (b := ch)]
  unfold suggestInLiteral at h
  rw [hsc] at h
  dsimp only at h
  rw [if_pos ⟨hend, hdepth⟩] at h
  split at h
  · rename_i hopen
    obtain ⟨ds, hds, hclosed⟩ := hat.of_openQuote hopen
    refine .inr (continues_of_mem_completeQuoted ?_ hclosed h)
    rw [htyped, String.toList_ofList, hds]
  · split at h
    · -- the scalar is closed, and no value comes next
      rw [hvalue e he] at h
      exact .inl (by simpa using h)
    · rename_i hbare
      rcases List.mem_append.mp h with h | h
      · split at h
        · exact .inl h
        · cases h
      · have hs : '\\' ∉ d.rest := by
          have hs := hplain.resolve_left hbare
          rwa [htyped, String.toList_ofList] at hs
        have hstop : sc.span.stop = d.offset + byteLength d.rest := by
          rw [hend, ← htext, hd.end_eq]
        rw [htyped, ← hat.text_eq (fun hq => hbare (hquote.mpr hq)) hs hstop]
        exact .inr (continues_of_mem_continuing h)

end Literal

/-! ### Tokens -/

namespace Token

variable {rules : TokenRules} {c : Cursor} {f : LiteralFailure}

/-- A token that cannot be read has a literal that cannot be read. -/
theorem exists_of_readHere_error (h : readHere rules c = .error f) :
    ∃ d, c.Reaches d ∧ readValue rules.maxDepth d = .error f := by
  rcases readHere_error_cases h with ⟨name, stop, hname, hr⟩ | ⟨-, hr⟩
  · unfold readAssigned at hr
    split at hr
    · dsimp only at hr
      split at hr
      · cases hr
      · split at hr
        · cases hr
        · exact ⟨stop.advance, (nameAt?_reaches hname).trans (.advance stop),
            error_of_map_eq_error hr⟩
    · cases hr
  · exact ⟨c, .refl c, hr⟩

end Token

/-- The failure of a line is that of a literal in it. -/
theorem ParserConfig.exists_of_failure? {config : ParserConfig} {text : String}
    {f : LiteralFailure} (h : (config.tokensOf text).failure? = some f) :
    ∃ d, (Cursor.start text).Reaches d ∧ readValue config.maxDepth d = .error f := by
  obtain ⟨us, start, hts⟩ := Tokens.exists_of_failure? h
  obtain ⟨c, hread, hend⟩ := Token.ReadTo.exists_of_ofCursor hts
  obtain ⟨hr, -⟩ := Token.read?_of_broken hend
  have hhere : Token.readHere config.tokenRules c.skipBlanks = .error f := by
    unfold Token.read? at hr
    split at hr
    · cases hr
    · cases hh : Token.readHere config.tokenRules c.skipBlanks with
      | ok r => rw [hh] at hr; cases hr
      | error g => rw [hh] at hr; cases hr; rfl
  obtain ⟨d, hd, hv⟩ := Token.exists_of_readHere_error hhere
  exact ⟨d, hread.reaches.trans ((Cursor.Reaches.skipBlanks c).trans hd), hv⟩

/-! ### Lines -/

namespace TypedPlace

variable {config : ParserConfig} {text name typed : String} {t : Token} {v : Literal}

theorem ofLast_word (hk : ∀ name v, t.kind ≠ .named name (some v)) :
    ofLast text t = .word (textBefore text t.span.start) t.raw := by
  unfold ofLast
  dsimp only
  split
  · rename_i name v hnamed
    exact absurd hnamed (hk name v)
  · rfl

/-- In a last token that assigns, the value is typed behind the first equals sign. -/
theorem ofLast_assigns (hf : (config.tokensOf text).failure? = none)
    (ht : (config.tokensOf text).toList.getLast? = some t)
    (hk : t.kind = .named name (some v)) (hraw : t.raw = "--" ++ name ++ "=" ++ typed) :
    ofLast text t = .assignment (textBefore text t.span.start) name typed := by
  obtain ⟨us, stop, hts⟩ := Tokens.exists_of_finished hf
  obtain ⟨d, hread, -⟩ := readTo_of_tokensOf hts
  rw [hts, Tokens.toList_prepend, Tokens.toList, List.append_nil] at ht
  obtain ⟨vs, rfl⟩ := List.getLast?_eq_some_iff.mp ht
  obtain ⟨e, -, hlast⟩ := hread.snoc
  obtain ⟨-, hhere⟩ := Token.read?_eq_some_iff.mp hlast
  obtain ⟨-, -, -, hequals⟩ := Token.readHere_assigns hhere hk
  have hchars : t.raw.toList = '-' :: '-' :: (name.toList ++ '=' :: typed.toList) := by simp [hraw]
  unfold ofLast
  dsimp only
  rw [hk, hchars, splitOnce?_assigned hequals]
  simp

end TypedPlace

namespace CommandParser

variable {p : CommandParser} {context : ParseContext} {text typed s : String} {cursor : Nat}
  {place : TypedPlace}

/-- The place of what is typed behind a whole last token is that token. -/
theorem locate?_eq_ofLast {config : ParserConfig} {t : Token}
    (hf : (config.tokensOf text).failure? = none)
    (ht : (config.tokensOf text).toList.getLast? = some t) (hblank : endsBlank text = false)
    (h : TypedPlace.locate? config text = some place) : place = TypedPlace.ofLast text t := by
  rw [TypedPlace.locateFrom?_of_finished hf h, ht, Option.some_or, TypedPlace.behind, hblank]
  rfl

/-- In an unfinished literal a suggestion is one of those inside it. -/
theorem exists_of_mem_completeLiteral {token : String} {f : LiteralFailure} {state : LineState}
    (h : s ∈ p.completeLiteral context.localizer text token f state) :
    ∃ e nested, f.expected? = some e ∧ s ∈ suggestInLiteral text f e nested := by
  unfold completeLiteral at h
  split at h
  · rename_i e _ _ _ hk
    exact ⟨e, _, by rw [LiteralFailure.expected?, hk], h⟩
  · cases h

theorem completeAt_continues (htyped : TypedAt (p.config.tokensOf text) text typed)
    (hplain : TypedAt.Plain (p.config.tokensOf text) text typed)
    (hplace : TypedPlace.locate? p.config text = some place)
    (h : s ∈ p.completeAt context text place)
    (hs : (p.config.tokensOf text).failure? ≠ none → typed = "" → s ≠ "") :
    s = " " ∧ p.config.spaceContinuation = true ∨
      s ∈ (p.config.tokensOf text).expectedChars.map Char.toString ∨ Continues s typed := by
  cases htyped with
  | token hf ht hend hk =>
    rw [locate?_eq_ofLast hf ht (hplain.blank hf) hplace] at h
    rw [TypedPlace.ofLast_word hk, completeAt] at h
    split at h
    · cases h
    · rcases Candidates.mem_select h with hspace | hcontinues
      · exact .inl hspace
      · exact .inr (.inr hcontinues)
  | assigned hf ht hend hk hraw =>
    rw [locate?_eq_ofLast hf ht (hplain.blank hf) hplace, TypedPlace.ofLast_assigns hf ht hk hraw,
      completeAt] at h
    split at h
    · cases h
    · unfold completeAssignment at h
      split at h
      · split at h
        · exact .inr (.inr (continues_of_mem_continuing h))
        · cases h
      · cases h
  | @scalar f sc hf hsc hend =>
    obtain ⟨consumed, token, rfl⟩ := TypedPlace.locateFrom?_of_failure? hf hplace
    rw [completeAt] at h
    split at h
    · cases h
    · obtain ⟨e, nested, he, hmem⟩ := exists_of_mem_completeLiteral h
      obtain ⟨d, hd, hread⟩ := ParserConfig.exists_of_failure? hf
      rcases mem_suggestInLiteral_scalar hd hread he hsc hend (hplain.escape (by rw [hf]; simp)) hmem
        with hchar | hcontinues
      · exact .inr (.inl (by rwa [Tokens.expectedChars_of hf he]))
      · exact .inr (.inr hcontinues)
  | @fresh f hf hsc =>
    obtain ⟨consumed, token, rfl⟩ := TypedPlace.locateFrom?_of_failure? hf hplace
    rw [completeAt] at h
    split at h
    · cases h
    · obtain ⟨e, nested, he, hmem⟩ := exists_of_mem_completeLiteral h
      rcases mem_suggestInLiteral_fresh hsc hmem (hs (by rw [hf]; simp) rfl) with hchar | hcontinues
      · exact .inr (.inl (by rwa [Tokens.expectedChars_of hf he]))
      · exact .inr (.inr hcontinues)

/-- **A suggestion goes on from what is typed**, and is longer, unless it is the space behind a
whole name, a character that the grammar expects, or the empty text in a literal that has just
begun. -/
theorem complete_continues
    (htyped : TypedAt (p.config.tokensOf (textBefore text cursor)) (textBefore text cursor) typed)
    (hplain : TypedAt.Plain (p.config.tokensOf (textBefore text cursor)) (textBefore text cursor)
      typed)
    (h : s ∈ p.complete context text cursor)
    (hs : (p.config.tokensOf (textBefore text cursor)).failure? ≠ none → typed = "" → s ≠ "") :
    s = " " ∧ p.config.spaceContinuation = true ∨
      s ∈ (p.config.tokensOf (textBefore text cursor)).expectedChars.map Char.toString ∨
        Continues s typed := by
  unfold complete completeLine at h
  split at h
  · cases h
  · rename_i place hplace
    exact completeAt_continues htyped hplain hplace (mem_of_withoutRepeatsFrom h) hs

end CommandParser

/-! ### Texts with blanks and escapes -/

section Demo

variable {tokens : Tokens} {text typed : String}

/-- What the last token says is typed, as the tokens of a fixed text have it. -/
theorem typedAt_token (h : tokens.failure? = none ∧ ∃ t ∈ tokens.toList.getLast?,
    t.span.stop = textLength text ∧ t.value?.isSome ∧ t.raw = typed) :
    TypedAt tokens text typed := by
  obtain ⟨hf, t, ht, hend, hvalue, rfl⟩ := h
  refine .token hf ht hend fun name v hk => ?_
  rw [Token.value?, hk] at hvalue
  cases hvalue

theorem typedAt_scalar (h : ∃ sc ∈ tokens.failure?.bind (·.lastScalar),
    sc.span.stop = textLength text ∧ textFrom text sc.span.start = typed) :
    TypedAt tokens text typed := by
  obtain ⟨sc, hsc, hend, rfl⟩ := h
  obtain ⟨f, hf, hs⟩ := Option.bind_eq_some_iff.mp hsc
  exact .scalar hf hs hend

theorem typedAt_fresh (h : tokens.failure?.map (·.lastScalar) = some none) :
    TypedAt tokens text "" := by
  obtain ⟨f, hf, hs⟩ := Option.map_eq_some_iff.mp h
  exact .fresh hf (by rw [hs]; simp)

/-- A command that takes colours, of which one is written with a blank, and one is empty. -/
def Demo.paint : Command :=
  Demo.command "paint" "Mix colours"
    [.new "colours" (.list (.enumeration "Colour" ["red hat", "teal", ""]))]

/-- A word and a scalar in a list go on. -/
theorem CommandParser.complete_continues_paint :
    ("paint" ∈ (Demo.parserOf Demo.paint).complete .empty "pa" 2 ∧ Continues "paint" "pa") ∧
      "teal" ∈ (Demo.parserOf Demo.paint).complete .empty "paint [te" 9 ∧ Continues "teal" "te" := by
  have hword : "paint" ∈ (Demo.parserOf Demo.paint).complete .empty "pa" 2 := by decide +kernel
  have hscalar : "teal" ∈ (Demo.parserOf Demo.paint).complete .empty "paint [te" 9 := by
    decide +kernel
  have hunfinished : ((Demo.parserOf Demo.paint).config.tokensOf
      (textBefore "paint [te" 9)).failure? ≠ none := by
    decide +kernel
  have hpa : TypedAt ((Demo.parserOf Demo.paint).config.tokensOf (textBefore "pa" 2))
      (textBefore "pa" 2) "pa" := typedAt_token (by decide +kernel)
  have hte : TypedAt ((Demo.parserOf Demo.paint).config.tokensOf (textBefore "paint [te" 9))
      (textBefore "paint [te" 9) "te" := typedAt_scalar (by decide +kernel)
  refine ⟨⟨hword, ?_⟩, hscalar, ?_⟩
  · rcases complete_continues hpa
      ⟨fun _ => by decide +kernel, fun h => absurd (by decide +kernel) h⟩ hword (fun _ => by decide)
      with hspace | hchar | h
    · exact absurd hspace.1 (by decide)
    · exact absurd hchar (by decide +kernel)
    · exact h
  · rcases complete_continues hte
      ⟨fun h => absurd h hunfinished, fun _ => .inr (by decide)⟩ hscalar (fun _ => by decide)
      with hspace | hchar | h
    · exact absurd hspace.1 (by decide)
    · exact absurd hchar (by decide +kernel)
    · exact h

/-- At the end of the text a suggestion does not go on from what is typed, although it is neither a
space nor a character that the grammar expects. -/
structure CommandParser.Strays (p : CommandParser) (context : ParseContext)
    (text typed s : String) : Prop where
  typedAt : TypedAt (p.config.tokensOf text) text typed
  suggested : s ∈ p.complete context text (textLength text)
  space : s ≠ " "
  char : s ∉ (p.config.tokensOf text).expectedChars.map Char.toString
  strays : ¬Continues s typed

/-- A command that takes a text and a colour. -/
def Demo.label : Command :=
  Demo.command "label" "Write in a colour"
    [.new "text" .string, .new "colour" (.enumeration "Colour" ["red"])]

/-- A bareword in a list is taken without its backslash; a token that ends with an escaped blank is
taken for a whole one; and nothing is suggested to go on with nothing. -/
theorem CommandParser.complete_strays :
    (Demo.parserOf Demo.paint).Strays .empty "paint [red\\ h" "red\\ h" "red hat" ∧
      (Demo.parserOf Demo.label).Strays .empty "label x\\ " "x\\ " "red" ∧
        (Demo.parserOf Demo.paint).Strays .empty "paint [" "" "" where
  left := ⟨typedAt_scalar (by decide +kernel), by decide +kernel, by decide, by decide +kernel,
    by decide⟩
  right := ⟨⟨typedAt_token (by decide +kernel), by decide +kernel, by decide, by decide +kernel,
    by decide⟩, typedAt_fresh (by decide +kernel), by decide +kernel, by decide, by decide +kernel,
    by decide⟩

end Demo

end CommandConsole
