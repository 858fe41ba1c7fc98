/-
# Accepted suggestions

What is suggested in a word or in an assigned value can be accepted: the line
with the suggestion in place of what has been typed leaves the parser open
again, or breaks off behind a bracket that has just been opened. This takes
plain names and texts, and it takes some care where the suggestions do not look
at all that the binder looks at: an open run takes the next value before any
other argument does, a value that is waited for comes before any name, a list
of fixed length may be short of its last items, and the depth of literals may
be bounded by zero.

Key definitions: `CommandParser.Heeds`, `CommandParser.Suits`, `CommandParser.Accepts`.
Key theorem: `CommandParser.completeLine_viable`.
-/
import CommandConsole.Proofs.Completion.Admission
import CommandConsole.Proofs.Completion.Place

namespace CommandConsole

/-! ### The line with the suggestion -/

namespace TypedPlace

/-- What parses as a partial line already. -/
def consumed : TypedPlace → String
  | .word consumed _ | .assignment consumed _ _ | .literal consumed _ _ => consumed

/-- What has been typed of the token that is completed. -/
def typed : TypedPlace → String
  | .word _ typed | .assignment _ _ typed => typed
  | .literal _ token _ => token

def InLiteral : TypedPlace → Prop
  | .literal _ _ _ => True
  | _ => False

/-- The suggestion is typed as an unnamed value or as the name of a command. -/
def AddsValue (s : String) : TypedPlace → Prop
  | .word _ _ => ¬IsOpening s ∧ beginsWith s "--" = false
  | _ => False

end TypedPlace

namespace CommandParser

/-- The suggestion heeds what the candidates are not chosen by. -/
structure Heeds (p : CommandParser) (commands : List Command) (state : LineState)
    (place : TypedPlace) (s : String) : Prop where
  /-- An open run takes the next value, whatever argument the value has been suggested for. -/
  run : ∀ id bound a count, state = .inCommand id bound (.run a count) → place.AddsValue s →
    ∃ type, runType? a count = some type ∧ ∀ span, type.takes (.scalar s span) = true
  /-- An argument that waits for its value takes no name, and not the separator either. -/
  waiting : ∀ id bound a, state = .inCommand id bound (.value a) →
    IsOpening s ∨ place.AddsValue s ∧ s ≠ p.config.chainSeparator
  /-- No optional argument passes a value on only because its run is too short. -/
  steady : place.AddsValue s → ∀ c ∈ commands, ∀ a ∈ c.arguments.all, a.Steady
  /-- A literal may open a container at all. -/
  depth : IsOpening s → 0 < p.config.maxDepth

/-- The line with the suggestion leaves the parser open again, or the suggestion is a bracket
that the line breaks off behind. -/
def Accepts (p : CommandParser) (context : ParseContext) (base s : String) : Prop :=
  (∃ after, p.parsePartial context (base ++ s) = .ok after) ∨
    IsOpening s ∧ ∃ f expected, p.parsePartial context (base ++ s) = .error f ∧
      f.kind = .tokenExpected expected (textLength (base ++ s))

variable {p : CommandParser} {context : ParseContext} {commands : List Command}
  {consumed typed line base text s name : String} {added : List Char} {ts : List Token} {d : Cursor}
  {state : LineState} {id : CommandId} {bound : List BoundArgument} {pending : Pending}

/-- **What is typed behind a partial line** goes on with the state that the partial line is left
in. -/
theorem parsePartial_typed (ho : p.Ordinary) (hl : context.localizer = none)
    (h : Token.StaysTo p.config.tokenRules (.start consumed) ts d) (hd : dropBlanks d.rest = [])
    (hline : line.toList = consumed.toList ++ added) (hu : Unclosing added)
    (hb : dropBlanks added = added) (hstate : p.parsePartial context consumed = .ok state)
    {e : Tokens} (he : Tokens.ofCursor p.config.tokenRules (d.extend added) = e) (hone : e.Appended)
    (hst : e.BeginsValue → ∀ id c, p.registry.get? id = some c → ∀ a ∈ c.arguments.all, a.Steady)
    (hadm : (p.lineEnv context consumed).Admits line e state) :
    e.Yields line (fun _ => True) (p.parsePartial context line) := by
  have hstart : Cursor.start line = (Cursor.start consumed).extend added := by
    rw [Cursor.start, hline]
    rfl
  have hold : p.config.tokensOf consumed = .prepend ts (.finished d.skipBlanks.offset) := by
    rw [ParserConfig.tokensOf, Tokens.ofText, h.readTo.ofCursor,
      Tokens.ofCursor_none (Token.read?_eq_none_iff.mpr hd)]
  have hnew : p.config.tokensOf line = .prepend ts e := by
    rw [ParserConfig.tokensOf, Tokens.ofText, hstart, (h.extend hu hb).ofCursor, he]
  have hopen : (p.lineEnv context consumed).openCommand .root
      (.prepend ts (.finished d.skipBlanks.offset)) = .ok state := by
    rw [← hold]
    exact hstate
  have hdistinct : (p.lineEnv context consumed).Distinct :=
    LineEnv.distinct_of_wellFormed ho.wellFormed hl
  have hsteady : e.BeginsValue → ∀ id c, p.registry.get? id = some c →
      ((p.lineEnv context consumed).bindEnv .partialLine id c).Offers Argument.Steady := by
    intro hv id c hget q a ha
    obtain ⟨args, hargs, -⟩ := (ho.commands id c hget).arguments
    have hoffers : ((p.lineEnv context consumed).bindEnv .partialLine id c).Offers (· ∈ args) :=
      BindEnv.offers_static hargs
    exact hst hv id c hget a (by rw [hargs]; exact hoffers q a ha)
  have hviable := LineEnv.openCommand_onto hone hdistinct hsteady hadm .root _ rfl hopen .root
  rw [Tokens.onto_prepend, ← hnew] at hviable
  exact hviable

/-! ### The candidates -/

/-- How a candidate fits the state of a line, as the token that it makes up. -/
inductive Suits (p : CommandParser) (context : ParseContext) (consumed line : String)
    (state : LineState) (s : String) : Prop
  | opening (h : IsOpening s)
  | flag {name : String} (hs : s = longFlag name) (hn : p.config.Ordinary name)
      (h : ∀ t stop, t.kind = .named name none →
        (p.lineEnv context consumed).Admits line (.more t (.finished stop)) state)
  | word (hs : Bare s)
      (h : ∀ t stop, t.IsWord p.config.chainSeparator s →
        (p.lineEnv context consumed).Admits line (.more t (.finished stop)) state)

/-- **The candidates for a word fit the state of the line**, if they heed what they are not
chosen by. -/
theorem suits_of_candidate (ho : p.Ordinary) (hl : context.localizer = none)
    (hpending : ∀ id bound pending, state = .inCommand id bound pending →
      pending.Of (·.Ordinary p.config))
    (hh : p.Heeds commands state (.word consumed typed) s)
    (hs : s ∈ (p.candidates none state).names ∨ s ∈ (p.candidates none state).values ∨
      s ∈ (p.candidates none state).following) :
    p.Suits context consumed line state s := by
  have hadds : Bare s → TypedPlace.AddsValue s (.word consumed typed) :=
    fun h => ⟨h.not_isOpening, h.beginsWith_dashes⟩
  cases state with
  | root =>
    have hname : s ∈ p.commandNames none none := by simpa [candidates] using hs
    exact .word (ordinary_of_mem_commandNames ho hname).bare fun t stop hw =>
      .root (viable_word ho hl hname hw _ line)
  | inCommand id bound pending =>
    have hof := hpending id bound pending rfl
    -- an argument that waits for its value is offered nothing else
    by_cases hvalue : pending.isValue = true
    · cases pending with
      | none => cases hvalue
      | run a count => cases hvalue
      | value a =>
        have ha : a.Ordinary p.config := hof
        have hfresh : s ∈ a.type.freshCandidates := by simpa [candidates] using hs
        rcases fresh_cases ha.type hfresh with h | ⟨h, htakes⟩
        · exact .opening h
        · refine .word h fun t stop hw => ?_
          have hsep : s ≠ p.config.chainSeparator :=
            ((hh.waiting id bound a rfl).resolve_left h.not_isOpening).2
          obtain ⟨span, hk, -⟩ := hw.2.resolve_left fun hsepTok => hsep hsepTok.2
          exact admits_waiting hk (htakes span)
    · have hnoValue : pending.isValue = false := by simpa using hvalue
      cases hget : p.registry.get? id with
      | none => simp [candidates_of_none hnoValue hget] at hs
      | some c =>
        rw [candidates_of_some hnoValue hget] at hs
        rcases commandCandidates_cases ho hget hof hs with h | ⟨a, ha, rfl⟩ | ⟨hbare, hfits⟩
        · exact .opening h
        · have hordinary := ho.remaining hget bound a ha
          exact .flag rfl (hordinary.names _ (a.longName_mem hordinary.named))
            fun t stop hk => admits_flag ho hget ha hk hnoValue
        · refine .word hbare fun t stop hw => ?_
          cases pending with
          | value a => cases hnoValue
          | none => exact admits_word ho hl hget hbare.not_isOpening hw (hfits rfl)
          | run a count =>
            obtain ⟨type, hn, htakes⟩ := hh.run id bound a count rfl (hadds hbare)
            exact admits_run hw hn htakes

/-! ### The line with a candidate -/

section Typed

variable (ho : p.Ordinary) (hl : context.localizer = none)
  (h : Token.StaysTo p.config.tokenRules (.start consumed) ts d) (hd : dropBlanks d.rest = [])
  (hstate : p.parsePartial context consumed = .ok state)

include ho hl h hd hstate

/-- A token that fits the state of the line is accepted. -/
theorem accepts_token (hline : (base ++ s).toList = consumed.toList ++ added)
    (hu : Unclosing added) (hb : dropBlanks added = added) {t : Token} {stop : Nat}
    (he : Tokens.ofCursor p.config.tokenRules (d.extend added) = .more t (.finished stop))
    (hshort : t.shortFlags? = none)
    (hst : t.isValue = true →
      ∀ id c, p.registry.get? id = some c → ∀ a ∈ c.arguments.all, a.Steady)
    (hadm : (p.lineEnv context consumed).Admits (base ++ s) (.more t (.finished stop)) state) :
    p.Accepts context base s := by
  have hsteady : (Tokens.more t (.finished stop)).BeginsValue →
      ∀ id c, p.registry.get? id = some c → ∀ a ∈ c.arguments.all, a.Steady := by
    rintro ⟨u, us, hu, hv⟩
    cases hu
    exact hst hv
  have hyields := parsePartial_typed ho hl h hd hline hu hb hstate he (.token hshort) hsteady hadm
  generalize hr : p.parsePartial context (base ++ s) = r at hyields
  cases hyields with
  | @ok after _ => exact .inl ⟨after, hr⟩
  | broken hbroken => cases hbroken

/-- A bracket breaks the line off behind it, if a literal may be that deep. -/
theorem accepts_bracket (hline : (base ++ s).toList = consumed.toList ++ added)
    (hu : Unclosing added) (hb : dropBlanks added = added) (hs : IsOpening s)
    (he : Token.BreaksAt (d.offset + byteLength (d.rest ++ added))
      (Tokens.ofCursor p.config.tokenRules (d.extend added))) : p.Accepts context base s := by
  obtain ⟨start, f, expected, he, hk, hp⟩ := he
  have hlength : f.position = textLength (base ++ s) := by
    have hend := h.readTo.reaches.end_eq
    rw [hp, textLength, hline, byteLength_append, byteLength_append, ← Nat.add_assoc, hend,
      Cursor.start, Nat.zero_add]
  have hsteady : (Tokens.broken start f).BeginsValue →
      ∀ id c, p.registry.get? id = some c → ∀ a ∈ c.arguments.all, a.Steady := by
    rintro ⟨u, us, hu, -⟩
    cases hu
  have hyields := parsePartial_typed ho hl h hd hline hu hb hstate he .broken hsteady
    (LineEnv.admits_broken _ _ start f state)
  generalize hr : p.parsePartial context (base ++ s) = r at hyields
  cases hyields with
  | @ok after _ => exact .inl ⟨after, hr⟩
  | broken hbroken =>
    obtain ⟨rfl, rfl⟩ := Tokens.broken.inj hbroken
    refine .inr ⟨hs, _, expected, hr, ?_⟩
    rw [ParseFail.ofLiteral, hk, hlength]

/-- What fits the state of a line is accepted as a word. -/
theorem accepts_word (hline : (base ++ s).toList = consumed.toList ++ s.toList)
    (hsuits : p.Suits context consumed (base ++ s) state s)
    (hst : Bare s → ∀ id c, p.registry.get? id = some c → ∀ a ∈ c.arguments.all, a.Steady)
    (hdepth : IsOpening s → 0 < p.config.maxDepth) : p.Accepts context base s := by
  cases hsuits with
  | opening hs =>
    exact accepts_bracket ho hl h hd hstate hline hs.unclosing hs.dropBlanks_eq hs
      (Token.ofCursor_bracket hs (hdepth hs) hd)
  | @flag name hs hn hadm =>
    subst hs
    obtain ⟨t, stop, he, hk⟩ := Token.ofCursor_flag hn.bare.word hn.bare.equals hd
    have hdrop : dropBlanks (longFlag name).toList = (longFlag name).toList := by
      rw [longFlag, Piece.toList_dashes]
      exact dropBlanks_cons (by decide) _
    exact accepts_token ho hl h hd hstate hline hn.bare.unclosing_flag hdrop he
      (Token.shortFlags?_of_named hk) (fun hv => by rw [Token.isValue_of_named hk] at hv; cases hv)
      (hadm t stop hk)
  | word hs hadm =>
    obtain ⟨t, stop, he, hw⟩ := Token.ofCursor_word hs hd
    exact accepts_token ho hl h hd hstate hline hs.unclosing hs.dropBlanks_eq he hw.1
      (fun _ => hst hs) (hadm t stop hw)

/-- A way to begin a value of an argument is accepted when it is assigned to the argument. -/
theorem accepts_assigned {a : Argument} (hs : state = .inCommand id bound pending)
    (ha : p.namedArgument? none id bound name = some a)
    (hassign : p.config.tokenRules.assignSyntax = true) (hfresh : s ∈ a.type.freshCandidates)
    (hline : (base ++ s).toList = consumed.toList ++ Token.assignment name s.toList)
    (hpending : IsOpening s ∨ pending.isValue = false)
    (hdepth : IsOpening s → 0 < p.config.maxDepth) : p.Accepts context base s := by
  obtain ⟨c, hget, hfind⟩ := Option.bind_eq_some_iff.mp ha
  have hordinary : a.Ordinary p.config := ho.remaining hget bound a (List.mem_of_find?_eq_some hfind)
  have hname : Bare name := by
    have hcontains := List.find?_some hfind
    exact (hordinary.names name
      (by simpa [Registry.argumentNames, Localizer.namesFor] using hcontains)).bare
  have hdrop := Token.dropBlanks_assignment name s.toList
  rcases fresh_cases hordinary.type hfresh with hopen | ⟨hbare, htakes⟩
  · exact accepts_bracket ho hl h hd hstate hline
      (Token.unclosing_assignment hname hopen.unclosing) hdrop hopen
      (Token.ofCursor_assignedBracket hname.word hname.equals hassign hopen (hdepth hopen) hd)
  · obtain ⟨t, stop, span, he, hk⟩ :=
      Token.ofCursor_assigned hname.word hname.equals hassign hbare hd
    subst hs
    exact accepts_token ho hl h hd hstate hline
      (Token.unclosing_assignment hname hbare.unclosing) hdrop he (Token.shortFlags?_of_named hk)
      (fun hv => by rw [Token.isValue_of_named hk] at hv; cases hv)
      (admits_assigned hl ha hk (htakes span) (hpending.resolve_left hbare.not_isOpening))

end Typed

/-- **Suggestions can be accepted.** With plain declarations, in a word or in an assigned value,
a suggestion that heeds what the candidates are not chosen by can stand in place of what has been
typed: the line leaves the parser open again, or it breaks off behind the bracket. -/
theorem completeLine_viable {place : TypedPlace}
    (hreg : Registry.empty.registerAll commands = .ok p.registry)
    (hplain : ∀ c ∈ commands, c.Ordinary p.config) (hl : context.localizer = none)
    (hs : '\\' ∉ text.toList) (hplace : TypedPlace.locate? p.config text = some place)
    (hliteral : ¬place.InLiteral) (hbase : text = base ++ place.typed)
    (hmem : s ∈ p.completeLine context text) (hspace : s ≠ " ")
    (hstate : p.parsePartial context place.consumed = .ok state)
    (hheeds : p.Heeds commands state place s) : p.Accepts context base s := by
  have ho : p.Ordinary := ordinary_of_registerAll hreg hplain
  have hpending : ∀ id bound pending, state = .inCommand id bound pending →
      pending.Of (·.Ordinary p.config) := by
    rintro id bound pending rfl
    refine LineEnv.openCommand_pending (fun i c hget q a ha => ?_) .root _ rfl hstate
    exact ho.remaining hget q.bound a ha
  have hsteady : place.AddsValue s →
      ∀ id c, p.registry.get? id = some c → ∀ a ∈ c.arguments.all, a.Steady := by
    intro hadds id c hget
    rw [Registry.get?_registerAll hreg] at hget
    exact hheeds.steady hadds c (List.mem_of_getElem? hget)
  have hat : s ∈ p.completeAt context text place := by
    rw [completeLine, hplace] at hmem
    exact mem_of_withoutRepeatsFrom hmem
  rcases TypedPlace.stands_of_locate? hs hplace with ⟨c, t, f, rfl⟩ | hstands
  · exact absurd trivial hliteral
  · have htext := congrArg String.toList hbase
    rw [String.toList_append] at htext
    cases hstands with
    | @word consumed typed ts d hsplit h hd =>
      have hbaseList : base.toList = consumed.toList :=
        List.append_cancel_right (htext.symm.trans hsplit)
      have hline : (base ++ s).toList = consumed.toList ++ s.toList := by
        rw [String.toList_append, hbaseList]
      simp only [completeAt, TypedPlace.consumed] at hat hstate
      rw [hstate, hl] at hat
      have hsuits : p.Suits context consumed (base ++ s) state s :=
        suits_of_candidate ho hl hpending hheeds (Candidates.mem_of_select hat hspace)
      exact accepts_word ho hl h hd hstate hline hsuits
        (fun hbare => hsteady ⟨hbare.not_isOpening, hbare.beginsWith_dashes⟩) hheeds.depth
    | @assignment consumed name typed ts d hsplit hassign h hd =>
      have hbaseList : base.toList = consumed.toList ++ Token.assignment name [] := by
        have htyped : base.toList ++ typed.toList =
            consumed.toList ++ Token.assignment name [] ++ typed.toList := by
          refine htext.symm.trans ?_
          rw [hsplit]
          simp [Token.assignment]
        exact List.append_cancel_right htyped
      have hline : (base ++ s).toList = consumed.toList ++ Token.assignment name s.toList := by
        rw [String.toList_append, hbaseList]
        simp [Token.assignment]
      simp only [completeAt, TypedPlace.consumed] at hat hstate
      rw [hstate, hl] at hat
      cases state with
      | root => cases hat
      | inCommand id bound pending =>
        dsimp only [completeAssignment] at hat
        cases ha : p.namedArgument? none id bound name with
        | none => simp [ha] at hat
        | some a =>
          rw [ha] at hat
          have hfresh : s ∈ a.type.freshCandidates := (List.mem_filter.mp hat).1
          refine accepts_assigned ho hl h hd hstate rfl ha hassign hfresh hline ?_ hheeds.depth
          cases pending with
          | none => exact .inr rfl
          | run b count => exact .inr rfl
          | value b => exact .inl ((hheeds.waiting id bound b rfl).resolve_right fun h => h.1.elim)

end CommandParser

/-! ### A command with a run behind an optional argument -/

deriving instance DecidableEq for TypedPlace

/-- A command with an optional colour in front of a run of integers. -/
def Demo.mark : Command :=
  { Command.new "cmd" with
    arguments := .static
      [{ Argument.new "a" (.enumeration "Color" ["red"]) with isOptional := true },
        Demo.vararg "b" .int] }

def Demo.markParser : CommandParser :=
  ⟨(Registry.empty.registerAll [mark]).toOption.getD .empty, default⟩

theorem Demo.registerAll_markParser : Registry.empty.registerAll [mark] = .ok markParser.registry :=
  Registry.registerAll_toOption (by decide +kernel)

theorem Demo.ordinary_mark : ∀ c ∈ [mark], c.Ordinary markParser.config := by
  intro c hc
  obtain rfl : c = mark := List.mem_singleton.mp hc
  refine ⟨by decide, _, rfl, fun a ha => ?_⟩
  rcases List.mem_pair.mp ha with rfl | rfl
  · refine ⟨by decide, by decide, ?_⟩
    show ∀ m ∈ ["red"], markParser.config.Ordinary m
    decide
  · exact ⟨by decide, by decide, trivial⟩

theorem Demo.steady_mark : ∀ c ∈ [mark], ∀ a ∈ c.arguments.all, a.Steady := by
  intro c hc a ha
  obtain rfl : c = mark := List.mem_singleton.mp hc
  intro _ hmultiple
  rcases List.mem_pair.mp ha with rfl | rfl
  · cases hmultiple
  · cases hmultiple

/-- A command is open, and nothing is pending in it. -/
def LineState.isIdle : LineState → Bool
  | .inCommand _ _ .none => true
  | _ => false

theorem LineState.isIdle_iff {state : LineState} :
    state.isIdle = true ↔ ∃ id bound, state = .inCommand id bound .none := by
  cases state with
  | root => simp [isIdle]
  | inCommand id bound pending => cases pending <;> simp [isIdle]

/-- Behind its name the command is open, and nothing is open in it. -/
theorem Demo.parsePartial_mark : ∃ id bound,
    markParser.parsePartial .empty "cmd " = .ok (.inCommand id bound .none) := by
  have h : (markParser.parsePartial .empty "cmd ").toOption.map (·.isIdle) = some true := by
    decide +kernel
  cases hstate : markParser.parsePartial .empty "cmd " with
  | error f => rw [hstate] at h; cases h
  | ok state =>
    rw [hstate] at h
    obtain ⟨id, bound, rfl⟩ := LineState.isIdle_iff.mp (Option.some.inj h)
    exact ⟨id, bound, rfl⟩

/-- A colour is accepted as a word and as an assigned value. -/
theorem CommandParser.completeLine_viable_red :
    ("red" ∈ Demo.markParser.completeLine .empty "cmd r" ∧
      Demo.markParser.Accepts .empty "cmd " "red") ∧
    "red" ∈ Demo.markParser.completeLine .empty "cmd --a=r" ∧
      Demo.markParser.Accepts .empty "cmd --a=" "red" := by
  obtain ⟨id, bound, hstate⟩ := Demo.parsePartial_mark
  have hheeds : ∀ place, Demo.markParser.Heeds [Demo.mark] (.inCommand id bound .none) place "red" := by
    intro place
    refine ⟨fun _ _ _ _ hrun => ?_, fun _ _ _ hwaiting => ?_, fun _ => Demo.steady_mark,
      fun _ => by decide⟩
    · cases hrun
    · cases hwaiting
  have hword : TypedPlace.locate? Demo.markParser.config "cmd r" = some (.word "cmd " "r") := by
    decide +kernel
  have hassigned : TypedPlace.locate? Demo.markParser.config "cmd --a=r" =
      some (.assignment "cmd " "a" "r") := by
    decide +kernel
  have hred : "red" ∈ Demo.markParser.completeLine .empty "cmd r" := by decide +kernel
  have hred' : "red" ∈ Demo.markParser.completeLine .empty "cmd --a=r" := by decide +kernel
  refine ⟨⟨hred, ?_⟩, hred', ?_⟩
  · exact completeLine_viable Demo.registerAll_markParser Demo.ordinary_mark rfl (by decide) hword
      not_false rfl hred (by decide) hstate (hheeds _)
  · exact completeLine_viable Demo.registerAll_markParser Demo.ordinary_mark rfl (by decide)
      hassigned not_false rfl hred' (by decide) hstate (hheeds _)

/-- Behind a value of the run the colour is suggested again. But the run takes the next value. -/
theorem CommandParser.completeLine_not_viable :
    ¬∀ (p : CommandParser) (commands : List Command) (context : ParseContext)
        (base text s : String) (place : TypedPlace),
      Registry.empty.registerAll commands = .ok p.registry →
      (∀ c ∈ commands, c.Ordinary p.config) → context.localizer = none → '\\' ∉ text.toList →
      TypedPlace.locate? p.config text = some place → ¬place.InLiteral →
      text = base ++ place.typed → s ∈ p.completeLine context text → s ≠ " " →
        p.Accepts context base s := by
  intro h
  have hword : TypedPlace.locate? Demo.markParser.config "cmd 1 " = some (.word "cmd 1 " "") := by
    decide +kernel
  have hfails : (Demo.markParser.parsePartial .empty "cmd 1 red").toBool = false := by
    decide +kernel
  have haccepts : Demo.markParser.Accepts .empty "cmd 1 " "red" :=
    h Demo.markParser [Demo.mark] .empty "cmd 1 " "cmd 1 " "red" _ Demo.registerAll_markParser
      Demo.ordinary_mark rfl (by decide) hword not_false (by decide) (by decide +kernel) (by decide)
  rcases haccepts with ⟨after, hafter⟩ | ⟨hopening, -⟩
  · have hline : "cmd 1 " ++ "red" = "cmd 1 red" := by decide
    rw [hline] at hafter
    rw [hafter] at hfails
    cases hfails
  · exact (show Bare "red" by decide).not_isOpening hopening

end CommandConsole
