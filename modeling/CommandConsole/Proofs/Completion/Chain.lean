/-
# Suggestions behind a line that fails

The text in front of what is being typed begins with every whole line that a
separator ends. If such a line fails for what stands in it, nothing is
suggested behind it. A line that only lacks an argument or a requirement is not
noticed: behind its separator the suggestions are those of an empty line.

Key definition: `TypedPlace.before`.
Key theorems: `TypedPlace.exists_tokens_before`, `CommandParser.completeLine_behind_failure`,
`CommandParser.completeLine_behind_lack`.
-/
import CommandConsole.Completion.Suggest
import CommandConsole.Proofs.Completion.Place
import CommandConsole.Proofs.Line.Behind

namespace CommandConsole

/-! ### The text in front of what is typed -/

namespace TypedPlace

variable {config : ParserConfig} {text : String} {place : TypedPlace} {ts : List Token}
  {rest : Tokens}

/-- The text in front of what is being typed. -/
def before : TypedPlace → String
  | .word consumed _ | .assignment consumed _ _ | .literal consumed _ _ => consumed

theorem before_ofLast (text : String) (t : Token) :
    (ofLast text t).before = textBefore text t.span.start := by
  unfold ofLast
  dsimp only
  split <;> rfl

theorem locateFrom?_prepend : ∀ (us : List Token) (last : Option Token),
    locateFrom? text last (.prepend us rest) = locateFrom? text (us.getLast?.or last) rest
  | [], _ => rfl
  | u :: us, last => by
    rw [Tokens.prepend_cons, locateFrom?, locateFrom?_prepend us]
    cases us with
    | nil => rfl
    | cons v vs => rw [List.getLast?_cons_cons, List.getLast?_cons, Option.some_or, Option.some_or]

theorem locateFrom?_endsBlank (hb : endsBlank text = true) (last : Option Token) (stop : Nat) :
    locateFrom? text last (.finished stop) = some (.word text "") := by
  cases last with
  | none => rfl
  | some t => rw [locateFrom?, if_pos hb]

/-- In front of a literal that cannot be read are the tokens before it. -/
theorem tokens_before_broken {start : Nat} {f : LiteralFailure}
    (hts : config.tokensOf text = .prepend ts (.broken start f))
    (h : locate? config text = some place) :
    ∃ stop, config.tokensOf place.before = .prepend ts (.finished stop) := by
  obtain ⟨e, hread, hend⟩ := Token.ReadTo.exists_of_ofCursor hts
  obtain ⟨-, rfl⟩ := Token.read?_of_broken hend
  obtain ⟨blanks, hblanks, hrest, hoffset⟩ := e.exists_blanks
  rw [locate?, hts, locateFrom?_prepend, locateFrom?] at h
  split at h
  · cases h
    exact ⟨_, hread.ofText_textBefore hblanks hrest hoffset⟩
  · cases h

/-- In front of a last token that the text ends with are the tokens before it. -/
theorem tokens_before_last {stop : Nat} {t : Token}
    (hts : config.tokensOf text = .prepend (ts ++ [t]) (.finished stop)) :
    ∃ stop, config.tokensOf (ofLast text t).before = .prepend ts (.finished stop) := by
  obtain ⟨d, hread, -⟩ := Token.ReadTo.exists_of_ofCursor hts
  obtain ⟨e, hread, hlast⟩ := hread.snoc
  rw [before_ofLast]
  exact ⟨_, (hread.cuts hlast).1⟩

/-- **The text in front of what is typed begins with all tokens that something stands behind**, a
blank at least. -/
theorem exists_tokens_before (hts : config.tokensOf text = .prepend ts rest)
    (hblank : rest.isFinished = true → endsBlank text = true)
    (h : locate? config text = some place) :
    ∃ us stop, config.tokensOf place.before = .prepend ts (.prepend us (.finished stop)) := by
  cases hf : rest.failure? with
  | some f =>
    obtain ⟨us, start, rfl⟩ := Tokens.exists_of_failure? hf
    rw [← Tokens.prepend_append] at hts
    obtain ⟨stop, hbefore⟩ := tokens_before_broken hts h
    exact ⟨us, stop, by rw [hbefore, Tokens.prepend_append]⟩
  | none =>
    obtain ⟨us, stop, rfl⟩ := Tokens.exists_of_finished hf
    have hplace := h
    rw [locate?, hts, locateFrom?_prepend, locateFrom?_prepend] at hplace
    by_cases hb : endsBlank text = true
    · rw [locateFrom?_endsBlank hb] at hplace
      cases hplace
      exact ⟨us, stop, hts⟩
    · obtain rfl | ⟨vs, t, rfl⟩ := List.eq_nil_or_concat us
      · exact absurd (hblank rfl) hb
      · rw [List.concat_eq_append] at hts hplace
        rw [List.getLast?_concat, Option.some_or, locateFrom?, if_neg hb] at hplace
        cases hplace
        rw [← Tokens.prepend_append, ← List.append_assoc] at hts
        obtain ⟨stop', hbefore⟩ := tokens_before_last hts
        exact ⟨vs, stop', by rw [hbefore, Tokens.prepend_append]⟩

end TypedPlace

/-! ### Chains -/

namespace ParserConfig

variable {config : ParserConfig} {a b : String}

theorem tokensOf_eq_finished {text : String} {stop : Nat}
    (h : config.tokensOf text = .finished stop) : dropBlanks text.toList = [] := by
  have hts : config.tokensOf text = .prepend [] (.finished stop) := h
  obtain ⟨d, hread, hblank⟩ := TypedPlace.readTo_of_tokensOf hts
  cases hread
  exact hblank

/-- Behind a separator with nothing but blanks behind it a chain ends with a blank. -/
theorem endsBlank_chain {n : Nat} (h : ((config.tokensOf b).shift n).isFinished = true) :
    endsBlank (config.chain a b) = true := by
  have hb : dropBlanks b.toList = [] := by
    cases hts : config.tokensOf b with
    | finished stop => exact tokensOf_eq_finished hts
    | broken start f => rw [hts] at h; cases h
    | more t rest => rw [hts] at h; cases h
  rw [endsBlank, chain, chainHead, String.toList_append]
  by_cases hnil : b.toList = []
  · rw [hnil, List.append_nil, String.toList_append, List.getLast?_append_of_ne_nil _ (by decide)]
    decide
  · obtain ⟨ch, hch⟩ := Option.isSome_iff_exists.mp (List.getLast?_isSome.mpr hnil)
    rw [List.getLast?_append_of_ne_nil _ hnil, hch]
    exact allBlank_of_dropBlanks hb ch (List.mem_of_getLast? hch)

end ParserConfig

namespace CommandParser

variable {p : CommandParser} {context : ParseContext} {a b : String} {f : ParseFail}

/-- Nothing is suggested behind a text that fails as a partial line. -/
theorem completeAt_of_error {text : String} {place : TypedPlace} {g : ParseFail}
    (h : p.parsePartial context place.before = .error g) : p.completeAt context text place = [] := by
  cases place <;> simp only [TypedPlace.before] at h <;> simp only [completeAt, h]

/-- **Nothing is suggested behind a line that fails**, unless all that can be said of it is that
commands of it lack an argument or a requirement. -/
theorem completeLine_behind_failure (h : p.config.ReadsChain a b)
    (hf : p.parse context a = .error f)
    (hlacks : f.LacksArgument ∨ f.LacksRequirement →
      (p.lineEnv context a).Fails (p.config.tokensOf a)) :
    p.completeLine context (p.config.chain a b) = [] := by
  have hfails : (p.lineEnv context a).Fails (p.config.tokensOf a) := by
    by_cases hlack : f.LacksArgument ∨ f.LacksRequirement
    · exact hlacks hlack
    · obtain ⟨ha, hr⟩ := not_or.mp hlack
      exact LineEnv.fails_of_parseCommands _ hf ha hr
  obtain ⟨ts, stop, s, ha, hs, hline⟩ := h
  unfold completeLine
  cases hplace : TypedPlace.locate? p.config (p.config.chain a b) with
  | none => rfl
  | some place =>
    have hsplit : p.config.tokensOf (p.config.chain a b) = .prepend (ts ++ [s])
        ((p.config.tokensOf b).shift (textLength (p.config.chainHead a))) := by
      rw [hline, Tokens.prepend_append]
      rfl
    obtain ⟨us, n, hbefore⟩ :=
      TypedPlace.exists_tokens_before hsplit ParserConfig.endsBlank_chain hplace
    rw [Tokens.prepend_append] at hbefore
    have hbehind := LineEnv.openCommand_behind (p.lineEnv context a)
      (fun id c _ => ((p.lineEnv context a).bindEnv .complete id c).heeds_exact) place.before
      (Token.kind_of_isSeparator hs) .root _ (.prepend .exact 0 (.more s (.prepend us (.finished n))) stop ts)
    rw [← ha] at hbehind
    obtain ⟨-, g, hg⟩ | ⟨hnot, -⟩ := hbehind
    · have herror : p.parsePartial context place.before = .error g := by
        rw [parsePartial, hbefore]
        exact hg
      dsimp only
      rw [completeAt_of_error herror]
      rfl
    · exact absurd hfails hnot

theorem completeLine_root {text : String}
    (hplace : TypedPlace.locate? p.config text = some (.word text ""))
    (hstate : p.parsePartial context text = .ok .root) :
    p.completeLine context text =
      withoutRepeats ((p.candidates context.localizer .root).select p.config.spaceContinuation "") := by
  rw [completeLine, hplace]
  dsimp only
  rw [completeAt, hstate]

/-- **Behind a line that does not fail for what stands in it** the suggestions are those of an empty
line, whatever its commands lack. -/
theorem completeLine_behind_lack (h : p.config.ReadsChain a "")
    (hnot : ¬(p.lineEnv context a).Fails (p.config.tokensOf a)) :
    p.completeLine context (p.config.chain a "") = p.completeLine context "" := by
  obtain ⟨ts, stop, s, ha, hs, hline⟩ := h
  obtain ⟨n, hempty⟩ : ∃ n, p.config.tokensOf "" = .finished n :=
    ⟨_, Tokens.ofCursor_none (Token.read?_eq_none_iff.mpr rfl)⟩
  have hblank : endsBlank (p.config.chain a "") = true :=
    ParserConfig.endsBlank_chain (n := 0) (by rw [hempty]; rfl)
  rw [hempty, Tokens.shift] at hline
  have hchain : p.completeLine context (p.config.chain a "") =
      withoutRepeats ((p.candidates context.localizer .root).select p.config.spaceContinuation "") := by
    refine completeLine_root ?_ ?_
    · rw [TypedPlace.locate?, hline, TypedPlace.locateFrom?_prepend, TypedPlace.locateFrom?,
        TypedPlace.locateFrom?_endsBlank hblank]
    · have hbehind := LineEnv.openCommand_behind (p.lineEnv context a)
        (fun id c _ => ((p.lineEnv context a).bindEnv .complete id c).heeds_exact)
        (p.config.chain a "") (Token.kind_of_isSeparator hs) .root _
        (.prepend .exact 0 (.more s (.finished (n + textLength (p.config.chainHead a)))) stop ts)
      rw [← ha, ← hline] at hbehind
      obtain ⟨hfails, -⟩ | ⟨-, hgoes⟩ := hbehind
      · exact absurd hfails hnot
      · exact hgoes.trans (by rw [LineEnv.openCommand])
  have hnothing : p.completeLine context "" =
      withoutRepeats ((p.candidates context.localizer .root).select p.config.spaceContinuation "") := by
    refine completeLine_root ?_ ?_
    · rw [TypedPlace.locate?, hempty]
      rfl
    · rw [parsePartial, hempty, LineEnv.openCommand]
  rw [hchain, hnothing]

end CommandParser

/-- A command that cannot do without its argument. -/
def Demo.get : Command := Demo.command "fetch" "Fetch a URL" [.new "url" .string]

/-- A command that lacks its argument, and one behind it that does not exist. -/
theorem CommandParser.completeLine_behind_failure_nope :
    (∃ f, (Demo.parserOf Demo.get).parse .empty "fetch & nope" = .error f ∧ f.LacksArgument) ∧
      (Demo.parserOf Demo.get).completeLine .empty "fetch & nope & fe" = [] := by
  let env := (Demo.parserOf Demo.get).lineEnv .empty "fetch & nope"
  let nope : Tokens := .more ⟨.value (.scalar "nope" ⟨8, 12⟩), ⟨8, 12⟩, "nope"⟩ (.finished 12)
  let fetch : Token := ⟨.value (.scalar "fetch" ⟨0, 5⟩), ⟨0, 5⟩, "fetch"⟩
  let separator : Token := ⟨.separator, ⟨6, 7⟩, "&"⟩
  have hline : (Demo.parserOf Demo.get).config.tokensOf "fetch & nope" =
      .more fetch (.more separator nope) := by
    decide +kernel
  have hreads : (Demo.parserOf Demo.get).config.ReadsChain "fetch & nope" "fe" := by
    refine ⟨[fetch, separator, ⟨.value (.scalar "nope" ⟨8, 12⟩), ⟨8, 12⟩, "nope"⟩], 12,
      ⟨.separator, ⟨13, 14⟩, "&"⟩, ?_, rfl, ?_⟩
    all_goals decide +kernel
  have hlacks : (failureOf? ((Demo.parserOf Demo.get).parse .empty "fetch & nope")).map (·.kind) =
      some (.missingRequiredArgument "fetch" "url") := by
    decide +kernel
  have hfetch : (env.takeCommand fetch (.more separator nope)).toOption.map
      (fun x => x.2.2.cursor.tokens) = some nope := by
    decide +kernel
  have hnope : ∃ g, env.takeCommand ⟨.value (.scalar "nope" ⟨8, 12⟩), ⟨8, 12⟩, "nope"⟩
      (.finished 12) = .error g :=
    Except.exists_of_not_toBool (by decide +kernel)
  have hfails : env.Fails (.more fetch (.more separator nope)) := by
    obtain ⟨g, hg⟩ := hnope
    cases htake : env.takeCommand fetch (.more separator nope) with
    | error f => rw [htake] at hfetch; cases hfetch
    | ok x =>
      rw [htake] at hfetch
      have hcursor : x.2.2.cursor.tokens = nope := Option.some.inj hfetch
      exact .behind rfl htake (hcursor ▸ .command rfl hg)
  have hchain : (Demo.parserOf Demo.get).config.chain "fetch & nope" "fe" = "fetch & nope & fe" := by
    decide +kernel
  obtain ⟨f, hf, hk⟩ := Option.map_eq_some_iff.mp hlacks
  have hparse := failureOf?_eq_some hf
  refine ⟨⟨f, hparse, _, _, hk⟩, ?_⟩
  rw [← hchain]
  exact completeLine_behind_failure hreads hparse fun _ => hline ▸ hfails

/-- Behind a command that lacks its argument, and only that, the next one is suggested. -/
theorem CommandParser.completeLine_not_behind_lack :
    (∀ e ∈ (Demo.parserOf Demo.get).registry.entries, ∃ args,
      e.command.arguments = .static args) ∧
    (Demo.parserOf Demo.get).config.ReadsChain "fetch" "" ∧
    (∃ f, (Demo.parserOf Demo.get).parse .empty "fetch" = .error f ∧ f.LacksArgument) ∧
    (Demo.parserOf Demo.get).config.chain "fetch" "" = "fetch & " ∧
    (Demo.parserOf Demo.get).completeLine .empty "fetch & " = ["fetch"] := by
  have hlacks : (failureOf? ((Demo.parserOf Demo.get).parse .empty "fetch")).map (·.kind) =
      some (.missingRequiredArgument "fetch" "url") := by
    decide +kernel
  refine ⟨fun e he => ?_, ?_, ?_, by decide +kernel, by decide +kernel⟩
  · rw [Demo.arguments_parserOf (by decide +kernel) e he]
    exact ⟨_, rfl⟩
  · refine ⟨[⟨.value (.scalar "fetch" ⟨0, 5⟩), ⟨0, 5⟩, "fetch"⟩], 5, ⟨.separator, ⟨6, 7⟩, "&"⟩, ?_,
      rfl, ?_⟩
    all_goals decide +kernel
  · obtain ⟨f, hf, hk⟩ := Option.map_eq_some_iff.mp hlacks
    exact ⟨f, failureOf?_eq_some hf, _, _, hk⟩

end CommandConsole
