/-
# A line that is being typed

A line that parses is typed token by token. The text in front of each of its
tokens is parsed as a partial line: it does not fail, so that there is something
to complete all the way.

Key theorems: `LineEnv.bindCommand_cut`, `LineEnv.openCommand_cut`,
`CommandParser.parsePartial_before_token`.
-/
import CommandConsole.Proofs.Binding.Truncation
import CommandConsole.Proofs.Completion.Place
import CommandConsole.Proofs.Line.PartialLine
import CommandConsole.Proofs.Line.Resumption

namespace CommandConsole

/-- A token that names a command names one that is registered. -/
theorem LineEnv.exists_of_childMatch {env : LineEnv} {parent : Option CommandId} {t : Token}
    {id : CommandId} (h : env.childMatch parent t = .one id) :
    ∃ c, env.registry.get? id = some c := by
  unfold childMatch at h
  split at h
  · cases h
  · rename_i word _
    unfold Registry.matchChild at h
    split at h
    · cases h
    · rename_i child hm
      cases h
      have hmem : id ∈ env.registry.matching env.context.localizer parent word := by simp [hm]
      obtain ⟨e, he, -⟩ := Registry.mem_childrenOf.mp (List.mem_filter.mp hmem).1
      exact ⟨e.command, by rw [Registry.get?, he]; rfl⟩
    · cases h

namespace LineEnv

variable {env : LineEnv} {t : Token} {rest e : Tokens}

/-- A name that is cut off names one of the commands on the way. -/
theorem descend_cut (text : String) {r : Resolved} : ∀ {id : CommandId} {span : Span} {ts : Tokens},
    (∃ c, env.registry.get? id = some c) → env.descend id span (ts.onto e) = .ok r →
      ∃ r', (env.inText text).descend id span ts = .ok r' ∧
        (r = { r' with cursor := r'.cursor.onto e } ∨
          r'.cursor.tokens.isFinished = true ∧ ∃ c, env.registry.get? r'.id = some c)
  | id, span, .finished stop, hc, _ => ⟨_, rfl, .inr ⟨rfl, hc⟩⟩
  | id, span, .broken start f, _, h => by
    cases h
    exact ⟨_, rfl, .inl rfl⟩
  | id, span, .more t rest, _, h => by
    have hmatch : (env.inText text).childMatch (some id) t = env.childMatch (some id) t := rfl
    rw [Tokens.onto, descend] at h
    rw [descend, hmatch]
    cases hm : env.childMatch (some id) t with
    | none =>
      rw [hm] at h
      cases h
      exact ⟨_, rfl, .inl rfl⟩
    | one child =>
      rw [hm] at h
      exact descend_cut text (exists_of_childMatch hm) h
    | many ids =>
      rw [hm] at h
      cases h

theorem resolve_cut (text : String) {r : Resolved} (h : env.resolve t (rest.onto e) = .ok r) :
    ∃ r', (env.inText text).resolve t rest = .ok r' ∧
      (r = { r' with cursor := r'.cursor.onto e } ∨
        r'.cursor.tokens.isFinished = true ∧ ∃ c, env.registry.get? r'.id = some c) := by
  have hmatch : (env.inText text).childMatch none t = env.childMatch none t := rfl
  unfold resolve at h ⊢
  rw [hmatch]
  cases hm : env.childMatch none t with
  | none => rw [hm] at h; cases h
  | one id =>
    rw [hm] at h
    exact descend_cut text (exists_of_childMatch hm) h
  | many ids => rw [hm] at h; cases h

/-- **A command is parsed where the line is cut off as it is in the whole line**, if it ends before
the cut, and up to the cut otherwise. -/
theorem bindCommand_cut (text : String)
    (hg : ∀ id c, env.registry.get? id = some c →
      (env.bindEnv .partialLine id c).Offers Argument.Gradual)
    {x : Resolved × Command × BindEnv.Binding}
    (h : env.bindCommand .partialLine t (rest.onto e) = .ok x) :
    ∃ y, (env.inText text).bindCommand .partialLine t rest = .ok y ∧
      (x.2.2.cursor = y.2.2.cursor.onto e ∨ y.2.2.cursor.tokens.isFinished = true) := by
  obtain ⟨r, c, b⟩ := x
  obtain ⟨hres, hget, hbind⟩ := bindCommand_eq_ok h
  obtain ⟨r', hres', hr'⟩ := resolve_cut text hres
  unfold bindCommand
  rw [hres']
  dsimp only
  rcases hr' with rfl | ⟨hf, c', hc'⟩
  · have hget' : (env.inText text).registry.get? r'.id = some c := hget
    rw [hget']
    dsimp only
    rw [BindEnv.bind_partialLine rfl] at hbind ⊢
    obtain ⟨b', hb', hcut⟩ := BindEnv.bindTokens_cut text rfl (hg r'.id c hget) _ r'.cursor hbind
    have hb'' : ((env.inText text).bindEnv .partialLine r'.id c).bindTokens
        (.start r'.cursor.position) r'.cursor = .ok b' := hb'
    rw [hb'']
    exact ⟨_, rfl, hcut⟩
  · have hget' : (env.inText text).registry.get? r'.id = some c' := hc'
    obtain ⟨stop, hstop⟩ := Tokens.exists_of_isFinished hf
    rw [hget']
    dsimp only
    rw [BindEnv.bind_partialLine rfl, BindEnv.bindTokens_finished hstop]
    exact ⟨_, rfl, .inr hf⟩

/-- **Where a line is cut off it does not fail**, if the line that goes on with `e` does not. -/
theorem openCommand_cut (text : String)
    (hg : ∀ id c, env.registry.get? id = some c →
      (env.bindEnv .partialLine id c).Offers Argument.Gradual)
    {last : LineState} (state' : LineState) (ts : Tokens) : ∀ state : LineState,
      env.openCommand state (ts.onto e) = .ok last →
        ∃ last', (env.inText text).openCommand state' ts = .ok last' := by
  fun_induction (env.inText text).openCommand state' ts with
  | case1 state' stop => exact fun _ _ => ⟨state', rfl⟩
  | case2 state' start f =>
    intro state h
    rw [Tokens.onto, openCommand] at h
    cases h
  | case3 state' t rest ht ih =>
    intro state h
    rw [Tokens.onto, openCommand_separator ht] at h
    exact ih _ h
  | case4 state' t rest ht f hf =>
    intro state h
    rw [Tokens.onto] at h
    cases hx : env.bindCommand .partialLine t (rest.onto e) with
    | error g =>
      rw [openCommand_error (by simpa using ht) hx] at h
      cases h
    | ok x =>
      obtain ⟨y, hy, -⟩ := bindCommand_cut text hg hx
      rw [hf] at hy
      cases hy
  | case5 state' t rest ht r' c' b' hb' ih =>
    intro state h
    rw [Tokens.onto] at h
    cases hx : env.bindCommand .partialLine t (rest.onto e) with
    | error g =>
      rw [openCommand_error (by simpa using ht) hx] at h
      cases h
    | ok x =>
      obtain ⟨r, c, b⟩ := x
      obtain ⟨y, hy, hcut⟩ := bindCommand_cut text hg hx
      obtain rfl : (r', c', b') = y := Except.ok.inj (hb'.symm.trans hy)
      rw [openCommand_command (by simpa using ht) hx] at h
      rcases hcut with hcut | hf
      · change b.cursor = _ at hcut
        rw [hcut] at h
        exact ih _ h
      · obtain ⟨stop, hstop⟩ := Tokens.exists_of_isFinished hf
        change b'.cursor.tokens = _ at hstop
        rw [hstop, openCommand]
        exact ⟨_, rfl⟩

end LineEnv

/-- The text in front of a token has the tokens before it. -/
theorem ParserConfig.tokensOf_textBefore {config : ParserConfig} {line : String} {t : Token}
    (h : t ∈ (config.tokensOf line).toList) : ∃ before stop rest,
      config.tokensOf line = .prepend before rest ∧
      config.tokensOf (textBefore line t.span.start) = .prepend before (.finished stop) := by
  obtain ⟨before, after, hsplit⟩ := List.append_of_mem h
  have hlist : (config.tokensOf line).toList = (before ++ [t]) ++ after := by
    rw [hsplit, List.append_assoc]
    rfl
  obtain ⟨tail, htail⟩ := Tokens.exists_of_toList hlist
  obtain ⟨d, hread, -⟩ := Token.ReadTo.exists_of_ofCursor htail
  obtain ⟨c, hread, hlast⟩ := hread.snoc
  exact ⟨before, _, _, hread.ofCursor, (hread.cuts hlast).1⟩

/-- A type that the console knows takes a run of one value as a list, if it is a list and has not
several places. -/
theorem Argument.gradual_of_builtin {a : Argument} (hb : a.type.Builtin)
    (hplaces : a.multiplicity = .multiple → ∀ elements, a.type = .exactList elements →
      elements.length ≤ 1) : a.Gradual := by
  intro hmul hkind
  cases ht : a.type with
  | list element => exact .inl ⟨element, rfl⟩
  | exactList elements => exact .inr ⟨elements, rfl, hplaces hmul elements ht⟩
  | custom c =>
    rw [ht] at hb
    exact hb.elim
  | _ => rw [ht] at hkind; cases hkind

/-- **A line that parses does not fail while it is typed**: the text in front of each of its tokens
is a partial line. The types of the arguments are known to the console, and no argument takes a run
as a list with several places. -/
theorem CommandParser.parsePartial_before_token {p : CommandParser}
    (hregistry : ∀ e ∈ p.registry.entries, ∃ args, e.command.arguments = .static args ∧
      ∀ a ∈ args, a.type.Builtin ∧ (a.multiplicity = .multiple →
        ∀ elements, a.type = .exactList elements → elements.length ≤ 1))
    {context : ParseContext} {line : String} {cmds : List BoundCommand}
    (h : p.parse context line = .ok cmds) {t : Token} (ht : t ∈ (p.config.tokensOf line).toList) :
    ∃ state, p.parsePartial context (textBefore line t.span.start) = .ok state := by
  obtain ⟨before, stop, rest, hline, hcut⟩ := ParserConfig.tokensOf_textBefore ht
  -- the whole line is a partial line too
  obtain ⟨last, hlast⟩ : ∃ last,
      (p.lineEnv context line).openCommand .root (p.config.tokensOf line) = .ok last := by
    have hanswers := LineEnv.parseCommands_answers (p.lineEnv context line) .root
      (p.config.tokensOf line)
    have h' : (p.lineEnv context line).parseCommands (p.config.tokensOf line) = .ok cmds := h
    rw [h'] at hanswers
    generalize (p.lineEnv context line).openCommand .root (p.config.tokensOf line) = y at hanswers
    cases hanswers with
    | agree => exact ⟨_, rfl⟩
  have hgradual : ∀ id c, (p.lineEnv context line).registry.get? id = some c →
      ((p.lineEnv context line).bindEnv .partialLine id c).Offers Argument.Gradual := by
    intro id c hget s a ha
    obtain ⟨e, he, rfl⟩ := Option.map_eq_some_iff.mp hget
    obtain ⟨args, hargs, hall⟩ := hregistry e (List.mem_of_getElem? he)
    obtain ⟨hb, hplaces⟩ := hall a (BindEnv.offers_static hargs s a ha)
    exact Argument.gradual_of_builtin hb hplaces
  rw [hline, ← Tokens.onto_prepend before stop rest] at hlast
  obtain ⟨state, hstate⟩ := LineEnv.openCommand_cut (textBefore line t.span.start) hgradual .root
    (.prepend before (.finished stop)) .root hlast
  refine ⟨state, ?_⟩
  rw [CommandParser.parsePartial, hcut]
  exact hstate

theorem Demo.arguments_parserOf {c : Command}
    (h : (Registry.empty.registerAll [c]).toBool = true) :
    ∀ e ∈ (parserOf c).registry.entries, e.command = c := by
  intro e he
  have hcommands := Registry.commands_registerAll (Registry.registerAll_toOption h)
  have hmem : e.command ∈ (parserOf c).registry.entries.map (·.command) := List.mem_map_of_mem he
  rw [parserOf, hcommands] at hmem
  simpa [Registry.empty] using hmem

/-- A command that takes a run as a list, and a switch. -/
def Demo.mean : Command :=
  Demo.command "mean" "Average numbers" [.flag "round" 'r',
    { Argument.new "values" (.list .int) with multiplicity := .multiple }]

/-- A run that is cut off between its values. -/
theorem CommandParser.parsePartial_before_token_mean :
    ∃ t ∈ ((Demo.parserOf Demo.mean).config.tokensOf "mean -r 1 2").toList,
      textBefore "mean -r 1 2" t.span.start = "mean -r 1 " ∧
      ∃ state, (Demo.parserOf Demo.mean).parsePartial .empty "mean -r 1 " = .ok state := by
  have hregistry : ∀ e ∈ (Demo.parserOf Demo.mean).registry.entries, ∃ args,
      e.command.arguments = .static args ∧ ∀ a ∈ args, a.type.Builtin ∧
        (a.multiplicity = .multiple →
          ∀ elements, a.type = .exactList elements → elements.length ≤ 1) := by
    intro e he
    rw [Demo.arguments_parserOf (by decide +kernel) e he]
    refine ⟨_, rfl, ?_⟩
    simp [Argument.flag, Argument.withDefault, Argument.new, ArgType.Builtin]
  have hparse : ((Demo.parserOf Demo.mean).parse .empty "mean -r 1 2").toBool = true := by
    decide +kernel
  have htoken : (((Demo.parserOf Demo.mean).config.tokensOf "mean -r 1 2").toList[3]?).map
      (fun t => t.span.start) = some 10 := by
    decide +kernel
  obtain ⟨t, ht, hstart⟩ := Option.map_eq_some_iff.mp htoken
  have hbefore : textBefore "mean -r 1 2" t.span.start = "mean -r 1 " := by
    rw [hstart]
    decide +kernel
  obtain ⟨cmds, hp⟩ := Except.exists_of_toBool hparse
  have hmem := List.mem_of_getElem? ht
  exact ⟨t, hmem, hbefore, hbefore ▸ parsePartial_before_token hregistry hp hmem⟩

/-- A command that takes two values as a list of two places. -/
def Demo.range : Command :=
  Demo.command "range" "Count from one number to another"
    [{ Argument.new "bounds" (.exactList [.int, .int]) with multiplicity := .multiple }]

/-- A list with two places does not take a run that is cut off behind the first. -/
theorem CommandParser.parsePartial_not_before_token :
    (∀ e ∈ (Demo.parserOf Demo.range).registry.entries, ∃ args,
      e.command.arguments = .static args ∧ ∀ a ∈ args, a.type.Builtin) ∧
    ∃ cmds, (Demo.parserOf Demo.range).parse .empty "range 1 2" = .ok cmds ∧
      ∃ t ∈ ((Demo.parserOf Demo.range).config.tokensOf "range 1 2").toList,
        ∃ f, (Demo.parserOf Demo.range).parsePartial .empty
          (textBefore "range 1 2" t.span.start) = .error f := by
  refine ⟨fun e he => ?_, ?_⟩
  · rw [Demo.arguments_parserOf (by decide +kernel) e he]
    refine ⟨_, rfl, ?_⟩
    simp [Argument.new, ArgType.Builtin, ArgType.BuiltinAll]
  · have hparse : ((Demo.parserOf Demo.range).parse .empty "range 1 2").toBool = true := by
      decide +kernel
    have htoken : (((Demo.parserOf Demo.range).config.tokensOf "range 1 2").toList[2]?).map
        (fun t => ((Demo.parserOf Demo.range).parsePartial .empty
          (textBefore "range 1 2" t.span.start)).toBool) = some false := by
      decide +kernel
    obtain ⟨t, ht, hfails⟩ := Option.map_eq_some_iff.mp htoken
    obtain ⟨cmds, hp⟩ := Except.exists_of_toBool hparse
    exact ⟨cmds, hp, t, List.mem_of_getElem? ht, Except.exists_of_not_toBool hfails⟩

end CommandConsole
