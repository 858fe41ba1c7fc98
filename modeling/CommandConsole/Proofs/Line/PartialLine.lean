/-
# Partial lines and whole lines

The text before a completion cursor is parsed like a whole line. If the whole
line has its commands, the partial one leaves the parser behind the last of
them, with the same arguments bound. If the two answers differ otherwise, the
whole line lacks an argument, a value or a requirement.

Key definitions: `LineState.EndsIn`, `LineEnv.Answers`.
Key theorems: `LineEnv.parseCommands_answers`, `CommandParser.parsePartial_agrees`.
-/
import CommandConsole.Console.Demo
import CommandConsole.Proofs.Binding.PartialLine
import CommandConsole.Proofs.Line.Consumption

namespace CommandConsole

/-- The state `last` behind some tokens that make up the commands `cmds`. It is `first` if there
are no tokens, and the root behind a separator. Behind any other token the last command is
open, with the arguments that are bound to it, and no name or flag waits for a value. -/
def LineState.EndsIn (first : LineState) (tokens : List Token) (cmds : List BoundCommand)
    (last : LineState) : Prop :=
  match tokens.getLast? with
  | none => last = first
  | some t =>
    if t.isSeparator then last = .root
    else ∃ c ∈ cmds.getLast?, ∃ pending, pending.isValue = false ∧
      last = .inCommand c.id (c.arguments.filter fun b => b.origin ≠ .default) pending

namespace LineState

/-- Only the last tokens and the last commands matter. -/
theorem endsIn_append {first first' last : LineState} (tokens : List Token) {more : List Token}
    (before : List BoundCommand) {cmds : List BoundCommand} (hm : more ≠ [])
    (h : EndsIn first more cmds last) : EndsIn first' (tokens ++ more) (before ++ cmds) last := by
  unfold EndsIn at h ⊢
  rw [List.getLast?_append_of_ne_nil _ hm]
  cases hl : more.getLast? with
  | none => exact absurd (List.getLast?_eq_none_iff.mp hl) hm
  | some t =>
    rw [hl] at h
    dsimp only at h ⊢
    split at h
    · rename_i ht
      rw [if_pos ht]
      exact h
    · rename_i ht
      rw [if_neg ht]
      obtain ⟨d, hd, hrest⟩ := h
      refine ⟨d, ?_, hrest⟩
      rw [Option.mem_def] at hd ⊢
      simp [hd]

/-- A separator leaves the parser at the root. -/
theorem endsIn_separator {first last : LineState} {t : Token} {tokens : List Token}
    {cmds : List BoundCommand} (ht : t.isSeparator = true) (h : EndsIn .root tokens cmds last) :
    EndsIn first (t :: tokens) cmds last := by
  by_cases hne : tokens = []
  · subst hne
    obtain rfl : last = .root := h
    simp [EndsIn, ht]
  · exact endsIn_append [t] [] hne h

end LineState

namespace LineEnv

/-- The answer to a whole line beside that to the same partial line. -/
inductive Answers (state : LineState) (tokens : List Token) :
    Except ParseFail (List BoundCommand) → Except ParseFail LineState → Prop
  | fail {f g : ParseFail} (h : g = f ∨ g.LacksArgument ∨ g.LacksRequirement) :
      Answers state tokens (.error g) (.error f)
  | stop {g : ParseFail} {last : LineState}
      (h : g.LacksArgument ∨ g.LacksValue ∨ g.LacksRequirement) :
      Answers state tokens (.error g) (.ok last)
  | agree {cmds : List BoundCommand} {last : LineState} (h : state.EndsIn tokens cmds last) :
      Answers state tokens (.ok cmds) (.ok last)

/-- A whole line may lack an argument or a requirement, whatever comes of the partial line. -/
theorem Answers.of_lacks {state : LineState} {tokens : List Token} {g : ParseFail}
    (h : g.LacksArgument ∨ g.LacksRequirement) (y : Except ParseFail LineState) :
    Answers state tokens (.error g) y := by
  cases y with
  | error f => exact .fail (.inr h)
  | ok last => exact .stop (h.imp_right .inr)

variable {env : LineEnv} {t : Token} {rest : Tokens}

theorem checkGate_eq_error {r : Resolved} {c : Command} {bound : List BoundArgument}
    {f : ParseFail} (h : env.checkGate r c bound = .error f) : f.LacksRequirement := by
  unfold checkGate at h
  split at h
  · cases h
    exact ⟨_, _, rfl⟩
  · cases h

/-- One command is resolved and bound alike in both lines. -/
theorem bindCommand_mirrors (env : LineEnv) (t : Token) (rest : Tokens) :
    BindEnv.Mirrors (fun x y => x.1 = y.1 ∧ x.2.1 = y.2.1 ∧ BindEnv.Completes x.2.2 y.2.2)
      (fun f y => BindEnv.StopsCommand f y.2.2)
      (env.bindCommand .complete t rest) (env.bindCommand .partialLine t rest) := by
  unfold bindCommand
  cases env.resolve t rest with
  | error f => exact .fails
  | ok r =>
    dsimp only
    cases env.registry.get? r.id with
    | none => exact .fails
    | some c =>
      exact (BindEnv.bind_mirrors (env.bindEnv .complete r.id c) r.cursor).map
        (fun x y h => ⟨rfl, rfl, h⟩) (fun f y h => h)

/-- The whole line's command has the arguments of the partial line's, and defaults. -/
theorem filter_arguments {r : Resolved} {c : Command} {x y : BindEnv.Binding}
    (h : env.bindCommand .partialLine t rest = .ok (r, c, y)) (hc : BindEnv.Completes x y) :
    ((env.boundCommand r c x).arguments.filter fun b => b.origin ≠ .default) = y.state.bound := by
  obtain ⟨_, _, _, s, _, _, -, -, -, -, -, -, hA, hf⟩ :=
    bindCommand_tokens (P := fun _ => True) h fun _ _ _ => trivial
  obtain ⟨⟨unbound, hx⟩, -⟩ := hc
  have hs : s = y.state := by
    simp only [BindEnv.finish, bindEnv] at hf
    cases hf
    rfl
  have hne := hs ▸ hA.ledger.origin_ne
  simp only [boundCommand, hx]
  exact BindEnv.filter_bindDefaults (s := y.state.settle) hne unbound

/-- The last command of a line is open behind it, unless a separator ends it. -/
theorem endsIn_command {r : Resolved} {c : Command} {x y : BindEnv.Binding} {state : LineState}
    {stop : Nat}
    (h : env.bindCommand .partialLine t rest = .ok (r, c, y)) (hc : BindEnv.Completes x y)
    (hy : y.cursor.tokens = .finished stop) :
    state.EndsIn (.more t rest : Tokens).toList [env.boundCommand r c x] (stateAfter r y) := by
  have harguments := filter_arguments h hc
  obtain ⟨names, used, sep, _, _, _, hrest, hnames, -, hused, hsep, hby, -⟩ :=
    bindCommand_tokens (P := fun _ => True) h fun _ _ _ => trivial
  have htokens : (Tokens.more t rest).toList = (t :: names ++ used) ++ sep.toList := by
    rw [hrest, hy]
    simp [Tokens.toList]
  rw [htokens]
  cases sep with
  | some u =>
    have hu : u.isSeparator = true := hsep u rfl
    rw [Option.toList_some, LineState.EndsIn, List.getLast?_concat]
    simp [stateAfter, hby, hu]
  | none =>
    obtain ⟨u, hu⟩ : ∃ u, (t :: names ++ used).getLast? = some u := by
      cases hl : (t :: names ++ used).getLast? with
      | none => simp at hl
      | some u => exact ⟨u, rfl⟩
    have hn : u.isSeparator = false := by
      have hmem := List.mem_of_getLast? hu
      rcases List.mem_append.mp hmem with hmem | hmem
      · exact Token.isSeparator_of_isValue (hnames.all_isValue u hmem)
      · exact hused u hmem
    rw [Option.toList_none, List.append_nil, LineState.EndsIn, hu]
    simp only [hn, Bool.false_eq_true, if_false]
    refine ⟨env.boundCommand r c x, rfl, y.state.pending, hc.2.2.2, ?_⟩
    rw [harguments]
    simp [stateAfter, hby, hy, Tokens.isFinished, boundCommand]

/-- A command and the commands behind it leave the parser where those behind it do. -/
theorem endsIn_boundCommand {r : Resolved} {c : Command} {x y : BindEnv.Binding}
    {state last : LineState} {cmds : List BoundCommand}
    (hy : env.bindCommand .partialLine t rest = .ok (r, c, y)) (hc : BindEnv.Completes x y)
    (hp : env.parseCommands y.cursor.tokens = .ok cmds)
    (h : (stateAfter r y).EndsIn y.cursor.tokens.toList cmds last) :
    state.EndsIn (.more t rest : Tokens).toList (env.boundCommand r c x :: cmds) last := by
  cases hts : y.cursor.tokens with
  | finished stop =>
    rw [hts] at hp h
    rw [parseCommands] at hp
    cases hp
    obtain rfl : last = stateAfter r y := h
    exact endsIn_command hy hc hts
  | broken start failure =>
    rw [hts, parseCommands] at hp
    cases hp
  | more u us =>
    obtain ⟨names, used, sep, _, _, _, hrest, -⟩ :=
      bindCommand_tokens (P := fun _ => True) hy fun _ _ _ => trivial
    have htokens : (Tokens.more t rest).toList =
        (t :: names ++ used ++ sep.toList) ++ y.cursor.tokens.toList := by
      rw [hrest]
      simp
    rw [htokens]
    exact LineState.endsIn_append _ [env.boundCommand r c x] (by simp [hts]) h

/-- **The two answers to a line agree from every place of it on.** -/
theorem parseCommands_answers (env : LineEnv) (state : LineState) (ts : Tokens) :
    Answers state ts.toList (env.parseCommands ts) (env.openCommand state ts) := by
  fun_induction env.openCommand state ts with
  | case1 state stop =>
    rw [parseCommands]
    exact .agree rfl
  | case2 state start failure =>
    rw [parseCommands]
    exact .fail (.inl rfl)
  | case3 state t rest ht ih =>
    rw [parseCommands_separator ht]
    generalize env.parseCommands rest = p at ih
    generalize env.openCommand .root rest = o at ih
    cases ih with
    | fail h => exact .fail h
    | stop h => exact .stop h
    | agree h => exact .agree (LineState.endsIn_separator ht h)
  | case4 state t rest ht f hf =>
    have hm := bindCommand_mirrors env t rest
    rw [hf] at hm
    generalize hx : env.bindCommand .complete t rest = x at hm
    cases hm
    rw [parseCommands_error (by simpa using ht) hx]
    exact .fail (.inl rfl)
  | case5 state t rest ht r c y hy ih =>
    have ht' : t.isSeparator = false := by simpa using ht
    have hm := bindCommand_mirrors env t rest
    rw [hy] at hm
    generalize hx : env.bindCommand .complete t rest = x at hm
    cases hm with
    | stops h =>
      rw [parseCommands_error ht' hx]
      rcases h with h | ⟨hv, hfin, -⟩
      · exact .of_lacks (.inl h) _
      · obtain ⟨stop, hstop⟩ : ∃ stop, y.cursor.tokens = .finished stop := by
          cases hc : y.cursor.tokens <;> simp_all [Tokens.isFinished]
        rw [hstop, openCommand]
        exact .stop (.inr (.inl hv))
    | agrees h =>
      rename_i q
      obtain ⟨r', c', x⟩ := q
      obtain ⟨hr, hcc, hc⟩ := h
      change r' = r at hr
      change c' = c at hcc
      subst r' c'
      cases hg : env.checkGate r c x.state.bound with
      | error f =>
        rw [parseCommands_refused ht' hx hg]
        exact .of_lacks (.inr (checkGate_eq_error hg)) _
      | ok u =>
        rw [parseCommands_command ht' hx hg, hc.2.1]
        generalize hp : env.parseCommands y.cursor.tokens = p at ih
        generalize env.openCommand (stateAfter r y) y.cursor.tokens = o at ih
        cases ih with
        | fail h => exact .fail h
        | stop h => exact .stop h
        | agree h => exact .agree (endsIn_boundCommand hy hc hp h)

end LineEnv

/-- **A line with commands leaves the parser of its partial text in the last of them**, with the
same arguments bound. A partial line fails only where the whole line fails, with the same failure
unless an argument or a requirement is missing before; and a whole line that fails alone lacks an
argument, a value or a requirement. -/
theorem CommandParser.parsePartial_agrees (p : CommandParser) (context : ParseContext)
    (text : String) :
    (∀ cmds, p.parse context text = .ok cmds → ∃ state, p.parsePartial context text = .ok state ∧
      LineState.EndsIn .root (p.config.tokensOf text).toList cmds state) ∧
    (∀ f, p.parsePartial context text = .error f → ∃ g, p.parse context text = .error g ∧
      (g = f ∨ g.LacksArgument ∨ g.LacksRequirement)) ∧
    (∀ state g, p.parsePartial context text = .ok state → p.parse context text = .error g →
      g.LacksArgument ∨ g.LacksValue ∨ g.LacksRequirement) := by
  have h : LineEnv.Answers .root (p.config.tokensOf text).toList (p.parse context text)
      (p.parsePartial context text) :=
    LineEnv.parseCommands_answers (p.lineEnv context text) .root (p.config.tokensOf text)
  refine ⟨fun cmds hc => ?_, fun f hf => ?_, fun state g hs hg => ?_⟩
  · rw [hc] at h
    generalize p.parsePartial context text = y at h
    cases h with
    | agree h => exact ⟨_, rfl, h⟩
  · rw [hf] at h
    generalize p.parse context text = x at h
    cases h with
    | fail h => exact ⟨_, rfl, h⟩
  · rw [hs, hg] at h
    cases h with
    | stop h => exact h

/-- The parser of the built-in commands. -/
def Demo.parser : CommandParser := ⟨registry.toOption.getD .empty, default⟩

/-- A line with two commands, one whose end fails both ways, and one that may go on. -/
theorem CommandParser.parsePartial_agrees_fetch :
    (∃ cmds state, Demo.parser.parse .empty "say a & fetch -n 2 u" = .ok cmds ∧ cmds.length = 2 ∧
      Demo.parser.parsePartial .empty "say a & fetch -n 2 u" = .ok state ∧
      LineState.EndsIn .root (Demo.parser.config.tokensOf "say a & fetch -n 2 u").toList cmds
        state) ∧
    (∃ f g, Demo.parser.parsePartial .empty "fetch u & say --n" = .error f ∧
      Demo.parser.parse .empty "fetch u & say --n" = .error g ∧
      (g = f ∨ g.LacksArgument ∨ g.LacksRequirement)) ∧
    ∃ state g, Demo.parser.parsePartial .empty "fetch u -n" = .ok state ∧
      Demo.parser.parse .empty "fetch u -n" = .error g ∧
      (g.LacksArgument ∨ g.LacksValue ∨ g.LacksRequirement) := by
  have h1 := parsePartial_agrees Demo.parser .empty "say a & fetch -n 2 u"
  have h2 := parsePartial_agrees Demo.parser .empty "fetch u & say --n"
  have h3 := parsePartial_agrees Demo.parser .empty "fetch u -n"
  refine ⟨?_, ?_, ?_⟩
  · have hl : (Demo.parser.parse .empty "say a & fetch -n 2 u").toOption.map List.length =
        some 2 := by
      decide +kernel
    obtain ⟨cmds, hcmds, hlength⟩ := Option.map_eq_some_iff.mp hl
    have hp := Except.eq_ok_of_toOption hcmds
    obtain ⟨state, hs, he⟩ := h1.1 cmds hp
    exact ⟨cmds, state, hp, hlength, hs, he⟩
  · have hf : (Demo.parser.parsePartial .empty "fetch u & say --n").toBool = false := by
      decide +kernel
    obtain ⟨f, hp⟩ := Except.exists_of_not_toBool hf
    obtain ⟨g, hg, hgf⟩ := h2.2.1 f hp
    exact ⟨f, g, hp, hg, hgf⟩
  · have ho : (Demo.parser.parsePartial .empty "fetch u -n").toBool = true := by decide +kernel
    have hf : (Demo.parser.parse .empty "fetch u -n").toBool = false := by decide +kernel
    obtain ⟨state, hp⟩ := Except.exists_of_toBool ho
    obtain ⟨g, hq⟩ := Except.exists_of_not_toBool hf
    exact ⟨state, g, hp, hq, h3.2.2 state g hp hq⟩

end CommandConsole
