/-
# Which calls a line makes

What happens to one command is told by what each interceptor has made of it and
by how it has ended. That decides the calls: every interceptor up to a veto is
asked about the command as the one before has left it; if there is no veto the
handler gets what the last one has left, and where it succeeds every interceptor
is shown the result. Which handler that is, the command says itself, as the last
interceptor has left it. A line runs its commands in the order of the text, up to
the first whose handler fails. Each call is answered by someone who may know all
the calls before it, so what is known is part of the account.

Key definitions: `CommandRun`, `CommandRun.calls`, `CommandRun.Follows`, `Callees.Runs`.
Key theorems: `Callees.runCommand_of_follows`, `Callees.exists_follows`,
`Callees.runCommands_append`, `Callees.dispatch_eq_iff`.
-/
import CommandConsole.Line.Dispatch
import CommandConsole.Proofs.Line.Enclosed

namespace CommandConsole

/-- What has become of a command. -/
inductive Ending where
  | vetoed
  | failed (error : HandlerError)
  | succeeded (value : Value)

/-- One command on its way through the interceptors to its handler. -/
structure CommandRun where
  parsed : BoundCommand
  /-- What the interceptors before a veto have made of the command, in their order. -/
  rewrites : List BoundCommand
  ending : Ending

namespace DispatchCall

variable {parsed c : BoundCommand} {i : Nat} {cs : List BoundCommand}

/-- Interceptors are asked about versions of a command, the first of them number `i`. -/
def asks (parsed : BoundCommand) (i : Nat) (versions : List BoundCommand) : List DispatchCall :=
  (versions.zipIdx i).map fun v => .pre v.2 parsed v.1

@[simp] theorem asks_nil : asks parsed i [] = [] := rfl

@[simp] theorem asks_cons :
    asks parsed i (c :: cs) = .pre i parsed c :: asks parsed (i + 1) cs := rfl

end DispatchCall

namespace CommandRun

variable (r : CommandRun)

/-- The command as it was parsed, and then as each interceptor has left it. -/
def versions : List BoundCommand := r.parsed :: r.rewrites

/-- The command as the last interceptor has left it. -/
def current : BoundCommand := r.rewrites.getLastD r.parsed

/-- The calls in which the first `n` interceptors are asked. -/
def asked (n : Nat) : List DispatchCall := DispatchCall.asks r.parsed 0 (r.versions.take n)

/-- The calls for the command, with the interceptor that has vetoed it as the last one asked. -/
def calls (d : Callees) : List DispatchCall :=
  match r.ending with
  | .vetoed => r.asked (r.rewrites.length + 1)
  | .failed _ => r.asked r.rewrites.length ++ [.handler r.current]
  | .succeeded v => r.asked r.rewrites.length ++
      (if r.current.command.handler.isSome then [.handler r.current] else []) ++
      (List.range d.interceptors.length).map fun i =>
        .post i r.parsed r.current ⟨r.current.name, v⟩

/-- The result has the name that the interceptors have left. -/
def result? : Option CommandResult :=
  match r.ending with
  | .succeeded v => some ⟨r.current.name, v⟩
  | _ => none

def error? : Option HandlerError :=
  match r.ending with
  | .failed e => some e
  | _ => none

/-- What comes of the command. Neither a veto nor a missing result is a failure. -/
def outcome : Except HandlerError (Option CommandResult) :=
  match r.error? with
  | some e => .error e
  | none => .ok r.result?

/-- Every call has been answered as the run says, by someone who knows the calls `before` and
those of the run so far. -/
structure Follows (d : Callees) (context : ParseContext) (before : History) : Prop where
  passed : ∀ (i : Nat) c next, r.versions[i]? = some c → r.rewrites[i]? = some next →
    ∃ f, d.interceptors[i]? = some f ∧ f (before ++ r.asked i) r.parsed c = some next
  ended :
    match r.ending with
    | .vetoed => ∃ f, d.interceptors[r.rewrites.length]? = some f ∧
        f (before ++ r.asked r.rewrites.length) r.parsed r.current = none
    | .failed e => r.rewrites.length = d.interceptors.length ∧
        ∃ h, r.current.command.handler = some h ∧
          d.handlers h (before ++ r.asked r.rewrites.length) r.current context = .error e
    | .succeeded v => r.rewrites.length = d.interceptors.length ∧
        (r.current.command.handler = none → v = .unit) ∧
        ∀ h, r.current.command.handler = some h →
          d.handlers h (before ++ r.asked r.rewrites.length) r.current context = .ok v

end CommandRun

/-- The commands of a line that parses stand in the order of the text. -/
theorem CommandParser.pairwise_spans {p : CommandParser} {context : ParseContext} {text : String}
    {cmds : List BoundCommand} (h : p.parse context text = .ok cmds) :
    cmds.Pairwise fun c d => c.span.stop ≤ d.span.start := by
  have hplaced := tokensPlaced_tokensOf p.config text
  have htile : (p.config.tokensOf text).Tile 0 text.toList :=
    Tokens.ofCursor_tile p.config.tokenRules (.start text)
  obtain ⟨stop, hend⟩ := LineEnv.parseCommands_endsAt _ h
  obtain rfl : stop = textLength text := (htile.endsAt hend).trans (Nat.zero_add _)
  obtain ⟨segments, hseg, hall⟩ := LineEnv.parseCommands_extends hplaced htile.stop_le
    (p.config.tokensOf text) [] rfl hend h
  refine LineEnv.pairwise_spans hplaced hall ?_
  rw [← hseg]
  exact List.filter_sublist

namespace Callees

open DispatchCall

/-- The commands of a line have been run one after the other. -/
def Runs (d : Callees) (context : ParseContext) (before : History) (runs : List CommandRun) :
    Prop :=
  ∀ (i : Nat) r, runs[i]? = some r → r.Follows d context (before ++ (runs.take i).flatMap (·.calls d))

/-! ### The interceptors in front of a handler -/

section Interceptors

variable {parsed c r : BoundCommand} {i : Nat} {before : History} {f : History → Interceptor}
  {fs : List (History → Interceptor)} {rs : List BoundCommand}

/-- The interceptors `fs`, of which the first is number `i`, make `rs` of a command, one after
the other. -/
def Passes (fs : List (History → Interceptor)) (before : History) (parsed : BoundCommand)
    (i : Nat) (c : BoundCommand) (rs : List BoundCommand) : Prop :=
  ∀ (j : Nat) c' next, (c :: rs)[j]? = some c' → rs[j]? = some next →
    ∃ f, fs[j]? = some f ∧ f (before ++ asks parsed i ((c :: rs).take j)) parsed c' = some next

/-- The interceptor behind those that have made `rs` of a command vetoes it. -/
def Vetoes (fs : List (History → Interceptor)) (before : History) (parsed : BoundCommand)
    (i : Nat) (c : BoundCommand) (rs : List BoundCommand) : Prop :=
  ∃ f, fs[rs.length]? = some f ∧
    f (before ++ asks parsed i ((c :: rs).take rs.length)) parsed (rs.getLastD c) = none

theorem passes_nil : Passes fs before parsed i c [] := fun _ _ _ _ h => by cases h

theorem passes_cons : Passes (f :: fs) before parsed i c (r :: rs) ↔
    f before parsed c = some r ∧
      Passes fs (before ++ [.pre i parsed c]) parsed (i + 1) r rs := by
  constructor
  · intro h
    constructor
    · obtain ⟨g, hg, hr⟩ := h 0 c r rfl rfl
      obtain rfl := Option.some.inj hg
      simpa using hr
    · intro j c' next hc' hnext
      obtain ⟨g, hg, hr⟩ := h (j + 1) c' next hc' hnext
      refine ⟨g, hg, ?_⟩
      simpa using hr
  · rintro ⟨hfirst, hrest⟩ j c' next hc' hnext
    cases j with
    | zero =>
      obtain rfl := Option.some.inj hc'
      obtain rfl := Option.some.inj hnext
      exact ⟨f, rfl, by simpa using hfirst⟩
    | succ j =>
      obtain ⟨g, hg, hr⟩ := hrest j c' next hc' hnext
      refine ⟨g, hg, ?_⟩
      simpa using hr

theorem vetoes_cons : Vetoes (f :: fs) before parsed i c (r :: rs) ↔
    Vetoes fs (before ++ [.pre i parsed c]) parsed (i + 1) r rs := by
  simp only [Vetoes, List.length_cons, List.getElem?_cons_succ, List.take_succ_cons, asks_cons,
    List.getLastD_cons, List.append_assoc, List.singleton_append]

/-- Without a veto the last interceptor decides what goes on. -/
theorem intercept_passed : ∀ {fs : List (History → Interceptor)} {rs : List BoundCommand}
    {i : Nat} {before : History} {c : BoundCommand}, Passes fs before parsed i c rs →
      rs.length = fs.length → intercept before parsed i c fs =
        ⟨some (rs.getLastD c), asks parsed i ((c :: rs).take rs.length)⟩
  | [], [], _, _, _, _, _ => rfl
  | f :: fs, r :: rs, i, before, c, h, hlength => by
    obtain ⟨hfirst, hrest⟩ := passes_cons.mp h
    rw [intercept, hfirst]
    simp only [intercept_passed hrest (Nat.succ.inj hlength), List.getLastD_cons, List.length_cons,
      List.take_succ_cons, asks_cons]

/-- A veto ends the way of a command. -/
theorem intercept_vetoed : ∀ {fs : List (History → Interceptor)} {rs : List BoundCommand}
    {i : Nat} {before : History} {c : BoundCommand}, Passes fs before parsed i c rs →
      Vetoes fs before parsed i c rs →
        intercept before parsed i c fs = ⟨none, asks parsed i (c :: rs)⟩
  | [], _, _, _, _, _, ⟨_, hf, _⟩ => by simp at hf
  | f :: fs, [], i, before, c, _, ⟨g, hg, hnone⟩ => by
    obtain rfl := Option.some.inj hg
    have hnone : f before parsed c = none := by simpa using hnone
    rw [intercept, hnone]
    rfl
  | f :: fs, r :: rs, i, before, c, h, hveto => by
    obtain ⟨hfirst, hrest⟩ := passes_cons.mp h
    rw [intercept, hfirst]
    simp only [intercept_vetoed hrest (vetoes_cons.mp hveto), asks_cons]

/-- Either all interceptors pass a command on, or there is one that vetoes it. -/
theorem exists_passes : ∀ (fs : List (History → Interceptor)) (i : Nat) (before : History)
    (c : BoundCommand), ∃ rs, Passes fs before parsed i c rs ∧
      (rs.length = fs.length ∨ Vetoes fs before parsed i c rs)
  | [], _, _, _ => ⟨[], passes_nil, .inl rfl⟩
  | f :: fs, i, before, c => by
    cases hf : f before parsed c with
    | none => exact ⟨[], passes_nil, .inr ⟨f, rfl, by simpa using hf⟩⟩
    | some r =>
      obtain ⟨rs, hrest, hend⟩ := exists_passes fs (i + 1) (before ++ [.pre i parsed c]) r
      refine ⟨r :: rs, passes_cons.mpr ⟨hf, hrest⟩, ?_⟩
      rcases hend with hlength | hveto
      · exact .inl (congrArg (· + 1) hlength)
      · exact .inr (vetoes_cons.mpr hveto)

end Interceptors

/-! ### One command -/

variable {d : Callees} {context : ParseContext} {before : History} {parsed : BoundCommand}
  {r : CommandRun}

/-- **A command is run as its run says**, with these calls and this outcome. -/
theorem runCommand_of_follows (h : r.Follows d context before) :
    d.runCommand context before r.parsed = ⟨r.outcome, r.calls d⟩ := by
  have hpasses : Passes d.interceptors before r.parsed 0 r.parsed r.rewrites := h.passed
  -- where nobody vetoes, the interceptors leave the handler the current version
  have hpassed : r.rewrites.length = d.interceptors.length →
      intercept before r.parsed 0 r.parsed d.interceptors =
        ⟨some r.current, r.asked r.rewrites.length⟩ := intercept_passed hpasses
  have hended := h.ended
  rw [runCommand, CommandRun.outcome, CommandRun.calls, CommandRun.error?, CommandRun.result?]
  cases hending : r.ending with
  | vetoed =>
    rw [hending] at hended
    have hveto : Vetoes d.interceptors before r.parsed 0 r.parsed r.rewrites := hended
    rw [intercept_vetoed hpasses hveto]
    simp only [CommandRun.asked, CommandRun.versions, List.take_succ_cons, List.take_length]
  | failed e =>
    rw [hending] at hended
    obtain ⟨hlength, handler, hhandler, he⟩ := hended
    simp only [hpassed hlength, runHandler, hhandler, he]
  | succeeded v =>
    rw [hending] at hended
    obtain ⟨hlength, hunit, hvalue⟩ := hended
    cases hhandler : r.current.command.handler with
    | none =>
      obtain rfl := hunit hhandler
      simp only [hpassed hlength, runHandler, hhandler, observe]
      rfl
    | some handler =>
      simp only [hpassed hlength, runHandler, hhandler, hvalue handler hhandler, observe]
      rfl

/-- Every command has a run. -/
theorem exists_follows (d : Callees) (context : ParseContext) (before : History)
    (parsed : BoundCommand) : ∃ r : CommandRun, r.parsed = parsed ∧ r.Follows d context before := by
  obtain ⟨rs, hpasses, hlength | hveto⟩ := exists_passes d.interceptors 0 before parsed
  · cases hhandler : (rs.getLastD parsed).command.handler with
    | none =>
      refine ⟨⟨parsed, rs, .succeeded .unit⟩, rfl, hpasses, hlength, fun _ => rfl, ?_⟩
      intro h hsome
      cases hhandler.symm.trans hsome
    | some h =>
      cases hvalue : d.handlers h (before ++ asks parsed 0 ((parsed :: rs).take rs.length))
          (rs.getLastD parsed) context with
      | error e => exact ⟨⟨parsed, rs, .failed e⟩, rfl, hpasses, hlength, h, hhandler, hvalue⟩
      | ok v =>
        refine ⟨⟨parsed, rs, .succeeded v⟩, rfl, hpasses, hlength, fun hnone => ?_, ?_⟩
        · cases hhandler.symm.trans hnone
        · intro h' hsome
          obtain rfl := Option.some.inj (hhandler.symm.trans hsome)
          exact hvalue
  · exact ⟨⟨parsed, rs, .vetoed⟩, rfl, hpasses, hveto⟩

/-! ### A line -/

variable {runs : List CommandRun}

theorem runs_nil : d.Runs context before [] := fun _ _ h => by cases h

theorem runs_cons : d.Runs context before (r :: runs) ↔
    r.Follows d context before ∧ d.Runs context (before ++ r.calls d) runs := by
  constructor
  · intro h
    constructor
    · simpa using h 0 r rfl
    · intro i q hq
      simpa using h (i + 1) q hq
  · rintro ⟨hfirst, hrest⟩ i q hq
    cases i with
    | zero =>
      obtain rfl := Option.some.inj hq
      simpa using hfirst
    | succ i => simpa using hrest i q hq

theorem runs_append {more : List CommandRun} : ∀ {runs : List CommandRun} {before : History},
    d.Runs context before (runs ++ more) ↔ d.Runs context before runs ∧
      d.Runs context (before ++ runs.flatMap (·.calls d)) more
  | [], before => by simp [runs_nil]
  | r :: runs, before => by
    rw [List.cons_append, runs_cons, runs_cons, runs_append, List.flatMap_cons, List.append_assoc,
      and_assoc]

/-- Commands that do not fail leave the rest of the line to be run. -/
theorem runCommands_append {cs : List BoundCommand}
    {t : Traced (Except HandlerError (List CommandResult))} :
    ∀ {runs : List CommandRun} {before : History}, d.Runs context before runs →
      (∀ r ∈ runs, r.error? = none) →
        d.runCommands context (before ++ runs.flatMap (·.calls d)) cs = t →
          d.runCommands context before (runs.map (·.parsed) ++ cs) =
            ⟨t.outcome.map (runs.filterMap (·.result?) ++ ·), runs.flatMap (·.calls d) ++ t.calls⟩
  | [], before, _, _, ht => by
    rw [List.flatMap_nil, List.append_nil] at ht
    rw [List.map_nil, List.nil_append, ht]
    obtain ⟨outcome, calls⟩ := t
    cases outcome <;> rfl
  | r :: runs, before, h, hok, ht => by
    obtain ⟨hfirst, hrest⟩ := runs_cons.mp h
    have hnone : r.error? = none := hok r List.mem_cons_self
    rw [List.flatMap_cons, ← List.append_assoc] at ht
    have ih := runCommands_append hrest (fun q hq => hok q (List.mem_cons_of_mem r hq)) ht
    have hresults : (r :: runs).filterMap (·.result?) =
        r.result?.toList ++ runs.filterMap (·.result?) := by
      rw [List.filterMap_cons]
      cases r.result? <;> rfl
    rw [List.map_cons, List.cons_append, runCommands, runCommand_of_follows hfirst,
      CommandRun.outcome, hnone, hresults, List.flatMap_cons]
    simp only [ih, List.append_assoc]
    cases t.outcome <;> simp [Except.map]

/-- The commands of a line have runs, up to the first that fails. -/
theorem exists_runs (d : Callees) (context : ParseContext) : ∀ (before : History)
    (commands : List BoundCommand), ∃ runs, d.Runs context before runs ∧
      ((runs.map (·.parsed) = commands ∧ ∀ r ∈ runs, r.error? = none) ∨
        ∃ earlier last e later, runs = earlier ++ [last] ∧
          runs.map (·.parsed) ++ later = commands ∧
          (∀ r ∈ earlier, r.error? = none) ∧ last.error? = some e)
  | _, [] => ⟨[], runs_nil, .inl ⟨rfl, fun _ h => by cases h⟩⟩
  | before, c :: cs => by
    obtain ⟨r, rfl, hr⟩ := exists_follows d context before c
    cases he : r.error? with
    | some e =>
      refine ⟨[r], runs_cons.mpr ⟨hr, runs_nil⟩, .inr ⟨[], r, e, cs, rfl, rfl, ?_, he⟩⟩
      intro q hq
      cases hq
    | none =>
      obtain ⟨runs, hruns, hend⟩ := exists_runs d context (before ++ r.calls d) cs
      refine ⟨r :: runs, runs_cons.mpr ⟨hr, hruns⟩, ?_⟩
      rcases hend with ⟨rfl, hok⟩ | ⟨earlier, last, e, later, rfl, rfl, hok, hlast⟩
      · exact .inl ⟨rfl, List.forall_mem_cons.mpr ⟨he, hok⟩⟩
      · exact .inr ⟨r :: earlier, last, e, later, rfl, rfl, List.forall_mem_cons.mpr ⟨he, hok⟩,
          hlast⟩

/-- A line without a failure has the results of its commands, and no other calls than they
make. -/
theorem runCommands_ok (h : d.Runs context before runs) (hok : ∀ r ∈ runs, r.error? = none) :
    d.runCommands context before (runs.map (·.parsed)) =
      ⟨.ok (runs.filterMap (·.result?)), runs.flatMap (·.calls d)⟩ := by
  have hrun := @runCommands_append d context [] _ runs before h hok rfl
  simpa [runCommands, Except.map] using hrun

/-- A line ends with the first command that fails. -/
theorem runCommands_failed {last : CommandRun} {e : HandlerError} {later : List BoundCommand}
    (h : d.Runs context before (runs ++ [last])) (hok : ∀ r ∈ runs, r.error? = none)
    (he : last.error? = some e) :
    d.runCommands context before ((runs ++ [last]).map (·.parsed) ++ later) =
      ⟨.error e, (runs ++ [last]).flatMap (·.calls d)⟩ := by
  obtain ⟨hruns, hlast⟩ := runs_append.mp h
  obtain ⟨hfollows, -⟩ := runs_cons.mp hlast
  have hstop : d.runCommands context (before ++ runs.flatMap (·.calls d)) (last.parsed :: later) =
      ⟨.error e, last.calls d⟩ := by
    rw [runCommands, runCommand_of_follows hfollows, CommandRun.outcome, he]
  have hrun := runCommands_append hruns hok hstop
  rw [List.map_append, List.append_assoc, List.flatMap_append]
  simpa [Except.map] using hrun

/-- **The calls that a line makes.** None, if the line does not parse. Otherwise its commands are
run in the order of the text, each as `CommandRun.Follows` says, with the calls of
`CommandRun.calls`. If none fails the results are those of the commands that have one, in this
order; the first to fail is the last to be run, and its error is that of the line. A command
begins with the declaration that is registered for it, and an interceptor may change that, and
with it the handler. What `Dispatcher.dispatch` does is this for handlers and interceptors that
keep nothing. -/
theorem dispatch_eq_iff (d : Callees) (p : CommandParser) (context : ParseContext)
    (before : History) (text : String) (t : Traced (Except DispatchError (List CommandResult))) :
    d.dispatch p context before text = t ↔
      (∃ f, p.parse context text = .error f ∧ t = ⟨.error (.parse f), []⟩) ∨
      ∃ commands runs, p.parse context text = .ok commands ∧
        (commands.Pairwise fun c d => c.span.stop ≤ d.span.start) ∧
        (∀ c ∈ commands, p.registry.get? c.id = some c.command) ∧
        d.Runs context before runs ∧ t.calls = runs.flatMap (·.calls d) ∧
        ((runs.map (·.parsed) = commands ∧ (∀ r ∈ runs, r.error? = none) ∧
            t.outcome = .ok (runs.filterMap (·.result?))) ∨
          ∃ earlier last e later, runs = earlier ++ [last] ∧
            runs.map (·.parsed) ++ later = commands ∧ (∀ r ∈ earlier, r.error? = none) ∧
              last.error? = some e ∧ t.outcome = .error (.handler e)) := by
  cases hparse : p.parse context text with
  | error f => simp [dispatch, hparse, eq_comm]
  | ok commands =>
    have horder := CommandParser.pairwise_spans hparse
    have hcommand : ∀ c ∈ commands, p.registry.get? c.id = some c.command :=
      fun c hc => CommandParser.registered_of_parse hparse hc
    have hrun : d.dispatch p context before text =
        ⟨(d.runCommands context before commands).outcome.mapError .handler,
          (d.runCommands context before commands).calls⟩ := by
      rw [dispatch, hparse]
    rw [hrun]
    constructor
    · rintro rfl
      obtain ⟨runs, hruns, ⟨rfl, hok⟩ | ⟨earlier, last, e, later, rfl, rfl, hok, hlast⟩⟩ :=
        exists_runs d context before commands
      · refine .inr ⟨_, runs, rfl, horder, hcommand, hruns, ?_⟩
        rw [runCommands_ok hruns hok]
        exact ⟨rfl, .inl ⟨rfl, hok, rfl⟩⟩
      · refine .inr ⟨_, earlier ++ [last], rfl, horder, hcommand, hruns, ?_⟩
        rw [runCommands_failed hruns hok hlast]
        exact ⟨rfl, .inr ⟨earlier, last, e, later, rfl, rfl, hok, hlast, rfl⟩⟩
    · rintro (⟨f, hf, -⟩ | ⟨cmds, runs, hcmds, -, -, hruns, hcalls, hend⟩)
      · cases hf
      obtain rfl := Except.ok.inj hcmds
      obtain ⟨outcome, calls⟩ := t
      obtain rfl : calls = runs.flatMap (·.calls d) := hcalls
      obtain ⟨rfl, hok, houtcome⟩ | ⟨earlier, last, e, later, rfl, rfl, hok, hlast, houtcome⟩ := hend
      · obtain rfl : outcome = .ok (runs.filterMap (·.result?)) := houtcome
        rw [runCommands_ok hruns hok]
        rfl
      · obtain rfl : outcome = .error (.handler e) := houtcome
        rw [runCommands_failed hruns hok hlast]
        rfl

/-- The handler that runs is the one that the last interceptor has left. -/
example :
    let ping : Command := { Demo.command "ping" "Answer" [] with handler := some 1 }
    let redirect : History → Interceptor := fun _ _ c =>
      some { c with command := { c.command with handler := some 2 } }
    let answers (interceptors : List (History → Interceptor)) :=
      (Callees.dispatch ⟨fun h _ _ _ => .ok (.int (.ofNat h)), interceptors⟩ (Demo.parserOf ping)
        .empty [] "ping").outcome.toOption.map (·.map (·.value.display))
    answers [] = some ["1"] ∧ answers [redirect] = some ["2"] := by
  decide +kernel

end Callees
end CommandConsole
