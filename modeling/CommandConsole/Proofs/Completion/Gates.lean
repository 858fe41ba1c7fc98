/-
# Requirements only gate

What commands require decides only whether they may be used. A line that may be
used gives the same commands as if nothing were required, and completion
suggests the same, also what may not be used: it looks neither at requirements
nor at information.

Key definition: `CommandParser.ungated`.
Key theorems: `CommandParser.complete_ungated`, `CommandParser.requirements_only_gate`.
-/
import CommandConsole.Completion.Suggest
import CommandConsole.Console.Demo
import CommandConsole.Proofs.Line.Gates

namespace CommandConsole

theorem positionalCandidates_ungated : ∀ args : List Argument,
    positionalCandidates (args.map Argument.ungated) = positionalCandidates args
  | [] => rfl
  | a :: args => by
    rw [List.map_cons, positionalCandidates, positionalCandidates,
      positionalCandidates_ungated args]
    rfl

theorem positionalTarget?_ungated (kind : TypeKind) : ∀ args : List Argument,
    positionalTarget? kind (args.map Argument.ungated) = positionalTarget? kind args
  | [] => rfl
  | a :: args => by
    rw [List.map_cons, positionalTarget?, positionalTarget?, positionalTarget?_ungated kind args]
    rfl

namespace CommandParser

/-- The parser whose commands require nothing. -/
def ungated (p : CommandParser) : CommandParser := ⟨p.registry.ungated, p.config⟩

variable (p : CommandParser) (l : Option Localizer)

theorem parsePartial_ungated (context : ParseContext) (text : String) :
    p.ungated.parsePartial context.uninformed text =
      (p.parsePartial context text).map LineState.ungated :=
  (p.lineEnv context text).openCommand_ungated .root (p.config.tokensOf text)

theorem get?_registry_ungated (id : CommandId) :
    p.ungated.registry.get? id = (p.registry.get? id).map Command.ungated :=
  p.registry.get?_ungated id

/-! ### Candidates -/

theorem commandNames_ungated (parent : Option CommandId) :
    p.ungated.commandNames l parent = p.commandNames l parent := by
  have hnames : p.ungated.registry.namesOf l = p.registry.namesOf l :=
    funext fun id => p.registry.namesOf_ungated l id
  rw [commandNames, hnames]
  exact congrArg (List.flatMap _) (p.registry.childrenOf_ungated parent)

theorem argumentFlags_ungated (id : CommandId) (args : List Argument) :
    p.ungated.argumentFlags l id (args.map Argument.ungated) = p.argumentFlags l id args := by
  have hname : p.ungated.registry.fullName id = p.registry.fullName id :=
    p.registry.fullName_ungated id
  unfold argumentFlags
  rw [List.map_map, hname]
  cases l with
  | none => rfl
  | some l =>
    dsimp only
    rw [List.flatMap_map]
    rfl

theorem commandCandidates_ungated (id : CommandId) (c : Command) (bound : List BoundArgument)
    (pending : Pending) : p.ungated.commandCandidates l id c.ungated bound pending.ungated =
      p.commandCandidates l id c bound pending := by
  have hoptional : ∀ args : List Argument,
      (args.map Argument.ungated).all (·.isOptional) = args.all (·.isOptional) :=
    fun args => List.all_map ..
  unfold commandCandidates
  simp only [Command.ungated_arguments, ArgumentSource.remaining_ungated, commandNames_ungated,
    argumentFlags_ungated, positionalCandidates_ungated, hoptional]
  cases pending <;> rfl

theorem candidates_ungated (state : LineState) :
    p.ungated.candidates l state.ungated = p.candidates l state := by
  cases state with
  | root =>
    exact congrArg (fun names => (⟨names, [], []⟩ : Candidates)) (p.commandNames_ungated l none)
  | inCommand id bound pending =>
    have hget := p.get?_registry_ungated id
    cases hc : p.registry.get? id with
    | none =>
      rw [hc, Option.map_none] at hget
      cases pending with
      | value a => rfl
      | none | run a count =>
        simp only [LineState.ungated, Pending.ungated, candidates, hget, hc]
    | some c =>
      rw [hc, Option.map_some] at hget
      have hcommand := p.commandCandidates_ungated l id c bound pending
      cases pending with
      | value a => rfl
      | none | run a count =>
        simpa only [LineState.ungated, Pending.ungated, candidates, hget, hc] using hcommand

theorem namedArgument?_ungated (id : CommandId) (bound : List BoundArgument) (name : String) :
    p.ungated.namedArgument? l id bound name =
      (p.namedArgument? l id bound name).map Argument.ungated := by
  have hnames : p.ungated.registry.argumentNames l id = p.registry.argumentNames l id :=
    funext fun a => p.registry.argumentNames_ungated l id a
  unfold namedArgument?
  rw [get?_registry_ungated, hnames]
  cases p.registry.get? id with
  | none => rfl
  | some c =>
    rw [Option.map_some, Option.bind_some, Option.bind_some, Command.ungated_arguments,
      ArgumentSource.remaining_ungated, List.find?_map]
    rfl

/-! ### Suggestions -/

theorem literalTarget?_ungated (token : String) (id : CommandId) (bound : List BoundArgument)
    (pending : Pending) : p.ungated.literalTarget? l token id bound pending.ungated =
      p.literalTarget? l token id bound pending := by
  have hconfig : p.ungated.config = p.config := rfl
  unfold literalTarget?
  rw [hconfig]
  cases if p.config.assignSyntax then assignedName? token else none with
  | some name =>
    dsimp only
    rw [namedArgument?_ungated]
    cases p.namedArgument? l id bound name <;> rfl
  | none =>
    cases pending with
    | value a => rfl
    | run a count => rfl
    | none =>
      dsimp only [Pending.ungated]
      rw [get?_registry_ungated]
      cases p.registry.get? id with
      | none => rfl
      | some c =>
        rw [Option.map_some, Option.bind_some, Option.bind_some, Command.ungated_arguments,
          ArgumentSource.remaining_ungated, positionalTarget?_ungated]

theorem completeLiteral_ungated (text token : String) (failure : LiteralFailure)
    (state : LineState) : p.ungated.completeLiteral l text token failure state.ungated =
      p.completeLiteral l text token failure state := by
  unfold completeLiteral
  cases failure.kind with
  | tokenExpected expected =>
    cases state with
    | root => rfl
    | inCommand id bound pending =>
      dsimp only [LineState.ungated]
      rw [literalTarget?_ungated]
  | _ => rfl

theorem completeAssignment_ungated (name typed : String) (state : LineState) :
    p.ungated.completeAssignment l name typed state.ungated =
      p.completeAssignment l name typed state := by
  cases state with
  | root => rfl
  | inCommand id bound pending =>
    dsimp only [LineState.ungated, completeAssignment]
    rw [namedArgument?_ungated]
    cases p.namedArgument? l id bound name <;> rfl

theorem completeAt_ungated (context : ParseContext) (text : String) (place : TypedPlace) :
    p.ungated.completeAt context.uninformed text place = p.completeAt context text place := by
  have hconfig : p.ungated.config = p.config := rfl
  have hlocalizer : context.uninformed.localizer = context.localizer := rfl
  cases place with
  | word consumed typed =>
    dsimp only [completeAt]
    rw [parsePartial_ungated, hconfig, hlocalizer]
    cases p.parsePartial context consumed with
    | error f => rfl
    | ok state =>
      dsimp only [Except.map]
      rw [candidates_ungated]
  | assignment consumed name typed =>
    dsimp only [completeAt]
    rw [parsePartial_ungated, hlocalizer]
    cases p.parsePartial context consumed with
    | error f => rfl
    | ok state => exact p.completeAssignment_ungated context.localizer name typed state
  | literal consumed token failure =>
    dsimp only [completeAt]
    rw [parsePartial_ungated, hlocalizer]
    cases p.parsePartial context consumed with
    | error f => rfl
    | ok state => exact p.completeLiteral_ungated context.localizer text token failure state

/-- **Completion looks neither at requirements nor at information.** -/
theorem complete_ungated (context : ParseContext) (text : String) (cursor : Nat) :
    p.ungated.complete context.uninformed text cursor = p.complete context text cursor := by
  have hconfig : p.ungated.config = p.config := rfl
  unfold complete completeLine
  rw [hconfig]
  cases TypedPlace.locate? p.config (textBefore text cursor) with
  | none => rfl
  | some place => exact congrArg withoutRepeats (p.completeAt_ungated context _ place)

/-! ### Parsing and completion -/

theorem ungated_ungated : p.ungated.ungated = p.ungated :=
  congrArg (fun r => (⟨r, p.config⟩ : CommandParser)) p.registry.ungated_ungated

theorem parse_eq_ok_iff (hr : p.registry.WellFormed) {context : ParseContext} {text : String}
    {cmds : List BoundCommand} : p.parse context text = .ok cmds ↔
      p.ungated.parse context.uninformed text = .ok (cmds.map BoundCommand.ungated) ∧
        ∀ c ∈ cmds, p.registry.Permits context c :=
  LineEnv.parseCommands_eq_ok_iff hr (p.config.tokensOf text) cmds

/-- What a line gives may be used where nothing is required. -/
theorem permits_ungated {r : Registry} {context : ParseContext} {c : BoundCommand}
    (h : r.Permits context c) : r.ungated.Permits context c.ungated := by
  have hget : r.ungated.get? c.id = some c.command.ungated := by
    rw [Registry.get?_ungated, h.1, Option.map_some]
  refine ⟨hget, ?_, ?_, ?_⟩
  · exact fun i hi => by cases hi
  · exact fun r hr => by cases hr
  · intro b _ _ a ha _ r hr
    have ha : a ∈ c.command.arguments.all.map Argument.ungated := by
      rwa [← ArgumentSource.all_ungated]
    obtain ⟨d, -, rfl⟩ := List.mem_map.mp ha
    cases hr

/-- **What commands require decides whether a line is accepted, and nothing else.** The commands of
an accepted line are those that it has without requirements, down to their declarations; and what a
line gives without requirements are commands of the registry, each of which may or may not be
used. -/
theorem requirements_only_gate (calls : List Command) (config : ParserConfig)
    (context : ParseContext) :
    let p : CommandParser := ⟨.afterAll calls, config⟩
    let q : CommandParser := ⟨.afterAll (calls.map Command.ungated), config⟩
    (∀ text cmds, p.parse context text = .ok cmds ↔
      q.parse context text = .ok (cmds.map BoundCommand.ungated) ∧
        ∀ c ∈ cmds, p.registry.Permits context c) ∧
    (∀ text ds, q.parse context text = .ok ds →
      ∃ cmds : List BoundCommand, cmds.map BoundCommand.ungated = ds ∧
        ∀ c ∈ cmds, p.registry.get? c.id = some c.command) ∧
    (∀ text cursor, q.complete context text cursor = p.complete context text cursor) ∧
    ∀ information text cursor,
      p.complete ⟨information, context.localizer⟩ text cursor = p.complete context text cursor := by
  intro p q
  have hq : q = p.ungated :=
    congrArg (fun r => (⟨r, config⟩ : CommandParser)) (Registry.afterAll_ungated calls)
  have hqq : q.ungated = p.ungated := by rw [hq, ungated_ungated]
  have hp : p.registry.WellFormed := (Registry.sound_tabled_afterAll calls).1.toWellFormed
  have hwq : q.registry.WellFormed :=
    (Registry.sound_tabled_afterAll (calls.map Command.ungated)).1.toWellFormed
  refine ⟨fun text cmds => ?_, fun text ds h => ?_, fun text cursor => ?_,
    fun information text cursor => ?_⟩
  · have htwice : (cmds.map BoundCommand.ungated).map BoundCommand.ungated =
        cmds.map BoundCommand.ungated := by
      rw [List.map_map]
      exact List.map_congr_left fun c _ => c.ungated_ungated
    rw [p.parse_eq_ok_iff hp, q.parse_eq_ok_iff hwq, hqq, htwice]
    constructor
    · rintro ⟨hparse, hall⟩
      refine ⟨⟨hparse, fun d hd => ?_⟩, hall⟩
      obtain ⟨c, hc, rfl⟩ := List.mem_map.mp hd
      exact hq ▸ permits_ungated (hall c hc)
    · rintro ⟨⟨hparse, -⟩, hall⟩
      exact ⟨hparse, hall⟩
  · refine Registry.exists_map_ungated fun d hd => ?_
    have hregistry : p.registry.ungated = q.registry := by rw [hq]; rfl
    rw [hregistry]
    exact registered_of_parse h hd
  · rw [← q.complete_ungated, hqq, complete_ungated]
  · rw [← p.complete_ungated, ← p.complete_ungated context]
    rfl

/-- Only an operator may disconnect a player; anyone may type how. -/
example :
    let p : CommandParser := ⟨.afterAll Demo.commands, default⟩
    (p.parse (Demo.context true) "kick ana").toBool = true ∧
      (p.parse (Demo.context false) "kick ana").toBool = false ∧
      p.complete (Demo.context false) "kic" 3 = ["kick"] := by
  decide +kernel

end CommandParser
end CommandConsole
