/-
# Requirements only gate a line

A line is resolved and bound as if nothing were required and nothing known. What
a command and its arguments require is looked at afterwards, for each command
of the line: a line is refused for it, but never read in another way. What is
open at the end of a partial line does not depend on it at all.

Key definitions: `ParseContext.uninformed`, `BoundCommand.ungated`, `LineEnv.ungated`,
`ParseContext.Permits`, `Registry.Permits`.
Key theorems: `LineEnv.bindCommand_ungated`, `LineEnv.parseCommands_eq_ok_iff`,
`LineEnv.openCommand_ungated`.
-/
import CommandConsole.Proofs.Command.Ungated
import CommandConsole.Proofs.Line.Bound
import CommandConsole.Proofs.Line.Resumption

namespace CommandConsole

/-- The context without information. -/
def ParseContext.uninformed (context : ParseContext) : ParseContext := ⟨[], context.localizer⟩

/-- The bound command, as the declaration without requirements gives it. -/
def BoundCommand.ungated (c : BoundCommand) : BoundCommand :=
  { c with command := c.command.ungated }

theorem BoundCommand.ungated_ungated (c : BoundCommand) : c.ungated.ungated = c.ungated := by
  simp only [ungated, Command.ungated_ungated]

def LineState.ungated : LineState → LineState
  | .root => .root
  | .inCommand id bound pending => .inCommand id bound pending.ungated

namespace LineEnv

/-- The same line, where nothing is required and nothing known. -/
def ungated (env : LineEnv) : LineEnv :=
  ⟨env.text, env.registry.ungated, env.config, env.context.uninformed⟩

variable {env : LineEnv} {t : Token} {rest : Tokens} {r : Resolved} {c : Command}
  {b : BindEnv.Binding} {bound : List BoundArgument} {span : Span}

/-! ### Names -/

theorem childMatch_ungated (env : LineEnv) (parent : Option CommandId) (t : Token) :
    env.ungated.childMatch parent t = env.childMatch parent t := by
  unfold childMatch
  cases t.word? with
  | none => rfl
  | some word => exact env.registry.matchChild_ungated env.context.localizer parent word

theorem ambiguous_ungated (env : LineEnv) (t : Token) (ids : List CommandId) :
    env.ungated.ambiguous t ids = env.ambiguous t ids := by
  have hnames : env.ungated.registry.candidateNames ids = env.registry.candidateNames ids :=
    List.map_congr_left fun id _ => env.registry.fullName_ungated id
  rw [ambiguous, hnames]
  rfl

theorem descend_ungated (env : LineEnv) : ∀ (id : CommandId) (span : Span) (ts : Tokens),
    env.ungated.descend id span ts = env.descend id span ts
  | _, _, .finished _ => rfl
  | _, _, .broken _ _ => rfl
  | id, span, .more t rest => by
    rw [descend, descend, childMatch_ungated]
    cases env.childMatch (some id) t with
    | none => rfl
    | one child => exact descend_ungated env child (span.cover t.span) rest
    | many ids => exact congrArg Except.error (ambiguous_ungated env t ids)

theorem resolve_ungated (env : LineEnv) (t : Token) (rest : Tokens) :
    env.ungated.resolve t rest = env.resolve t rest := by
  unfold resolve
  rw [childMatch_ungated]
  cases env.childMatch none t with
  | none => rfl
  | one id => exact descend_ungated env id t.span rest
  | many ids => exact congrArg Except.error (ambiguous_ungated env t ids)

/-! ### Commands -/

theorem bindEnv_ungated (env : LineEnv) (mode : BindMode) (id : CommandId) (c : Command) :
    env.ungated.bindEnv mode id c.ungated = (env.bindEnv mode id c).ungated := by
  have hnames : env.ungated.registry.argumentNames env.context.localizer id =
      env.registry.argumentNames env.context.localizer id :=
    funext fun a => env.registry.argumentNames_ungated env.context.localizer id a
  have hname : env.ungated.registry.fullName id = env.registry.fullName id :=
    env.registry.fullName_ungated id
  have hlocalizer : env.ungated.context.localizer = env.context.localizer := rfl
  unfold bindEnv
  rw [hname, hlocalizer, hnames]
  rfl

theorem nameable_bindEnv (env : LineEnv) (mode : BindMode) (id : CommandId) (c : Command) :
    (env.bindEnv mode id c).Nameable := fun _ => rfl

/-- **A command of a line is resolved and bound alike**, with or without what it requires. -/
theorem bindCommand_ungated (env : LineEnv) (mode : BindMode) (t : Token) (rest : Tokens) :
    env.ungated.bindCommand mode t rest =
      (env.bindCommand mode t rest).map fun q => (q.1, q.2.1.ungated, q.2.2.ungated) := by
  unfold bindCommand
  rw [resolve_ungated]
  cases env.resolve t rest with
  | error f => rfl
  | ok r =>
    have hget : env.ungated.registry.get? r.id = (env.registry.get? r.id).map Command.ungated :=
      env.registry.get?_ungated r.id
    dsimp only
    rw [hget]
    cases env.registry.get? r.id with
    | none => rfl
    | some c =>
      dsimp only [Option.map_some]
      rw [bindEnv_ungated, BindEnv.bind_ungated (nameable_bindEnv env mode r.id c)]
      cases (env.bindEnv mode r.id c).bind r.cursor <;> rfl

theorem boundCommand_ungated (env : LineEnv) (r : Resolved) (c : Command)
    (b : BindEnv.Binding) :
    env.ungated.boundCommand r c.ungated b.ungated = (env.boundCommand r c b).ungated := by
  have hname : env.ungated.registry.fullName r.id = env.registry.fullName r.id :=
    env.registry.fullName_ungated r.id
  unfold boundCommand
  rw [hname]
  rfl

end LineEnv

/-! ### Gates -/

/-- Nothing that a command and the arguments given to it require is missing. -/
structure ParseContext.Permits (context : ParseContext) (c : Command) (bound : List BoundArgument) :
    Prop where
  information : ∀ i ∈ c.requiredInformation, (context.find? i).isSome = true
  command : ∀ r ∈ c.requirements, r.isSatisfied context = true
  arguments : ∀ b ∈ bound, b.origin ≠ .default → ∀ a ∈ c.arguments.all, a.id = b.id →
    ∀ r ∈ a.requirements, r.isSatisfied context = true

/-- A command that a line gives is the one registered with its id, and may be used in the
context. -/
def Registry.Permits (r : Registry) (context : ParseContext) (c : BoundCommand) : Prop :=
  r.get? c.id = some c.command ∧ context.Permits c.command c.arguments

/-- Only one bound command of a registry is left as it is without requirements: its declaration is
found again by its id. -/
theorem BoundCommand.eq_of_ungated {r : Registry} {c d : BoundCommand}
    (hc : r.get? c.id = some c.command) (hd : r.get? d.id = some d.command)
    (h : c.ungated = d.ungated) : c = d := by
  obtain ⟨name, id, command, arguments, span⟩ := c
  obtain ⟨name', id', command', arguments', span'⟩ := d
  simp only [ungated, mk.injEq] at h
  obtain ⟨rfl, rfl, -, rfl, rfl⟩ := h
  obtain rfl : command = command' := Option.some.inj (hc.symm.trans hd)
  rfl

/-- Bound commands of the registry without requirements are those of the registry, without what
their declarations require. -/
theorem Registry.exists_map_ungated {r : Registry} : ∀ {ds : List BoundCommand},
    (∀ d ∈ ds, r.ungated.get? d.id = some d.command) →
      ∃ cmds : List BoundCommand, cmds.map BoundCommand.ungated = ds ∧
        ∀ c ∈ cmds, r.get? c.id = some c.command
  | [], _ => ⟨[], rfl, List.forall_mem_nil _⟩
  | d :: ds, h => by
    obtain ⟨hd, hds⟩ := List.forall_mem_cons.mp h
    obtain ⟨cmds, rfl, hcmds⟩ := exists_map_ungated hds
    rw [get?_ungated] at hd
    obtain ⟨c, hget, hc⟩ := Option.map_eq_some_iff.mp hd
    refine ⟨{ d with command := c } :: cmds, ?_, List.forall_mem_cons.mpr ⟨hget, hcmds⟩⟩
    rw [List.map_cons, BoundCommand.ungated, hc]

namespace LineEnv

variable {env : LineEnv} {r : Resolved} {c : Command} {bound : List BoundArgument} {span : Span}

theorem unsatisfied?_eq_none {rs : List Requirement} :
    env.unsatisfied? rs = none ↔ ∀ r ∈ rs, r.isSatisfied env.context = true := by
  simp [unsatisfied?]

/-- The requirements of a bound argument are those of the argument that is declared with its id. -/
theorem argumentGate?_eq_none {args : List Argument} (ht : Argument.Tellable args)
    {b : BoundArgument} :
    env.argumentGate? args b = none ↔ (b.origin ≠ .default → ∀ a ∈ args, a.id = b.id →
      ∀ r ∈ a.requirements, r.isSatisfied env.context = true) := by
  unfold argumentGate?
  by_cases horigin : b.origin = .default
  · rw [if_pos horigin]
    exact iff_of_true rfl fun hne => absurd horigin hne
  · rw [if_neg horigin]
    cases hfind : args.find? fun a => a.id == b.id with
    | none =>
      have hnone : ∀ a ∈ args, a.id ≠ b.id := by simpa using List.find?_eq_none.mp hfind
      exact iff_of_true rfl fun _ a ha hid => absurd hid (hnone a ha)
    | some a =>
      have ha := List.mem_of_find?_eq_some hfind
      have hid : a.id = b.id := by simpa using List.find?_some hfind
      rw [Option.bind_some, Option.map_eq_none_iff, unsatisfied?_eq_none]
      constructor
      · intro h _ d hd hdid
        rwa [ht.eq_of_id hd ha (hdid.trans hid.symm)]
      · exact fun h => h horigin a ha hid

/-- **A command passes its gate exactly if nothing it requires is missing.** -/
theorem gate?_eq_none_iff (ht : Argument.Tellable c.arguments.all) :
    env.gate? c span bound = none ↔ env.context.Permits c bound := by
  have hinformation : c.requiredInformation.find? (fun i => (env.context.find? i).isNone) = none ↔
      ∀ i ∈ c.requiredInformation, (env.context.find? i).isSome = true := by
    simp [Option.isSome_iff_ne_none]
  simp only [gate?_eq_none, hinformation, unsatisfied?_eq_none, argumentGate?_eq_none ht]
  exact ⟨fun h => ⟨h.1, h.2.1, h.2.2⟩, fun h => ⟨h.1, h.2, h.3⟩⟩

/-- A command that a line gives passes its gate exactly if it may be used. -/
theorem checkGate_eq_ok_iff (hr : env.registry.WellFormed) {mode : BindMode} {t : Token}
    {rest : Tokens} {b : BindEnv.Binding} (h : env.bindCommand mode t rest = .ok (r, c, b)) :
    env.checkGate r c b.state.bound = .ok () ↔
      env.registry.Permits env.context (env.boundCommand r c b) := by
  obtain ⟨-, hget, -⟩ := bindCommand_eq_ok h
  rw [checkGate_eq_ok, gate?_eq_none_iff (hr.tellable hget)]
  exact ⟨fun hpermits => ⟨hget, hpermits⟩, fun h => h.2⟩

/-- Where nothing is required, no command is refused. -/
theorem checkGate_ungated (env : LineEnv) (r : Resolved) (c : Command)
    (bound : List BoundArgument) : env.ungated.checkGate r c.ungated bound = .ok () := by
  refine checkGate_eq_ok.mpr (gate?_eq_none.mpr ⟨rfl, rfl, fun b _ => ?_⟩)
  unfold argumentGate?
  split
  · rfl
  · rw [Command.ungated_arguments, ArgumentSource.all_ungated, List.find?_map]
    cases c.arguments.all.find? ((fun a => a.id == b.id) ∘ Argument.ungated) <;> rfl

/-! ### Lines -/

/-- **A line is parsed exactly if it is parsed without requirements, to the same commands, and
each of them may be used.** -/
theorem parseCommands_eq_ok_iff (hr : env.registry.WellFormed) (ts : Tokens) :
    ∀ cmds : List BoundCommand, env.parseCommands ts = .ok cmds ↔
      env.ungated.parseCommands ts = .ok (cmds.map BoundCommand.ungated) ∧
        ∀ d ∈ cmds, env.registry.Permits env.context d := by
  fun_induction env.parseCommands ts with
  | case1 stop =>
    intro cmds
    rw [parseCommands]
    constructor
    · intro h
      cases h
      exact ⟨rfl, by simp⟩
    · rintro ⟨h, -⟩
      rw [List.map_eq_nil_iff.mp (Except.ok.inj h).symm]
  | case2 start failure =>
    intro cmds
    rw [parseCommands]
    exact iff_of_false (fun h => by cases h) (fun h => by cases h.1)
  | case3 t rest ht ih =>
    intro cmds
    rw [parseCommands_separator ht]
    exact ih cmds
  | case4 t rest ht f hbind =>
    intro cmds
    have hungated := bindCommand_ungated env .complete t rest
    rw [hbind] at hungated
    rw [parseCommands_error (by simpa using ht) hungated]
    exact iff_of_false (fun h => by cases h) (fun h => by cases h.1)
  | case5 t rest ht r c b hbind f hgate =>
    intro cmds
    have hungated := bindCommand_ungated env .complete t rest
    rw [hbind] at hungated
    rw [parseCommands_command (by simpa using ht) hungated (checkGate_ungated env r c _)]
    refine iff_of_false (fun h => by cases h) ?_
    rintro ⟨h, hall⟩
    rw [boundCommand_ungated] at h
    obtain ⟨cmds', -, hcmds⟩ := exists_of_map_eq_ok h
    obtain ⟨d, ds, rfl, hd, -⟩ := List.map_eq_cons_iff.mp hcmds.symm
    have hpermits := hall d List.mem_cons_self
    obtain rfl := BoundCommand.eq_of_ungated hpermits.1 (bindCommand_eq_ok hbind).2.1 hd
    rw [← checkGate_eq_ok_iff hr hbind, hgate] at hpermits
    cases hpermits
  | case6 t rest ht r c b hbind hgate ih =>
    intro cmds
    have hungated := bindCommand_ungated env .complete t rest
    rw [hbind] at hungated
    have hhead := (checkGate_eq_ok_iff hr hbind).mp hgate
    rw [parseCommands_command (by simpa using ht) hungated (checkGate_ungated env r c _),
      boundCommand_ungated]
    constructor
    · intro h
      obtain ⟨cmds', hrest, rfl⟩ := exists_of_map_eq_ok h
      obtain ⟨hparse, hall⟩ := (ih cmds').mp hrest
      exact ⟨congrArg (Except.map _) hparse, List.forall_mem_cons.mpr ⟨hhead, hall⟩⟩
    · rintro ⟨h, hall⟩
      obtain ⟨cmds', hparse, hcmds⟩ := exists_of_map_eq_ok h
      obtain ⟨d, ds, rfl, hd, rfl⟩ := List.map_eq_cons_iff.mp hcmds.symm
      obtain rfl := BoundCommand.eq_of_ungated (hall d List.mem_cons_self).1 hhead.1 hd
      have hrest := (ih ds).mpr ⟨hparse, (List.forall_mem_cons.mp hall).2⟩
      exact congrArg (Except.map _) hrest

/-- **What is open at the end of a partial line** does not depend on requirements or information. -/
theorem openCommand_ungated (env : LineEnv) (state : LineState) (ts : Tokens) :
    env.ungated.openCommand state.ungated ts =
      (env.openCommand state ts).map LineState.ungated := by
  fun_induction env.openCommand state ts with
  | case1 state stop =>
    rw [openCommand]
    rfl
  | case2 state start failure =>
    rw [openCommand]
    rfl
  | case3 state t rest ht ih =>
    rw [openCommand_separator ht]
    exact ih
  | case4 state t rest ht f hbind =>
    have hungated := bindCommand_ungated env .partialLine t rest
    rw [hbind] at hungated
    rw [openCommand_error (by simpa using ht) hungated]
    rfl
  | case5 state t rest ht r c b hbind ih =>
    have hungated := bindCommand_ungated env .partialLine t rest
    rw [hbind] at hungated
    have hstate : stateAfter r b.ungated = (stateAfter r b).ungated := by
      have hcursor : b.ungated.cursor = b.cursor := rfl
      have hseparator : b.ungated.bySeparator = b.bySeparator := rfl
      unfold stateAfter
      rw [hcursor, hseparator]
      split <;> rfl
    rw [openCommand_command (by simpa using ht) hungated]
    exact hstate ▸ ih

end LineEnv
end CommandConsole
