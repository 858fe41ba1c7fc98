/-
# What a command leaves unbound

At the end of a command the source of its arguments is asked for those that are
unbound. None of them may be required, and each that has something to fall back
to gets it. So what is unbound behind that can be done without, as far as the
source has named it. The source is not asked again, and a supplier that looks at
the defaults may name more.

Key definitions: `Argument.Dispensable`, `BoundCommand.given`.
Key theorem: `CommandParser.parse_closed`.
-/
import CommandConsole.Proofs.Line.Chain
import CommandConsole.Proofs.Line.Completeness

namespace CommandConsole

/-- A command is complete without the argument. -/
structure Argument.Dispensable (a : Argument) : Prop where
  optional : a.isOptional = true
  single : a.multiplicity = .single
  noDefault : a.default = none

/-- The arguments that the line gave something for. -/
def BoundCommand.given (c : BoundCommand) : List BoundArgument :=
  c.arguments.filter fun b => b.origin ≠ .default

theorem ArgumentSource.mem_remaining {source : ArgumentSource} {bound : List BoundArgument}
    {a : Argument} :
    a ∈ source.remaining bound ↔ a ∈ source.candidates bound ∧ ∀ b ∈ bound, b.id ≠ a.id := by
  simp [remaining]

/-- **What the source named before the defaults were bound can be done without**, if it is unbound
behind them. -/
theorem BindEnv.dispensable_of_finish {env : BindEnv} (hm : env.mode = .complete)
    {s s' : BindState} (h : env.finish s = .ok s') {a : Argument}
    (ha : a ∈ env.source.remaining s'.bound) (hnamed : a ∈ env.source.candidates s.bound) :
    a.Dispensable := by
  obtain ⟨rfl, hoptional⟩ := finish_complete hm h
  obtain ⟨-, hfree⟩ := ArgumentSource.mem_remaining.mp ha
  have hbefore : a ∈ env.remaining s :=
    ArgumentSource.mem_remaining.mpr ⟨hnamed, fun b hb => hfree b (mem_bindDefaults.mpr (.inl hb))⟩
  have hnone : a.fallback? = none := by
    refine Option.eq_none_iff_forall_ne_some.mpr fun v hv => ?_
    exact hfree _ (mem_bindDefaults.mpr (.inr ⟨a, hbefore, v, hv, rfl⟩)) rfl
  obtain ⟨hdefault, hsingle⟩ := Argument.fallback?_eq_none_iff.mp hnone
  exact ⟨hoptional a hbefore, hsingle, hdefault⟩

/-- **A command that is returned lacks nothing that its source has named.** Whatever arguments the
source still has for it can be done without, those apart that it did not name until the defaults
were bound. A list of declared arguments names them all from the start. -/
theorem CommandParser.parse_closed {p : CommandParser} {context : ParseContext} {text : String}
    {cmds : List BoundCommand} (h : p.parse context text = .ok cmds) {c : BoundCommand}
    (hc : c ∈ cmds) :
    ∃ declared, p.registry.get? c.id = some declared ∧
      ∀ a ∈ declared.arguments.remaining c.arguments,
        a ∈ declared.arguments.candidates c.given → a.Dispensable := by
  obtain ⟨t, rest, r, declared, b, -, hbind, -, rfl⟩ :=
    LineEnv.mem_parseCommands (p.config.tokensOf text) h hc
  obtain ⟨-, hget, -⟩ := LineEnv.bindCommand_eq_ok hbind
  obtain ⟨_, _, _, s, _, _, -, -, -, -, -, -, hA, hfinish⟩ :=
    LineEnv.bindCommand_tokens (P := fun _ => True) hbind fun _ _ _ => trivial
  obtain ⟨hstate, -⟩ := BindEnv.finish_complete rfl hfinish
  have hgiven : ((p.lineEnv context text).boundCommand r declared b).given = s.bound := by
    rw [BoundCommand.given, LineEnv.boundCommand, hstate]
    exact BindEnv.filter_bindDefaults hA.ledger.origin_ne _
  refine ⟨declared, hget, fun a ha hnamed => ?_⟩
  rw [hgiven] at hnamed
  exact BindEnv.dispensable_of_finish rfl hfinish ha hnamed

/-- A port is asked for when the protocol is known to be the usual one. -/
def Demo.listenArguments : ArgumentSupplier :=
  let protocol := (Argument.new "protocol" .string).withDefault (.string "tcp")
  let port := Argument.new "port" .int
  let note := { Argument.new "note" .string with isOptional := true }
  { all := [protocol, port, note]
    remaining := fun bound =>
      match (bound.find? fun b => b.id == "protocol").bind fun b => b.value.asString? with
      | none => [protocol]
      | some name => if name = "tcp" then [port, note] else [note] }

def Demo.listen : Command :=
  { Demo.command "listen" "Wait for connections" [] with
    arguments := .dynamic Demo.listenArguments }

/-- The protocol and the port are given, and the note may stay unbound. -/
theorem CommandParser.parse_closed_listen : ∃ (cmds : List BoundCommand) (c : BoundCommand)
    (a : Argument), (Demo.parserOf Demo.listen).parse .empty "listen tcp 80" = .ok cmds ∧ c ∈ cmds ∧
    a ∈ Demo.listen.arguments.remaining c.arguments ∧ a.id = "note" ∧ a.Dispensable := by
  have hget : (Demo.parserOf Demo.listen).registry.get? 0 = some Demo.listen :=
    Registry.get?_registerAll (Registry.registerAll_toOption (by decide +kernel)) 0
  have hl : (((Demo.parserOf Demo.listen).parse .empty "listen tcp 80").toOption.bind (·[0]?)).map
      (fun c => (c.id, c.arguments.all fun b => b.origin != .default,
        (Demo.listen.arguments.remaining c.arguments).map (·.id))) = some (0, true, ["note"]) := by
    decide +kernel
  obtain ⟨cmds, c, hp, hmem, hdata⟩ := Except.exists_getElem hl
  obtain ⟨hid, hgiven, hunbound⟩ : c.id = 0 ∧ (∀ b ∈ c.arguments, b.origin ≠ .default) ∧
      (Demo.listen.arguments.remaining c.arguments).map (·.id) = ["note"] := by
    simpa using hdata
  obtain ⟨a, ha, hnote⟩ : ∃ a ∈ Demo.listen.arguments.remaining c.arguments, a.id = "note" :=
    List.mem_map.mp (hunbound ▸ List.mem_singleton_self _)
  obtain ⟨declared, hdeclared, hclosed⟩ := parse_closed hp hmem
  obtain rfl : declared = Demo.listen := Option.some.inj (hdeclared.symm.trans (hid ▸ hget))
  -- no default is bound here
  have hsame : c.given = c.arguments := List.filter_eq_self.mpr (by simpa using hgiven)
  refine ⟨cmds, c, a, hp, hmem, ha, hnote, hclosed a ha ?_⟩
  rw [hsame]
  exact (ArgumentSource.mem_remaining.mp ha).1

/-- The protocol has its default, and the port that the supplier asks for then is not asked for
again. -/
theorem CommandParser.parse_not_closed : ∃ (cmds : List BoundCommand) (c : BoundCommand)
    (a : Argument), (Demo.parserOf Demo.listen).parse .empty "listen" = .ok cmds ∧ c ∈ cmds ∧
    (Demo.parserOf Demo.listen).registry.get? c.id = some Demo.listen ∧
    a ∈ Demo.listen.arguments.remaining c.arguments ∧ a.isOptional = false := by
  have hget : (Demo.parserOf Demo.listen).registry.get? 0 = some Demo.listen :=
    Registry.get?_registerAll (Registry.registerAll_toOption (by decide +kernel)) 0
  have hl : (((Demo.parserOf Demo.listen).parse .empty "listen").toOption.bind (·[0]?)).map
      (fun c => (c.id, (Demo.listen.arguments.remaining c.arguments).map (·.isOptional))) =
        some (0, [false, true]) := by
    decide +kernel
  obtain ⟨cmds, c, hp, hmem, hdata⟩ := Except.exists_getElem hl
  obtain ⟨hid, hunbound⟩ := Prod.mk.inj hdata
  obtain ⟨a, ha, hrequired⟩ : ∃ a ∈ Demo.listen.arguments.remaining c.arguments,
      a.isOptional = false :=
    List.mem_map.mp (hunbound ▸ List.mem_cons_self)
  exact ⟨cmds, c, a, hp, hmem, hid ▸ hget, ha, hrequired⟩

end CommandConsole
