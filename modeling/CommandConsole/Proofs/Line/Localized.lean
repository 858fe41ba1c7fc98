/-
# Declared and localized names on a line

A registry sees to it that no two arguments of a command declare the same name.
A localizer is not asked: the name that it adds to one argument may be one that
another declares. Such a name goes to whichever of the two comes first among the
arguments that are still unbound. Only where none in front has the name added
does a declared name mean the argument that declares it.

Key definition: `Registry.addedNames`.
Key theorem: `CommandParser.bindToken_declared_iff`.
-/
import CommandConsole.Line.Parse
import CommandConsole.Proofs.Binding.Localized
import CommandConsole.Proofs.Command.History

namespace CommandConsole

/-- The long names of an argument that it does not declare. -/
def Registry.addedNames (r : Registry) (l : Option Localizer) (id : CommandId) (a : Argument) :
    List String :=
  Localizer.namesFor l (argumentKey (r.fullName id) a.longName)

/-- A command with a fixed list of arguments knows them by their declared and added names. -/
theorem LineEnv.knowsAlso_of_static {env : LineEnv} (hr : env.registry.WellFormed) {id : CommandId}
    {c : Command} {args : List Argument} (hget : env.registry.get? id = some c)
    (hargs : c.arguments = .static args) (mode : BindMode) :
    (env.bindEnv mode id c).KnowsAlso args
      (env.registry.addedNames env.context.localizer id) := by
  refine ⟨hargs, fun a => rfl, ?_⟩
  have htellable := hr.tellable hget
  rwa [hargs] at htellable

/-- **Where a declared name goes.** In any state of the binder, a token with a name that an unbound
argument declares goes to the first unbound argument in front of it that the localizer adds the name
to, and to that argument itself if there is none. So it goes to the argument that declares it,
whatever is given for it, exactly if there is none. -/
theorem CommandParser.bindToken_declared_iff {p : CommandParser} {calls : List Command}
    (hregistry : p.registry = .afterAll calls) {id : CommandId} {c : Command}
    {args : List Argument} (hget : p.registry.get? id = some c) (hargs : c.arguments = .static args)
    (context : ParseContext) (text : String) (mode : BindMode) {s : BindState} {a : Argument}
    {earlier later : List Argument}
    (hremaining : ((p.lineEnv context text).bindEnv mode id c).remaining s = earlier ++ a :: later)
    {n : String} (hn : n ∈ a.names) :
    (∀ t assigned cursor, t.kind = .named n assigned →
      ((p.lineEnv context text).bindEnv mode id c).GoesTo s
        (claimant (p.registry.addedNames context.localizer id) earlier a n)
        (((p.lineEnv context text).bindEnv mode id c).bindToken s t cursor)) ∧
    ((∀ t assigned cursor, t.kind = .named n assigned →
      ((p.lineEnv context text).bindEnv mode id c).GoesTo s a
        (((p.lineEnv context text).bindEnv mode id c).bindToken s t cursor)) ↔
      ∀ b ∈ earlier, n ∉ p.registry.addedNames context.localizer id b) := by
  have hr : p.registry.WellFormed := by
    rw [hregistry]
    exact (Registry.sound_tabled_afterAll calls).1.toWellFormed
  have hknows : ((p.lineEnv context text).bindEnv mode id c).KnowsAlso args
      (p.registry.addedNames context.localizer id) :=
    LineEnv.knowsAlso_of_static hr hget hargs mode
  exact ⟨fun t assigned cursor hk => BindEnv.bindToken_claimant hknows hremaining hn hk,
    BindEnv.goesTo_declared_iff hknows hremaining hn⟩

/-- An optional number. -/
def Demo.bound (id : String) : Argument := { Argument.new id .int with isOptional := true }

/-- A command with two optional numbers, named in two languages. -/
def Demo.cut : Command := ((Command.new "cut").withArgument (bound "end")).withArgument (bound "fin")

def Demo.cutParser : CommandParser := ⟨.afterAll [cut], default⟩

/-- The names are added to the first of the two numbers. -/
def Demo.cutContext (names : List String) : ParseContext :=
  ⟨[], some ((default : LocaleTable).withNames "argument.cut.end" names).toLocalizer⟩

/-- With a name of its own added to the first number, `--fin` means the second one. -/
theorem CommandParser.bindToken_declared_iff_cut :
    Demo.cutParser.registry.get? 0 = some Demo.cut ∧
    ∀ t assigned cursor, t.kind = .named "fin" assigned →
      ((Demo.cutParser.lineEnv (Demo.cutContext ["ende"]) "").bindEnv .complete 0 Demo.cut).GoesTo
        (.start 3) (Demo.bound "fin")
        (((Demo.cutParser.lineEnv (Demo.cutContext ["ende"]) "").bindEnv .complete 0
          Demo.cut).bindToken (.start 3) t cursor) := by
  have hregistry : Demo.cutParser.registry = .afterAll [Demo.cut] := rfl
  have hget : Demo.cutParser.registry.get? 0 = some Demo.cut := rfl
  have hremaining : ((Demo.cutParser.lineEnv (Demo.cutContext ["ende"]) "").bindEnv .complete 0
      Demo.cut).remaining (.start 3) = [Demo.bound "end"] ++ Demo.bound "fin" :: [] := rfl
  obtain ⟨-, hiff⟩ := bindToken_declared_iff hregistry hget rfl
    (Demo.cutContext ["ende"]) "" .complete hremaining (n := "fin") List.mem_cons_self
  refine ⟨hget, hiff.mpr fun b hb => ?_⟩
  obtain rfl := List.mem_singleton.mp hb
  decide +kernel

/-- With the name of the second number added to the first one, `--fin` is taken by the first,
although neither is bound yet. -/
theorem CommandParser.declared_name_taken :
    Registry.empty.registerAll [Demo.cut] = .ok Demo.cutParser.registry ∧
    Demo.cut.arguments.remaining [] = [Demo.bound "end", Demo.bound "fin"] ∧
    "fin" ∈ (Demo.bound "fin").names ∧
    (Demo.cutParser.parse (Demo.cutContext ["fin"]) "cut --fin=2").toOption.map
        (fun commands => commands.map fun c => c.arguments.map fun b => (b.id, b.origin)) =
      some [[("end", .named)]] := by
  refine ⟨?_, rfl, List.mem_cons_self, by decide +kernel⟩
  exact Registry.registerAll_toOption (by decide +kernel)

end CommandConsole
