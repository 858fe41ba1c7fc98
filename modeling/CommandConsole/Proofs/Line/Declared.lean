/-
# Declared names can be typed

A registry lets through every name that is not empty and holds no blank. The
line with the full name of a command is read as the names on the way to the
command, and resolves to it with nothing left over, if each of these names can
be typed in front of the next ones, and in no other case: a name that begins a
group or a name, the separator, or an escape is let through and is lost. In the
same way two dashes and a long name of an argument are read as that name if no
value is assigned in it.

Key definition: `CommandParser.ResolvesAs`.
Key theorems: `CommandParser.resolvesAs_iff`, `CommandParser.declared_typable`.
-/
import CommandConsole.Line.Parse
import CommandConsole.Proofs.Line.Resolution
import CommandConsole.Proofs.Line.Truncation
import CommandConsole.Proofs.Token.Word

namespace CommandConsole

/-- The names on the way to a command are not empty and hold no blank. -/
theorem Registry.WellFormed.isWord_path {r : Registry} (hr : r.WellFormed) {id : CommandId}
    {words : List String} (h : r.Path id words) : ∀ w ∈ words, isWord w = true := by
  induction h with
  | root he hp =>
    intro w hw
    obtain rfl := List.mem_singleton.mp hw
    exact hr.names _ _ he _ List.mem_cons_self
  | child he hp h ih =>
    intro w hw
    rcases List.mem_append.mp hw with hw | hw
    · exact ih w hw
    · obtain rfl := List.mem_singleton.mp hw
      exact hr.names _ _ he _ List.mem_cons_self

namespace CommandParser

variable {p : CommandParser} {context : ParseContext} {id : CommandId} {words : List String}

/-- The line is read as one token for each of the words, and resolves to the command `id` with no
token left. -/
def ResolvesAs (p : CommandParser) (context : ParseContext) (line : String) (words : List String)
    (id : CommandId) : Prop :=
  ∃ t ts stop r, p.config.tokensOf line = .more t (.prepend ts (.finished stop)) ∧
    List.Forall₂ (fun w t => Token.word? t = some w) words (t :: ts) ∧
    (p.lineEnv context line).resolve t (.prepend ts (.finished stop)) = .ok r ∧
    r.id = id ∧ r.cursor.tokens = .finished stop

/-- **The line with the names on the way to a command resolves to the command exactly if each of
them can be typed.** -/
theorem resolvesAs_iff (hr : p.registry.WellFormed) (hlocal : context.localizer = none)
    (hpath : p.registry.Path id words) :
    p.ResolvesAs context (joined words) words id ↔ AllTypable p.config.tokenRules words := by
  rw [← Tokens.ofText_typable_iff (hr.isWord_path hpath)]
  constructor
  · rintro ⟨t, ts, stop, r, htokens, hwords, -⟩
    exact ⟨t :: ts, stop, htokens, hwords⟩
  · rintro ⟨ts, stop, htokens, hwords⟩
    obtain ⟨w, ws, rfl⟩ := List.exists_cons_of_ne_nil hpath.ne_nil
    obtain ⟨t, us, ht, hus, rfl⟩ := List.forall₂_cons_left_iff.mp hwords
    have hnames : (p.lineEnv context (joined (w :: ws))).Names (t :: us) id :=
      LineEnv.names_of_path hr hlocal hpath hwords
    -- nothing stands behind the names that could go on with them
    have hstop : ∀ u vs, Tokens.finished stop = .more u vs →
        (p.lineEnv context (joined (w :: ws))).childMatch (some id) u = .none :=
      fun _ _ h => by cases h
    obtain ⟨span, hres⟩ := hnames.resolve hstop
    exact ⟨t, us, stop, _, htokens, hwords, hres, rfl, rfl⟩

/-- Plain names resolve to their command. -/
theorem resolvesAs_of_plain (hr : p.registry.WellFormed) (hlocal : context.localizer = none)
    (hpath : p.registry.Path id words) (hplain : ∀ w ∈ words, p.config.tokenRules.Plain w) :
    p.ResolvesAs context (joined words) words id :=
  (resolvesAs_iff hr hlocal hpath).mpr (allTypable_of_plain hplain)

/-- **What a registry has accepted can be typed.** Without localized names, the line with the full
name of a command is read as the names on the way to it and resolves to it with no token left,
exactly if each of them can be typed in front of the next ones; and two dashes and a long name of
one of its arguments are read as that name with nothing assigned, exactly if there is no equals
sign in it where names are assigned to. -/
theorem declared_typable {commands : List Command}
    (hregistry : Registry.empty.registerAll commands = .ok p.registry)
    (hlocal : context.localizer = none) {c : Command} (hget : p.registry.get? id = some c) :
    (∃ words, p.registry.Path id words) ∧
    (∀ words, p.registry.Path id words → p.registry.fullName id = joined words ∧
      (p.ResolvesAs context (p.registry.fullName id) words id ↔
        AllTypable p.config.tokenRules words)) ∧
    ∀ a ∈ c.arguments.all, ∀ n ∈ a.names,
      ((∃ t stop, p.config.tokensOf ("--" ++ n) = .more t (.finished stop) ∧
        t.kind = .named n none) ↔ (p.config.assignSyntax = true → '=' ∉ n.toList)) := by
  have hr := Registry.WellFormed.empty.registerAll hregistry
  obtain ⟨e, he, -⟩ := Option.map_eq_some_iff.mp hget
  refine ⟨hr.exists_path id (Registry.lt_size he), fun words hpath => ?_, fun a ha n hn => ?_⟩
  · have hfull : p.registry.fullName id = joined words := hr.fullName_path hpath
    rw [hfull]
    exact ⟨rfl, resolvesAs_iff hr hlocal hpath⟩
  · exact Tokens.ofText_name_iff ((hr.tellable hget).words a ha n hn)

end CommandParser

/-- A command with a brace in its name, under one with brackets. -/
def Demo.listing : Command :=
  { (Command.new "-x\x7b").withArgument (.flag "dry-run" 'd') with parent := some "list[all]" }

def Demo.listings : List Command := [Command.new "list[all]", listing]

def Demo.listingParser : CommandParser :=
  ⟨(Registry.empty.registerAll listings).toOption.getD .empty, default⟩

/-- The brackets in the first name are its own, and the brace in the second one ends nowhere. -/
theorem CommandParser.declared_typable_listing :
    Registry.empty.registerAll Demo.listings = .ok Demo.listingParser.registry ∧
    ParseContext.empty.localizer = none ∧ Demo.listingParser.registry.get? 1 = Demo.listings[1]? ∧
    Demo.listingParser.registry.fullName 1 = "list[all] -x\x7b" ∧
    Demo.listingParser.ResolvesAs .empty "list[all] -x\x7b" ["list[all]", "-x\x7b"] 1 ∧
    ∃ t stop, Demo.listingParser.config.tokensOf "--dry-run" = .more t (.finished stop) ∧
      t.kind = .named "dry-run" none := by
  have hregistry : Registry.empty.registerAll Demo.listings = .ok Demo.listingParser.registry :=
    Registry.registerAll_toOption (by decide +kernel)
  have hlocal : ParseContext.empty.localizer = none := rfl
  have hget : Demo.listingParser.registry.get? 1 = Demo.listings[1]? :=
    Registry.get?_registerAll hregistry 1
  obtain ⟨-, hpaths, hnames⟩ := declared_typable hregistry hlocal hget
  have hpath : Demo.listingParser.registry.Path 1 ["list[all]", "-x\x7b"] := by
    have hroot : Demo.listingParser.registry.entries[0]?.map (fun e => (e.command.name, e.parent)) =
        some ("list[all]", none) := by decide +kernel
    have hchild : Demo.listingParser.registry.entries[1]?.map (fun e => (e.command.name, e.parent)) =
        some ("-x\x7b", some 0) := by decide +kernel
    obtain ⟨d, hd, hdn⟩ := Option.map_eq_some_iff.mp hroot
    obtain ⟨e, he, hen⟩ := Option.map_eq_some_iff.mp hchild
    have hp := Registry.Path.child he (Prod.mk.inj hen).2 (.root hd (Prod.mk.inj hdn).2)
    rwa [(Prod.mk.inj hdn).1, (Prod.mk.inj hen).1] at hp
  obtain ⟨hfull, hresolves⟩ := hpaths _ hpath
  have hline : Demo.listingParser.registry.fullName 1 = "list[all] -x\x7b" := by
    rw [hfull]
    decide +kernel
  refine ⟨hregistry, hlocal, hget, hline, ?_, ?_⟩
  · rw [← hline]
    exact hresolves.mpr (by decide +kernel)
  · have hflag : ∃ a ∈ Demo.listing.arguments.all, "dry-run" ∈ a.names :=
      ⟨_, List.mem_cons_self, List.mem_cons_self⟩
    obtain ⟨a, ha, hn⟩ := hflag
    exact (hnames a ha _ hn).mpr fun _ => by decide

/-- A command with the name of the separator, and a flag with an equals sign in its name. -/
def Demo.unspeakable : Command := (Command.new "&").withArgument (.flag "a=b" 'x')

/-- Both are let through, and neither can be typed. -/
theorem CommandParser.declared_not_typable :
    Registry.empty.registerAll [Demo.unspeakable] =
      .ok (Demo.parserOf Demo.unspeakable).registry ∧
    (Demo.parserOf Demo.unspeakable).registry.fullName 0 = "&" ∧
    (¬ ∃ t rest r, (Demo.parserOf Demo.unspeakable).config.tokensOf "&" = .more t rest ∧
      ((Demo.parserOf Demo.unspeakable).lineEnv .empty "&").resolve t rest = .ok r) ∧
    ¬ ∃ t stop, (Demo.parserOf Demo.unspeakable).config.tokensOf "--a=b" =
      .more t (.finished stop) ∧ t.kind = .named "a=b" none := by
  have hwords : ∀ t ∈ ((Demo.parserOf Demo.unspeakable).config.tokensOf "&").toList,
      t.word? = none := by decide +kernel
  refine ⟨Registry.registerAll_toOption (by decide +kernel), by decide +kernel, ?_, ?_⟩
  · -- the only token of the line is the separator, which is no word
    rintro ⟨t, rest, r, htokens, hres⟩
    have hword : t.word? = none := hwords t (by rw [htokens]; exact List.mem_cons_self)
    rw [LineEnv.resolve, LineEnv.childMatch, hword] at hres
    cases hres
  · intro h
    have hname : isWord "a=b" = true := by decide
    exact (Tokens.ofText_name_iff hname).mp h rfl (by decide)

end CommandConsole
