/-
# A bound command written out parses back to itself

A bound command can be written as a line: its full name, and then each argument
that is not a default by name, with its input behind an equals sign unless
there is none. Whatever line the command came from, this one gives the same
command again, and nothing else. An argument that a declaration has left without
names is the exception: it can be given, but not written.

Key definitions: `BoundArgument.written`, `BoundCommand.written`.
Key theorem: `CommandParser.parse_written`.
-/
import CommandConsole.Proofs.Line.Bound
import CommandConsole.Proofs.Line.Resolution
import CommandConsole.Proofs.Line.Segments

namespace CommandConsole

/-- The name that an argument with this id is given by. -/
def longNameOf (args : List Argument) (id : String) : String :=
  match args.find? fun a => a.id == id with
  | some a => a.longName
  | none => id

/-- A bound argument, given by name. -/
def BoundArgument.written (args : List Argument) (b : BoundArgument) : String :=
  let name := "--" ++ longNameOf args b.id
  if b.input.isEmpty then name else name ++ "=" ++ b.input.render

/-- The line that says what a command is bound to, if it declares the arguments `args`. -/
def BoundCommand.written (args : List Argument) (c : BoundCommand) : String :=
  let given := c.arguments.filter fun b => b.origin ≠ .default
  String.intercalate " " (c.name :: given.map (·.written args))

theorem BoundArgument.written_eq (args : List Argument) (b : BoundArgument) :
    b.written args = (b.piece (longNameOf args b.id)).text := by
  rw [written, piece]
  split <;> rfl

namespace Argument

variable {args : List Argument} {a : Argument} {b : BoundArgument}

theorem longName_mem (a : Argument) (h : a.names ≠ []) : a.longName ∈ a.names := by
  obtain ⟨n, ns, hn⟩ := List.exists_cons_of_ne_nil h
  simp [longName, hn]

theorem Tellable.longNameOf (h : Tellable args) (ha : a ∈ args) :
    longNameOf args a.id = a.longName := by
  unfold CommandConsole.longNameOf
  cases hfind : args.find? fun d => d.id == a.id with
  | none =>
    have hne : ¬(a.id == a.id) = true := List.find?_eq_none.mp hfind a ha
    simp at hne
  | some d =>
    have hid := List.find?_some hfind
    rw [h.eq_of_id (List.mem_of_find?_eq_some hfind) ha (by simpa using hid)]

end Argument

/-! ### Saying it again -/

namespace LineEnv

variable {env : LineEnv} {c : Command} {bound : List BoundArgument} {t : Token}
  {args : List Argument}

/-- **Tokens that name a command, and then tokens that say again what was given, make up the
command again**, and nothing else. -/
theorem parseCommands_restates (hr : env.registry.WellFormed) (hl : env.context.localizer = none)
    {id : CommandId} (hget : env.registry.get? id = some c) (hargs : c.arguments = .static args)
    {old : BindEnv} (hold : old.Knows args) {s : BindState} (hC : old.Completed args s bound)
    {names ts : List Token} {stop : Nat} (hnames : env.Names (t :: names) id)
    (ht : t.isSeparator = false) (hts : List.Forall₂ (BindEnv.Restates args) s.bound ts)
    (hgate : ∀ r bound', List.Forall₂ BoundArgument.Same bound bound' →
      env.checkGate r c bound' = .ok ()) :
    ∃ d, env.parseCommands (.more t (.prepend names (.prepend ts (.finished stop)))) = .ok [d] ∧
      d.id = id ∧ List.Forall₂ BoundArgument.Same bound d.arguments := by
  have hstop : ∀ u us, Tokens.prepend ts (.finished stop) = .more u us →
      env.childMatch (some id) u = .none := by
    intro u us hu
    rw [childMatch, BindEnv.word?_eq_of_restates hts u us hu]
  obtain ⟨span, hresolve⟩ := hnames.resolve hstop
  have hknows : (env.bindEnv .complete id c).Knows args := knows_of_static hr hl hget hargs
  obtain ⟨state, position, hbind, hall⟩ :=
    BindEnv.bind_restates hold hknows rfl hC hts span.stop stop
  let resolved : Resolved := ⟨id, span, ⟨span.stop, .prepend ts (.finished stop)⟩⟩
  let binding : BindEnv.Binding := ⟨state, ⟨position, .finished stop⟩, false⟩
  have hcommand : env.bindCommand .complete t (.prepend names (.prepend ts (.finished stop))) =
      .ok (resolved, c, binding) := by
    rw [bindCommand, hresolve]
    dsimp only
    rw [hget]
    dsimp only
    rw [hbind]
    rfl
  refine ⟨env.boundCommand resolved c binding, ?_, rfl, hall⟩
  rw [parseCommands_command ht hcommand (hgate _ _ hall), parseCommands]
  rfl

end LineEnv

/-! ### The line of a command -/

/-- The words of a text with spaces between go on with further words. -/
theorem intercalate_words {words : List String} (h : words ≠ []) (more : List String) :
    String.intercalate " " (String.intercalate " " words :: more) =
      String.intercalate " " (words ++ more) := by
  by_cases hm : more = []
  · rw [hm, List.append_nil, String.intercalate_singleton]
  · rw [String.intercalate_cons_of_ne_nil hm, String.intercalate_append_of_ne_nil h hm]

/-- The pieces of the line of a command: the words of its name, and the arguments given. -/
def BoundCommand.pieces (args : List Argument) (words : List String) (given : List BoundArgument) :
    List Piece :=
  words.map .word ++ given.map fun b => b.piece (longNameOf args b.id)

theorem BoundCommand.written_eq {args : List Argument} {c : BoundCommand} {words : List String}
    (hne : words ≠ []) (hname : c.name = String.intercalate " " words) :
    c.written args =
      Piece.line (pieces args words (c.arguments.filter fun b => b.origin ≠ .default)) := by
  have hwords : words.map (Piece.text ∘ Piece.word) = words := List.map_id' words
  have hargs : (fun b : BoundArgument => b.written args) =
      Piece.text ∘ fun b => b.piece (longNameOf args b.id) :=
    funext fun b => b.written_eq args
  rw [written, hname, intercalate_words hne, hargs, Piece.line, pieces, List.map_append,
    List.map_map, List.map_map, hwords]

/-- The pieces of a line of plain words and settled arguments can be written. -/
theorem BoundCommand.fits_pieces {rules : TokenRules} {args : List Argument}
    (hT : Argument.Tellable args) (ha : rules.assignSyntax = true) {words : List String}
    (hwords : ∀ w ∈ words, rules.isPlain w = true) {given : List BoundArgument}
    (hgiven : ∀ b ∈ given, b.input.depth ≤ rules.maxDepth ∧
      ∃ a ∈ args, a.Settled b ∧ a.longName ∈ a.names ∧ '=' ∉ a.longName.toList) :
    ∀ p ∈ pieces args words given, p.Fits rules := by
  intro p hp
  rcases List.mem_append.mp hp with hp | hp
  · obtain ⟨w, hw, rfl⟩ := List.mem_map.mp hp
    exact TokenRules.plain_of_isPlain (hwords w hw)
  · obtain ⟨b, hb, rfl⟩ := List.mem_map.mp hp
    obtain ⟨hdepth, a, haa, hsettled, hmem, hequals⟩ := hgiven b hb
    have hword := hT.words a haa _ hmem
    rw [hsettled.id_eq, hT.longNameOf haa, BoundArgument.piece]
    split
    · exact ⟨hword, fun _ => hequals⟩
    · exact ⟨hword, hequals, ha, hdepth⟩

/-- Tokens that say what the pieces of settled arguments say, say them again. -/
theorem BindEnv.restates_of_reads {args : List Argument} (hT : Argument.Tellable args)
    (htypes : ∀ a ∈ args, a.type.Builtin) {given : List BoundArgument} {ts : List Token}
    (hgiven : ∀ b ∈ given, b.origin ≠ .default ∧ ∃ a ∈ args, a.Settled b ∧ a.longName ∈ a.names)
    (h : List.Forall₂ Piece.Reads (given.map fun b => b.piece (longNameOf args b.id)) ts) :
    List.Forall₂ (Restates args) given ts := by
  have hboth := (List.forall₂_and_left given ts).mpr ⟨hgiven, List.forall₂_map_left_iff.mp h⟩
  refine hboth.imp fun b t hbt => ?_
  obtain ⟨⟨hdefault, a, ha, hb, hname⟩, hreads⟩ := hbt
  rw [hb.id_eq, hT.longNameOf ha] at hreads
  exact ⟨a, ha, hname, htypes a ha, hb, hdefault, hreads⟩

/-- **A bound command, written out, parses back to itself.** Its arguments are bound to the same
inputs, up to spans, and to the same values; the defaults are the same again. Each argument that is
given needs a long name for this: one without names can be given by position only. -/
theorem CommandParser.parse_written {p : CommandParser} {commands : List Command}
    (hregistry : Registry.empty.registerAll commands = .ok p.registry) {context : ParseContext}
    (hlocal : context.localizer = none) (hassign : p.config.assignSyntax = true) {text : String}
    {cmds : List BoundCommand} (h : p.parse context text = .ok cmds) {c : BoundCommand}
    (hc : c ∈ cmds) {declared : Command} (hget : p.registry.get? c.id = some declared)
    {args : List Argument} (hargs : declared.arguments = .static args)
    (htypes : ∀ a ∈ args, a.type.Builtin)
    (hnames : ∀ a ∈ args, (∃ b ∈ c.arguments, b.origin ≠ .default ∧ b.id = a.id) →
      a.names ≠ [] ∧ '=' ∉ a.longName.toList)
    (hdepth : ∀ b ∈ c.arguments, b.input.depth ≤ p.config.maxDepth)
    (hplain : ∀ words, p.registry.Path c.id words →
      ∀ w ∈ words, p.config.tokenRules.isPlain w = true) :
    ∃ d, p.parse context (c.written args) = .ok [d] ∧ d.id = c.id ∧
      List.Forall₂ BoundArgument.Same c.arguments d.arguments := by
  have hr : p.registry.WellFormed := Registry.WellFormed.empty.registerAll hregistry
  obtain ⟨hname, ⟨s, hC⟩, r, hgate⟩ := p.mem_parse h hc hget hargs
  have hknows : ((p.lineEnv context text).bindEnv .complete c.id declared).Knows args :=
    LineEnv.knows_of_static hr hlocal hget hargs
  -- the line and its tokens
  obtain ⟨e, he, -⟩ := Option.map_eq_some_iff.mp hget
  obtain ⟨words, hpath⟩ := hr.exists_path c.id (Registry.lt_size he)
  have hwritten : c.written args = Piece.line (BoundCommand.pieces args words s.bound) := by
    rw [BoundCommand.written_eq hpath.ne_nil (hname.trans (hr.fullName_path hpath)),
      hC.filter_bound]
  -- what is given is given by its long name
  have hbound : ∀ b ∈ s.bound, b ∈ c.arguments :=
    fun b hb => List.mem_of_mem_filter (hC.filter_bound ▸ hb)
  have hgiven : ∀ b ∈ s.bound, ∃ a ∈ args, a.Settled b ∧ a.longName ∈ a.names ∧
      '=' ∉ a.longName.toList := by
    intro b hb
    obtain ⟨hdefault, a, ha, hsettled⟩ := hC.given b hb
    obtain ⟨hne, hequals⟩ := hnames a ha ⟨b, hbound b hb, hdefault, hsettled.id_eq⟩
    exact ⟨a, ha, hsettled, a.longName_mem hne, hequals⟩
  have hfits := BoundCommand.fits_pieces hknows.tellable hassign (hplain words hpath)
    fun b hb => ⟨hdepth b (hbound b hb), hgiven b hb⟩
  obtain ⟨ts, stop, hts, hreads⟩ := Piece.ofText_line hfits
  obtain ⟨us, vs, rfl, hus, hvs⟩ := forall₂_append_left hreads
  have hrestates := BindEnv.restates_of_reads hknows.tellable htypes (fun b hb =>
    let ⟨a, ha, hsettled, hname, _⟩ := hgiven b hb
    ⟨(hC.given b hb).1, a, ha, hsettled, hname⟩) hvs
  -- what they make up
  cases List.forall₂_map_left_iff.mp hus with
  | nil => exact absurd rfl hpath.ne_nil
  | @cons w u words us hw hws =>
    let env := p.lineEnv context (Piece.line (BoundCommand.pieces args (w :: words) s.bound))
    have hcontext : env.context = (p.lineEnv context text).context := rfl
    have hlead : env.Names (u :: us) c.id :=
      LineEnv.names_of_path hr hlocal hpath (.cons hw.1 (hws.imp fun _ _ hread => hread.1))
    obtain ⟨d, hparse, hid, hall⟩ := LineEnv.parseCommands_restates hr hlocal hget hargs hknows hC
      hlead hw.2 hrestates fun _ _ hall => LineEnv.checkGate_same hcontext hall hgate
    refine ⟨d, ?_, hid, hall⟩
    rw [parse, hwritten, ParserConfig.tokensOf, hts, Tokens.prepend_append]
    exact hparse

theorem Demo.registerAll_fixedParser :
    Registry.empty.registerAll (commands.take 7) = .ok fixedParser.registry :=
  Registry.registerAll_toOption (by decide +kernel)

/-- A flag, a default and a quoted value, in a line with another command. -/
theorem CommandParser.parse_written_rm : ∃ cmds c args d,
    Demo.fixedParser.parse .empty "say a b & rm -r \"a b\"" = .ok cmds ∧ c ∈ cmds ∧
    c.written args = "rm --recursive --path=\"a b\"" ∧
    Demo.fixedParser.parse .empty (c.written args) = .ok [d] ∧ d.id = c.id ∧
    List.Forall₂ BoundArgument.Same c.arguments d.arguments := by
  let args : List Argument := [.flag "recursive" 'r', .flag "force" 'f', .new "path" .string]
  have hget : Demo.fixedParser.registry.get? 2 = some (Demo.command "rm" "Remove a path" args) :=
    Registry.get?_registerAll Demo.registerAll_fixedParser 2
  have hroot : Demo.fixedParser.registry.entries[2]?.map (·.parent) = some none := by
    decide +kernel
  have hl : ((Demo.fixedParser.parse .empty "say a b & rm -r \"a b\"").toOption.bind
      (·[1]?)).map (fun c => (c.id, c.written args, c.arguments.all fun b => b.input.depth ≤ 64)) =
        some (2, "rm --recursive --path=\"a b\"", true) := by
    decide +kernel
  obtain ⟨cmds, c, hp, hmem, hdata⟩ := Except.exists_getElem hl
  obtain ⟨hid, hwritten, hdepth⟩ : c.id = 2 ∧ c.written args = "rm --recursive --path=\"a b\"" ∧
      ∀ b ∈ c.arguments, b.input.depth ≤ 64 := by simpa using hdata
  have hplain : ∀ words, Demo.fixedParser.registry.Path c.id words →
      ∀ w ∈ words, Demo.fixedParser.config.tokenRules.isPlain w = true := by
    rw [hid]
    intro words hpath
    cases hpath with
    | @root _ e he hparent =>
      have hcommand : e.command = Demo.command "rm" "Remove a path" args := by
        rw [Registry.get?, he] at hget
        exact Option.some.inj hget
      intro w hw
      rw [List.mem_singleton.mp hw, hcommand]
      decide
    | child he hparent h =>
      rw [he, Option.map_some, hparent] at hroot
      cases hroot
  obtain ⟨d, hd⟩ := parse_written Demo.registerAll_fixedParser rfl rfl hp hmem (hid ▸ hget) rfl
    (by simp [args, Argument.flag, Argument.new, Argument.withDefault, ArgType.Builtin])
    (by simp [args, Argument.flag, Argument.new, Argument.withDefault, Argument.longName])
    hdepth hplain
  exact ⟨cmds, c, args, d, hp, hmem, hwritten, hd⟩

/-- A command whose argument has no name. -/
def Demo.nameless : Command :=
  Demo.command "show" "Show a text" [{ Argument.new "text" .string with names := [] }]

def Demo.half : Command := Demo.command "half" "Halve a number" [.new "number" .float]

/-- The floating-point number that the value is. -/
def Value.float? : Value → Option Float
  | .float x => some x
  | _ => none

theorem Value.eq_of_float? {v : Value} {x : Float} (h : v.float? = some x) : v = .float x := by
  cases v <;> simp_all [float?]

/-- An argument without names is written with its id, by which it cannot be given. And what is not a
number differs from itself. -/
theorem CommandParser.parse_not_written :
    (let p := Demo.parserOf Demo.nameless
      ∃ args c f, Registry.empty.registerAll [Demo.nameless] = .ok p.registry ∧
        Demo.nameless.arguments = .static args ∧ p.parse .empty "show a" = .ok [c] ∧
        c.id = 0 ∧ c.written args = "show --text=a" ∧
        p.parse .empty "show --text=a" = .error f ∧ f.kind = .unknownArgument "show" "text") ∧
    let p := Demo.parserOf Demo.half
    ∃ args c d v w, Registry.empty.registerAll [Demo.half] = .ok p.registry ∧
      Demo.half.arguments = .static args ∧ p.parse .empty "half nan" = .ok [c] ∧
      c.id = 0 ∧ c.written args = "half --number=nan" ∧
      p.parse .empty "half --number=nan" = .ok [d] ∧
      c.value? "number" = some v ∧ d.value? "number" = some w ∧ v.equal w = false := by
  constructor
  · intro p
    let args : List Argument := [{ Argument.new "text" .string with names := [] }]
    have hgiven : (p.parse .empty "show a").toOption.map (·.map fun c => (c.id, c.written args)) =
        some [(0, "show --text=a")] := by decide +kernel
    have hkind : (failureOf? (p.parse .empty "show --text=a")).map (·.kind) =
        some (.unknownArgument "show" "text") := by decide +kernel
    obtain ⟨c, hc, hdata⟩ := Except.exists_only hgiven
    obtain ⟨hid, hwritten⟩ := Prod.mk.inj hdata
    obtain ⟨f, hf, hkind⟩ := Option.map_eq_some_iff.mp hkind
    exact ⟨args, c, f, Registry.registerAll_toOption (by decide +kernel), rfl, hc, hid, hwritten,
      failureOf?_eq_some hf, hkind⟩
  · intro p
    let args : List Argument := [.new "number" .float]
    let nan := Float.ofBits 0x7FF8000000000000
    have hgiven : (p.parse .empty "half nan").toOption.map (·.map fun c =>
        (c.id, c.written args, (c.value? "number").bind Value.float?)) =
          some [(0, "half --number=nan", some nan)] := by decide +kernel
    have hagain : (p.parse .empty "half --number=nan").toOption.map (·.map fun d =>
        (d.value? "number").bind Value.float?) = some [some nan] := by decide +kernel
    obtain ⟨c, hc, hdata⟩ := Except.exists_only hgiven
    obtain ⟨hid, hdata⟩ := Prod.mk.inj hdata
    obtain ⟨hwritten, hvalue⟩ := Prod.mk.inj hdata
    obtain ⟨v, hv, hvnan⟩ := Option.bind_eq_some_iff.mp hvalue
    obtain ⟨d, hd, hvalue⟩ := Except.exists_only hagain
    obtain ⟨w, hw, hwnan⟩ := Option.bind_eq_some_iff.mp hvalue
    have hdiffers : (Value.float nan).equal (.float nan) = false := by decide
    refine ⟨args, c, d, v, w, Registry.registerAll_toOption (by decide +kernel), rfl, hc, hid,
      hwritten, hd, hv, hw, ?_⟩
    rwa [Value.eq_of_float? hvnan, Value.eq_of_float? hwnan]

end CommandConsole
