/-
# What a whole command has for each of its arguments

At the end of a command the arguments fall into three kinds. Some were given
something in the line. Optional ones that have something to fall back to have
their default, or an empty list or map. The others are optional too, take one
value and have no default: they stay unbound. Which tokens came in which order
plays no part in this.

Key definitions: `BoundArgument.DefaultOf`, `BoundCommand.Complete`.
Key theorem: `CommandParser.parse_complete`.
-/
import CommandConsole.Console.Demo
import CommandConsole.Proofs.Line.Bound

namespace CommandConsole

/-- The bound argument is what the argument `a` has if nothing is given for it. -/
structure BoundArgument.DefaultOf (b : BoundArgument) (a : Argument) : Prop where
  id : b.id = a.id
  optional : a.isOptional = true
  input : b.input.isEmpty = true
  value : a.default = some b.value ∨
    a.default = none ∧ a.multiplicity.isMulti = true ∧
      b.value = if a.multiplicity = .multiple ∧ a.type.kind = .map then .map [] else .list []

/-- A command of a line with the tokens `line` has for its arguments `args` what it needs. -/
structure BoundCommand.Complete (line : List Token) (args : List Argument) (c : BoundCommand) :
    Prop where
  /-- No argument is bound twice. -/
  ids : (c.arguments.map (·.id)).Nodup
  declared : ∀ b ∈ c.arguments, ∃ a ∈ args, a.id = b.id
  /-- What is no default got its input from tokens of the line. -/
  given : ∀ b ∈ c.arguments, b.origin ≠ .default → ∃ a ∈ args, ∃ ts, a.Given line b ts
  required : ∀ a ∈ args, a.isOptional = false →
    ∃ b ∈ c.arguments, b.id = a.id ∧ b.origin ≠ .default
  filled : ∀ a ∈ args, a.isOptional = true →
    a.default.isSome = true ∨ a.multiplicity.isMulti = true → ∃ b ∈ c.arguments, b.id = a.id
  defaults : ∀ b ∈ c.arguments, b.origin = .default →
    (∃ a ∈ args, b.DefaultOf a) ∧
      ∀ d ∈ c.arguments, d.origin ≠ .default → d.id ≠ b.id
  unbound : ∀ a ∈ args, (∀ b ∈ c.arguments, b.id ≠ a.id) →
    a.isOptional = true ∧ a.multiplicity = .single ∧ a.default = none

namespace Argument

variable {a : Argument} {seen line ts : List Token} {b : BoundArgument} {v : Value}

theorem Given.of_sublist (h : a.Given seen b ts) (hs : seen.Sublist line) : a.Given line b ts := by
  cases h with
  | taken ho ht hts hv => exact .taken ho ht (hts.trans hs) hv
  | assigned ht hk he hi hv => exact .assigned (hs.subset ht) hk he hi hv
  | switch ht hsw ho => exact .switch (hs.subset ht) hsw ho
  | answer ht hsw hw hb => exact .answer (hs.subset ht) hsw hw hb

theorem emptyMultiValue_eq :
    a.emptyMultiValue =
      if a.multiplicity = .multiple ∧ a.type.kind = .map then .map [] else .list [] := by
  unfold emptyMultiValue
  split <;> simp_all

theorem fallback?_eq_some_iff :
    a.fallback? = some v ↔ a.default = some v ∨
      a.default = none ∧ a.multiplicity.isMulti = true ∧ v = a.emptyMultiValue := by
  unfold fallback?
  cases a.default with
  | some w => simp
  | none => cases a.multiplicity.isMulti <;> simp [eq_comm]

theorem fallback?_eq_none_iff :
    a.fallback? = none ↔ a.default = none ∧ a.multiplicity = .single := by
  unfold fallback?
  cases a.default with
  | some w => simp
  | none => cases a.multiplicity <;> simp [Multiplicity.isMulti]

end Argument

namespace BindEnv

variable {env : BindEnv} {args unbound : List Argument} {s : BindState} {b : BoundArgument}
  {a : Argument}

theorem mem_remaining_static (hs : env.source = .static args) :
    a ∈ env.remaining s ↔ a ∈ args ∧ a.FreeIn s := by
  simp [remaining, ArgumentSource.remaining, hs, ArgumentSource.candidates, Argument.FreeIn]

/-- What a state holds with the defaults of unbound arguments. -/
theorem mem_bindDefaults :
    b ∈ (bindDefaults s unbound).bound ↔ b ∈ s.bound ∨ ∃ a ∈ unbound, ∃ v,
      a.fallback? = some v ∧ b = ⟨a.id, .empty (.point s.stop), v, .default⟩ := by
  simp only [bindDefaults, List.mem_append, List.mem_filterMap, Option.map_eq_some_iff,
    eq_comm (a := b)]

theorem defaultOf_fallback {v : Value} {stop : Nat} (ho : a.isOptional = true)
    (h : a.fallback? = some v) :
    BoundArgument.DefaultOf ⟨a.id, .empty (.point stop), v, .default⟩ a where
  id := rfl
  optional := ho
  input := rfl
  value := by
    rw [← Argument.emptyMultiValue_eq]
    exact Argument.fallback?_eq_some_iff.mp h

/-- Defaults for arguments that are unbound leave the ids apart. -/
theorem nodup_bindDefaults (hids : (s.bound.map (·.id)).Nodup)
    (hunbound : unbound.Pairwise fun a d => a.id ≠ d.id) (hfree : ∀ a ∈ unbound, a.FreeIn s) :
    ((bindDefaults s unbound).bound.map (·.id)).Nodup := by
  rw [bindDefaults, List.map_append, List.nodup_append]
  refine ⟨hids, ?_, ?_⟩
  · rw [List.map_filterMap, List.Nodup, List.pairwise_filterMap]
    refine hunbound.imp fun {a d} hne i hi j hj => ?_
    obtain ⟨v, -, rfl⟩ : ∃ v, a.fallback? = some v ∧ a.id = i := by simpa using hi
    obtain ⟨w, -, rfl⟩ : ∃ w, d.fallback? = some w ∧ d.id = j := by simpa using hj
    exact hne
  · intro i hi j hj
    obtain ⟨b, hb, rfl⟩ := List.mem_map.mp hi
    obtain ⟨d, hd, rfl⟩ := List.mem_map.mp hj
    obtain ⟨a, ha, hv⟩ := List.mem_filterMap.mp hd
    obtain ⟨v, -, rfl⟩ := Option.map_eq_some_iff.mp hv
    exact hfree a ha b hb

/-- **What is given, with the defaults of the other arguments, is complete**, if no required one
is left. -/
theorem complete_bindDefaults {name : String} {id : CommandId} {command : Command} {span : Span}
    {line : List Token}
    (hsource : env.source = .static args) (hargs : args.Pairwise fun a d => a.id ≠ d.id)
    (hoptional : ∀ a ∈ env.remaining s, a.isOptional = true)
    (hids : (s.bound.map (·.id)).Nodup)
    (hgiven : ∀ b ∈ s.bound, ∃ a ∈ args, ∃ ts, a.Given line b ts) :
    BoundCommand.Complete line args
      ⟨name, id, command, (bindDefaults s (env.remaining s)).bound, span⟩ := by
  have hremaining : ∀ a, a ∈ env.remaining s ↔ a ∈ args ∧ a.FreeIn s :=
    fun a => mem_remaining_static hsource
  have hsub : (env.remaining s).Sublist args := by
    rw [remaining, ArgumentSource.remaining, hsource]
    exact List.filter_sublist
  have hall : ((bindDefaults s (env.remaining s)).bound.map (·.id)).Nodup :=
    nodup_bindDefaults hids (hargs.sublist hsub) fun a ha => ((hremaining a).mp ha).2
  have hnot : ∀ b ∈ s.bound, b.origin ≠ .default := by
    intro b hb
    obtain ⟨a, -, ts, hg⟩ := hgiven b hb
    exact hg.origin_ne
  -- an argument that is left over has its default, or nothing to fall back to
  have hleft : ∀ a ∈ args, (∀ b ∈ (bindDefaults s (env.remaining s)).bound, b.id ≠ a.id) →
      a ∈ env.remaining s ∧ a.fallback? = none := by
    intro a ha hno
    have hmem : a ∈ env.remaining s :=
      (hremaining a).mpr ⟨ha, fun b hb => hno b (mem_bindDefaults.mpr (.inl hb))⟩
    refine ⟨hmem, Option.eq_none_iff_forall_ne_some.mpr fun v hv => ?_⟩
    exact hno _ (mem_bindDefaults.mpr (.inr ⟨a, hmem, v, hv, rfl⟩)) rfl
  refine ⟨hall, ?declared, ?given, ?required, ?filled, ?defaults, ?unbound⟩
  case declared =>
    intro b hb
    rcases mem_bindDefaults.mp hb with hb | ⟨a, ha, v, -, rfl⟩
    · obtain ⟨a, ha, ts, hg⟩ := hgiven b hb
      exact ⟨a, ha, hg.id_eq.symm⟩
    · exact ⟨a, hsub.subset ha, rfl⟩
  case given =>
    intro b hb ho
    rcases mem_bindDefaults.mp hb with hb | ⟨a, ha, v, -, rfl⟩
    · exact hgiven b hb
    · exact absurd rfl ho
  case required =>
    intro a ha hreq
    by_cases hfree : a.FreeIn s
    · have hopt := hoptional a ((hremaining a).mpr ⟨ha, hfree⟩)
      exact absurd (hreq.symm.trans hopt) (by decide)
    · obtain ⟨b, hb, hid⟩ : ∃ b ∈ s.bound, b.id = a.id := by
        simpa [Argument.FreeIn] using hfree
      exact ⟨b, mem_bindDefaults.mpr (.inl hb), hid, hnot b hb⟩
  case filled =>
    intro a ha _ hfallback
    by_contra hno
    obtain ⟨-, hnone⟩ := hleft a ha fun b hb hid => hno ⟨b, hb, hid⟩
    obtain ⟨hdefault, hsingle⟩ := Argument.fallback?_eq_none_iff.mp hnone
    rcases hfallback with h | h
    · simp [hdefault] at h
    · simp [hsingle, Multiplicity.isMulti] at h
  case defaults =>
    intro b hb ho
    rcases mem_bindDefaults.mp hb with hb | ⟨a, ha, v, hv, rfl⟩
    · exact absurd ho (hnot b hb)
    · refine ⟨⟨a, hsub.subset ha, defaultOf_fallback (hoptional a ha) hv⟩, fun d hd hdo => ?_⟩
      rcases mem_bindDefaults.mp hd with hd | ⟨_, _, _, _, rfl⟩
      · exact ((hremaining a).mp ha).2 d hd
      · exact absurd rfl hdo
  case unbound =>
    intro a ha hno
    obtain ⟨hmem, hnone⟩ := hleft a ha hno
    obtain ⟨hdefault, hsingle⟩ := Argument.fallback?_eq_none_iff.mp hnone
    exact ⟨hoptional a hmem, hsingle, hdefault⟩

end BindEnv

/-- **A command of a whole line is complete.** -/
theorem LineEnv.bindCommand_complete {env : LineEnv} {t : Token} {rest : Tokens} {r : Resolved}
    {c : Command} {b : BindEnv.Binding} {args : List Argument}
    (h : env.bindCommand .complete t rest = .ok (r, c, b)) (hargs : c.arguments = .static args)
    (hids : args.Pairwise fun a d => a.id ≠ d.id) :
    (env.boundCommand r c b).Complete rest.toList args := by
  obtain ⟨names, used, sep, s, bundles, entries, hrest, -, -, -, -, -, hA, hf⟩ :=
    bindCommand_tokens h (BindEnv.offers_static hargs)
  obtain ⟨hstate, hoptional⟩ := BindEnv.finish_complete rfl hf
  have hused : used.Sublist rest.toList := by
    rw [hrest, Tokens.toList_prepend]
    exact ((List.sublist_append_right _ _).trans (List.sublist_append_left _ _)).trans
      (List.sublist_append_left _ _)
  rw [boundCommand, hstate]
  refine BindEnv.complete_bindDefaults hargs hids hoptional hA.ledger.ids fun d hd => ?_
  rw [hA.ledger.bound] at hd
  obtain ⟨e, he, rfl⟩ := List.mem_map.mp hd
  obtain ⟨a, ha, hg⟩ := hA.ledger.given e he
  exact ⟨a, ha, e.2, hg.of_sublist hused⟩

theorem BoundCommand.Complete.mono {seen line : List Token} {args : List Argument}
    {c : BoundCommand} (h : c.Complete seen args) (hs : seen.Sublist line) :
    c.Complete line args where
  ids := h.ids
  declared := h.declared
  given := fun b hb ho =>
    let ⟨a, ha, ts, hg⟩ := h.given b hb ho
    ⟨a, ha, ts, hg.of_sublist hs⟩
  required := h.required
  filled := h.filled
  defaults := h.defaults
  unbound := h.unbound

/-- **Every command of a line that parses is completely bound.** What was given is told from the
defaults, no argument has both, and a line that leaves a required argument without a value does
not parse. -/
theorem CommandParser.parse_complete {p : CommandParser} {commands : List Command}
    (hregistry : Registry.empty.registerAll commands = .ok p.registry) {context : ParseContext}
    {text : String} {cmds : List BoundCommand} (h : p.parse context text = .ok cmds)
    {c : BoundCommand} (hc : c ∈ cmds) {declared : Command}
    (hget : p.registry.get? c.id = some declared) {args : List Argument}
    (hargs : declared.arguments = .static args) :
    c.Complete (p.config.tokensOf text).toList args := by
  obtain ⟨t, rest, r, cmd, b, hsuffix, hbind, -, rfl⟩ :=
    LineEnv.mem_parseCommands (p.config.tokensOf text) h hc
  obtain ⟨-, hcmd, -⟩ := LineEnv.bindCommand_eq_ok hbind
  obtain rfl : cmd = declared := Option.some.inj (hcmd.symm.trans hget)
  -- the ids of the declaration are apart, for the registry took it
  obtain ⟨e, he, rfl⟩ := Option.map_eq_some_iff.mp hget
  have hfault := (Registry.WellFormed.empty.registerAll hregistry).arguments r.id e he
  rw [hargs] at hfault
  have htell : Argument.Tellable args := tellable_of_argumentFault? hfault
  have hsub : rest.toList.Sublist (p.config.tokensOf text).toList :=
    (List.sublist_cons_self t _).trans hsuffix.sublist
  exact (LineEnv.bindCommand_complete hbind hargs htell.ids).mono hsub

/-- A command with a required argument, a default, an argument that may stay unbound, and one that
takes a map and may be left out. -/
def Demo.send : Command :=
  Demo.command "send" "Send a message"
    [.new "to" .string, (Argument.new "copies" .int).withDefault (.int 1),
      { Argument.new "note" .string with isOptional := true },
      { Argument.new "headers" (.map .string .string) with
        isOptional := true, multiplicity := .multiple }]

/-- A line that gives only what is required. -/
theorem CommandParser.parse_complete_send : ∃ (p : CommandParser) (cmds : List BoundCommand)
    (c : BoundCommand) (args : List Argument),
    p.parse .empty "send bob" = .ok cmds ∧ c ∈ cmds ∧ Demo.send.arguments = .static args ∧
    c.arguments.map (fun b => (b.id, b.value.display, b.origin)) =
      [("to", "bob", .positional), ("copies", "1", .default), ("headers", "{}", .default)] ∧
    c.Complete (p.config.tokensOf "send bob").toList args := by
  let p : CommandParser := ⟨(Registry.empty.registerAll [Demo.send]).toOption.getD .empty, default⟩
  have hregistry : Registry.empty.registerAll [Demo.send] = .ok p.registry :=
    Registry.registerAll_toOption (by decide +kernel)
  have hget : p.registry.get? 0 = some Demo.send := Registry.get?_registerAll hregistry 0
  have hl : ((p.parse .empty "send bob").toOption.bind (·[0]?)).map (fun c =>
      (c.id, c.arguments.map fun b => (b.id, b.value.display, b.origin))) =
        some (0, [("to", "bob", .positional), ("copies", "1", .default),
          ("headers", "{}", .default)]) := by
    decide +kernel
  obtain ⟨cmds, c, hp, hmem, hdata⟩ := Except.exists_getElem hl
  obtain ⟨hid, hbound⟩ := Prod.mk.inj hdata
  exact ⟨p, cmds, c, _, hp, hmem, rfl, hbound, parse_complete hregistry hp hmem (hid ▸ hget) rfl⟩

end CommandConsole
