/-
# The segments of a line

A line without its separators is cut into segments, one for each command: the
tokens that name it and the tokens of its arguments. In a segment no value is
lost and none is used twice: it is a bundle of flags, or the whole input of one
bound argument, or one item of one. And an argument has nothing that was not
written for it.

Key definitions: `Segment`, `BoundArgument.ComesFrom`, `Segment.Makes`.
Key theorem: `CommandParser.parse_segments`.
-/
import CommandConsole.Console.Demo
import CommandConsole.Proofs.Binding.Places
import CommandConsole.Proofs.Line.Bound
import CommandConsole.Proofs.Line.Consumption

namespace CommandConsole

/-- The tokens of one command. -/
structure Segment where
  names : List Token
  arguments : List Token

/-- The input of a bound argument is written in the tokens: as a value, as values that stand in
this order, as the literal assigned to a name, or as a name or a flag alone, for a switch. -/
inductive BoundArgument.ComesFrom (args : List Argument) (tokens : List Token)
    (b : BoundArgument) : Prop
  | value {t : Token} (ht : t ∈ tokens) (hk : t.kind = .value b.input)
  | run {ts : List Token} {items : List Literal} (hs : ts.Sublist tokens)
      (ht : ts.map Token.value? = items.map some) (hi : b.input = listOfRun items)
  | assigned {t : Token} {name : String} {v : Literal} (ht : t ∈ tokens)
      (hk : t.kind = .named name (some v))
      (hi : b.input = v ∨ b.input = listOfRun (BindEnv.itemsOf v))
  | switch {t : Token} {a : Argument} (ht : t ∈ tokens) (ha : a ∈ args) (hid : a.id = b.id)
      (hs : a.isSwitch = true) (hi : b.input = .empty t.span)

/-- The tokens of a segment make up a command with the declared arguments `args`. -/
structure Segment.Makes (env : LineEnv) (args : List Argument) (s : Segment) (c : BoundCommand) :
    Prop where
  /-- The first tokens name the command, and the next one does not go on with the name. -/
  names : env.Names s.names c.id
  deepest : ∀ t ∈ s.arguments.head?, env.childMatch (some c.id) t = .none
  /-- A value is a bundle of flags and nothing else, or is held at one place. -/
  values : ∀ t ∈ s.arguments, ∀ v, t.kind = .value v →
    (t.Bundles (· ∈ args) c.arguments ∧ v ∉ c.arguments.flatMap BoundArgument.places) ∨
      ∃! i : Nat, (c.arguments.flatMap BoundArgument.places)[i]? = some v
  inputs : ∀ b ∈ c.arguments, b.origin ≠ .default → b.ComesFrom args s.arguments

/-- The segment makes up the command, of which the registry knows the arguments. -/
def Segment.MakesKnown (env : LineEnv) (s : Segment) (c : BoundCommand) : Prop :=
  ∃ declared args, env.registry.get? c.id = some declared ∧ declared.arguments = .static args ∧
    s.Makes env args c

theorem Argument.Given.comesFrom {args : List Argument} {a : Argument} {seen ts : List Token}
    {b : BoundArgument} (ha : a ∈ args) (hs : TokensPlaced seen) (h : a.Given seen b ts) :
    b.ComesFrom args seen := by
  cases h with
  | taken ho ht hsub hv =>
    cases ht with
    | one hm hk => exact .value (hsub.subset List.mem_cons_self) hk
    | run hne htok => exact .run hsub htok rfl
  | assigned ht hk he hi hv => exact .assigned ht hk hi
  | switch ht hsw ho => exact .switch ht ha rfl hsw rfl
  | answer ht hsw hw hb =>
    exact .value ht (Token.value?_eq_some.mp (value?_of_word? (hs.1 _ ht) hw))

namespace BindEnv

/-- A default holds no literal of the line. -/
theorem not_mem_places_default (s : BindState) (unbound : List Argument) {v : Literal}
    (hv : v.Laid) : v ∉ (unbound.filterMap fun a => a.fallback?.map fun w =>
      (⟨a.id, .empty (.point s.stop), w, .default⟩ : BoundArgument)).flatMap
        BoundArgument.places := by
  intro hmem
  obtain ⟨b, hb, hvb⟩ := List.mem_flatMap.mp hmem
  obtain ⟨a, -, ha⟩ := List.mem_filterMap.mp hb
  obtain ⟨w, -, rfl⟩ := Option.map_eq_some_iff.mp ha
  rw [List.mem_singleton.mp hvb] at hv
  exact hv

/-- The literal of a value is held at one place, or the value is a bundle of flags. -/
theorem Accounts.existsUnique_place {env : BindEnv} {P : Argument → Prop}
    {seen bundles : List Token} {entries : List (BoundArgument × List Token)} {s : BindState}
    {unbound : List Argument} {t : Token} {v : Literal}
    (hA : env.Accounts P seen bundles entries s) (hm : env.mode = .complete)
    (hs : TokensPlaced seen) (ht : t ∈ seen) (hk : t.kind = .value v) :
    (t.Bundles P (bindDefaults s unbound).bound ∧
      v ∉ (bindDefaults s unbound).bound.flatMap BoundArgument.places) ∨
      ∃! i : Nat, ((bindDefaults s unbound).bound.flatMap BoundArgument.places)[i]? = some v := by
  classical
  have hcount := hA.count_places hs ht hk
  have hdefault := List.count_eq_zero.mpr
    (not_mem_places_default s unbound ((hs.1 t ht).value hk).1)
  have hsame : ((bindDefaults s unbound).bound.flatMap BoundArgument.places).count v =
      (s.bound.flatMap BoundArgument.places).count v := by
    rw [bindDefaults, List.flatMap_append, List.count_append, hdefault, Nat.add_zero]
  rw [← hsame] at hcount
  by_cases hb : t ∈ bundles
  · rw [if_pos hb] at hcount
    refine .inl ⟨(hA.bundles hm t hb).keeps fun b hb => ?_, List.count_eq_zero.mp hcount⟩
    exact ⟨b, List.mem_append_left _ hb, rfl, rfl⟩
  · rw [if_neg hb] at hcount
    exact .inr (existsUnique_getElem? hcount)

end BindEnv

namespace LineEnv

variable {env : LineEnv}

/-- What the registry knows of a command, if all its arguments are fixed. -/
def Static (env : LineEnv) : Prop :=
  ∀ e ∈ env.registry.entries, ∃ args, e.command.arguments = .static args

theorem Static.source {id : CommandId} {c : Command} (h : env.Static)
    (hc : env.registry.get? id = some c) : ∃ args, c.arguments = .static args := by
  obtain ⟨e, he, rfl⟩ := Option.map_eq_some_iff.mp hc
  exact h e (List.mem_of_getElem? he)

/-- **The tokens that a command uses up make it up.** -/
theorem bindCommand_makes (hstatic : env.Static) {t : Token} {rest : Tokens} {r : Resolved}
    {c : Command} {b : BindEnv.Binding} (hs : TokensPlaced (Tokens.more t rest).toList)
    (h : env.bindCommand .complete t rest = .ok (r, c, b)) :
    ∃ (s : Segment) (sep : Option Token), (∀ u ∈ sep, u.isSeparator = true) ∧
      (∀ u ∈ s.names ++ s.arguments, u.isSeparator = false) ∧
      (Tokens.more t rest).toList =
        s.names ++ s.arguments ++ sep.toList ++ b.cursor.tokens.toList ∧
      s.MakesKnown env (env.boundCommand r c b) := by
  obtain ⟨-, hget, -⟩ := bindCommand_eq_ok h
  obtain ⟨args, hargs⟩ := hstatic.source hget
  obtain ⟨names, used, sep, s, bundles, entries, hrest, hnames, hlast, hused, hsep, -, hA, hf⟩ :=
    bindCommand_tokens h (BindEnv.offers_static hargs)
  have htokens : (Tokens.more t rest).toList =
      (t :: names) ++ used ++ sep.toList ++ b.cursor.tokens.toList := by
    rw [hrest]
    simp
  have hplaced : TokensPlaced used := by
    refine hs.sublist ?_
    rw [htokens]
    exact ((List.sublist_append_right _ _).trans (List.sublist_append_left _ _)).trans
      (List.sublist_append_left _ _)
  have hstate : b.state =
      BindEnv.bindDefaults s ((env.bindEnv .complete r.id c).remaining s) :=
    (BindEnv.finish_complete rfl hf).1
  refine ⟨⟨t :: names, used⟩, sep, hsep, ?_, htokens, c, args, hget, hargs, hnames, hlast, ?_, ?_⟩
  · intro u hu
    rcases List.mem_append.mp hu with hu | hu
    · exact Token.isSeparator_of_isValue (hnames.all_isValue u hu)
    · exact hused u hu
  · intro u hu v hk
    simp only [boundCommand, hstate]
    exact hA.existsUnique_place rfl hplaced hu hk
  · intro d hd ho
    have hd' : d ∈ s.bound := by
      have hmem : d ∈ b.state.bound.filter fun x => x.origin ≠ .default :=
        List.mem_filter.mpr ⟨hd, by simpa using ho⟩
      rw [hstate, BindEnv.filter_bindDefaults hA.ledger.origin_ne] at hmem
      exact hmem
    rw [hA.ledger.bound] at hd'
    obtain ⟨e, he, rfl⟩ := List.mem_map.mp hd'
    obtain ⟨a, ha, hg⟩ := hA.ledger.given e he
    exact hg.comesFrom ha hplaced

/-- **A line that parses is cut into the segments of its commands.** -/
theorem parseCommands_segments (hstatic : env.Static) (ts : Tokens) : TokensPlaced ts.toList →
    ∀ {cmds : List BoundCommand}, env.parseCommands ts = .ok cmds →
      ∃ segments : List Segment,
        ts.toList.filter (fun t => !t.isSeparator) =
          segments.flatMap (fun s => s.names ++ s.arguments) ∧
        List.Forall₂ (Segment.MakesKnown env) segments cmds := by
  fun_induction env.parseCommands ts with
  | case1 stop =>
    intro _ cmds h
    cases h
    exact ⟨[], rfl, .nil⟩
  | case2 => intro _ cmds h; cases h
  | case3 t rest ht ih =>
    intro hs cmds h
    obtain ⟨segments, hseg, hall⟩ := ih (hs.sublist (List.sublist_cons_self _ _)) h
    refine ⟨segments, ?_, hall⟩
    rw [Tokens.toList_more, List.filter_cons_of_neg (by simp [ht]), hseg]
  | case4 => intro _ cmds h; cases h
  | case5 => intro _ cmds h; cases h
  | case6 t rest ht r c b hb _ ih =>
    intro hs cmds h
    obtain ⟨more, hmore, rfl⟩ := exists_of_map_eq_ok h
    obtain ⟨s, sep, hsep, hn, htokens, hmakes⟩ := bindCommand_makes hstatic hs hb
    have hrest : TokensPlaced b.cursor.tokens.toList :=
      hs.sublist (htokens ▸ List.sublist_append_right _ _)
    obtain ⟨segments, hseg, hall⟩ := ih hrest hmore
    refine ⟨s :: segments, ?_, .cons hmakes hall⟩
    have hkeep : (s.names ++ s.arguments).filter (fun t => !t.isSeparator) =
        s.names ++ s.arguments :=
      List.filter_eq_self.mpr fun u hu => by simp [hn u hu]
    have hdrop : sep.toList.filter (fun t => !t.isSeparator) = [] :=
      List.filter_eq_nil_iff.mpr fun u hu => by simp [hsep u (Option.mem_toList.mp hu)]
    rw [htokens, List.filter_append, List.filter_append, hkeep, hdrop, hseg, List.append_nil,
      List.flatMap_cons]

end LineEnv

/-- **No value of a line is lost or used twice.** The tokens of a line that parses are cut into
one segment for each command, and each segment makes up its command. -/
theorem CommandParser.parse_segments {p : CommandParser} {context : ParseContext} {text : String}
    (hstatic : ∀ e ∈ p.registry.entries, ∃ args, e.command.arguments = .static args)
    {cmds : List BoundCommand} (h : p.parse context text = .ok cmds) :
    ∃ segments : List Segment,
      (p.config.tokensOf text).toList.filter (fun t => !t.isSeparator) =
        segments.flatMap (fun s => s.names ++ s.arguments) ∧
      List.Forall₂ (Segment.MakesKnown (p.lineEnv context text)) segments cmds := by
  have hstatic' : (p.lineEnv context text).Static := hstatic
  exact LineEnv.parseCommands_segments hstatic' (p.config.tokensOf text)
    (tokensPlaced_tokensOf p.config text) h

/-- The parser of the built-in commands up to the first whose arguments are not fixed. -/
def Demo.fixedParser : CommandParser :=
  ⟨(Registry.empty.registerAll (commands.take 7)).toOption.getD .empty, default⟩

def ArgumentSource.isStatic : ArgumentSource → Bool
  | .static _ => true
  | .dynamic _ => false

theorem ArgumentSource.isStatic_iff {s : ArgumentSource} :
    s.isStatic = true ↔ ∃ args, s = .static args := by
  cases s <;> simp [isStatic]

/-- A line with a flag that takes a value, a bundle of flags and a run. -/
theorem CommandParser.parse_segments_run :
    (∀ e ∈ Demo.fixedParser.registry.entries, ∃ args, e.command.arguments = .static args) ∧
    ∃ (cmds : List BoundCommand) (segments : List Segment),
      Demo.fixedParser.parse .empty "fetch -n 4 u & rm -rf x & say a b" = .ok cmds ∧
      cmds.length = 3 ∧
      (Demo.fixedParser.config.tokensOf "fetch -n 4 u & rm -rf x & say a b").toList.filter
        (fun t => !t.isSeparator) = segments.flatMap (fun s => s.names ++ s.arguments) ∧
      List.Forall₂ (Segment.MakesKnown
        (Demo.fixedParser.lineEnv .empty "fetch -n 4 u & rm -rf x & say a b")) segments cmds := by
  have hstatic : ∀ e ∈ Demo.fixedParser.registry.entries,
      ∃ args, e.command.arguments = .static args := by
    have hall : (Demo.fixedParser.registry.entries.all fun e => e.command.arguments.isStatic) =
        true := by decide +kernel
    exact fun e he => ArgumentSource.isStatic_iff.mp (List.all_eq_true.mp hall e he)
  have hl : (Demo.fixedParser.parse .empty "fetch -n 4 u & rm -rf x & say a b").toOption.map
      List.length = some 3 := by decide +kernel
  refine ⟨hstatic, ?_⟩
  obtain ⟨cmds, hcmds, hlength⟩ := Option.map_eq_some_iff.mp hl
  have hp := Except.eq_ok_of_toOption hcmds
  obtain ⟨segments, hseg, hall⟩ := CommandParser.parse_segments hstatic hp
  exact ⟨cmds, segments, hp, hlength, hseg, hall⟩

end CommandConsole
