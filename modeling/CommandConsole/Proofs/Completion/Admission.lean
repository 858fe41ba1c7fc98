/-
# What fits the state of a line

A command that is open at the end of a line goes on with any name that is not
bound, with any word that its next arguments may begin with, and with the name
of another command when nothing is missing. Here the names and texts that are
declared are plain, so that each of them is one token.

Key definitions: `ParserConfig.Ordinary`, `Command.Ordinary`, `CommandParser.Ordinary`.
Key theorems: `CommandParser.admits_word`, `CommandParser.admits_flag`,
`CommandParser.admits_assigned`, `CommandParser.commandCandidates_cases`.
-/
import CommandConsole.Completion.Suggest
import CommandConsole.Proofs.Binding.LastToken
import CommandConsole.Proofs.Line.Reprint
import CommandConsole.Proofs.Line.Resumption
import CommandConsole.Proofs.Token.Added

namespace CommandConsole

/-! ### Candidates -/

theorem mem_of_withoutRepeatsFrom {s : String} : ∀ {seen cs : List String},
    s ∈ withoutRepeatsFrom seen cs → s ∈ cs
  | _, [], h => by cases h
  | seen, c :: cs, h => by
    rw [withoutRepeatsFrom] at h
    split at h
    · exact List.mem_cons_of_mem c (mem_of_withoutRepeatsFrom h)
    · rcases List.mem_cons.mp h with rfl | h
      · exact List.mem_cons_self
      · exact List.mem_cons_of_mem c (mem_of_withoutRepeatsFrom h)

theorem Candidates.mem_of_select {c : Candidates} {space : Bool} {typed s : String}
    (h : s ∈ c.select space typed) (hs : s ≠ " ") :
    s ∈ c.names ∨ s ∈ c.values ∨ s ∈ c.following := by
  simp only [select, continuing, List.mem_append, List.mem_filter] at h
  rcases h with ((h | h) | h) | h
  · split at h
    · exact absurd (List.mem_singleton.mp h) hs
    · cases h
  · exact .inl h.1
  · exact .inr (.inl h.1)
  · exact .inr (.inr h.1)

/-! ### Plain declarations -/

/-- The text is a bare word and not the separator. -/
structure ParserConfig.Ordinary (config : ParserConfig) (text : String) : Prop where
  bare : Bare text
  separator : text ≠ config.chainSeparator

instance (config : ParserConfig) (text : String) : Decidable (config.Ordinary text) :=
  decidable_of_iff (Bare text ∧ text ≠ config.chainSeparator)
    ⟨fun h => ⟨h.1, h.2⟩, fun h => ⟨h.bare, h.separator⟩⟩

/-- The names of the argument and the texts that its type names are plain. An argument has a long
name from `Argument.new` on, and no setter takes it away. -/
structure Argument.Ordinary (config : ParserConfig) (a : Argument) : Prop where
  named : a.names ≠ []
  names : ∀ n ∈ a.names, config.Ordinary n
  type : a.type.Plain config.Ordinary

/-- The names of the command and of its arguments are plain, and so are the texts that its types
name. -/
structure Command.Ordinary (config : ParserConfig) (c : Command) : Prop where
  names : ∀ n ∈ c.declaredNames, config.Ordinary n
  arguments : ∃ args, c.arguments = .static args ∧ ∀ a ∈ args, a.Ordinary config

/-- The commands of the registry keep to the rules of declarations, and are plain. -/
structure CommandParser.Ordinary (p : CommandParser) : Prop where
  wellFormed : p.registry.WellFormed
  commands : ∀ id c, p.registry.get? id = some c → c.Ordinary p.config

namespace LineEnv

variable {env : LineEnv} {text : String} {t : Token} {stop : Nat} {id : CommandId}
  {bound : List BoundArgument} {pending : Pending}

/-- A token fits an open command if what is open takes it, or the command goes on with it, or the
token begins another command. -/
theorem admits_token (hw : pending.Welcomes (.more t (.finished stop)))
    (h : t.isSeparator = false → pending.PassesBy (.more t (.finished stop)) →
      (bound ≠ [] ∨ env.childMatch (some id) t = .none) →
      ∀ (c : Command) (s : BindState), env.registry.get? id = some c → s.bound = bound →
        ∃ o, ((env.bindEnv .partialLine id c).inText text).bindToken s t
            ⟨t.span.stop, .finished stop⟩ = .ok o ∧
          (o = none → (env.inText text).Viable (.more t (.finished stop))
            (.more t (.finished stop)))) :
    env.Admits text (.more t (.finished stop)) (.inCommand id bound pending) := by
  refine .inCommand hw fun hpass hchild c s p hget hb => ?_
  by_cases ht : t.isSeparator = true
  · rw [BindEnv.bindTokens_separator rfl ht]
    exact .ok (viable_finished _ _ rfl)
  · have hchild' : bound ≠ [] ∨ env.childMatch (some id) t = .none :=
      hchild.imp_right fun h => h t _ rfl
    obtain ⟨o, ho, hnone⟩ := h (by simpa using ht) hpass hchild' c s hget hb
    obtain ⟨b, hbind, hend | ⟨-, hnothing, hcursor⟩⟩ := BindEnv.bindTokens_last (.inr ho) p
    · rw [hbind]
      exact .ok (viable_finished _ _ hend)
    · rw [hbind]
      refine .ok ?_
      rw [hcursor]
      exact hnone hnothing

end LineEnv

namespace CommandParser

variable {p : CommandParser} {context : ParseContext} {base text s : String} {t : Token}
  {stop : Nat} {id : CommandId} {bound : List BoundArgument} {pending : Pending} {c : Command}

/-- A registry is plain if the commands that made it up are. -/
theorem ordinary_of_registerAll {commands : List Command}
    (hreg : Registry.empty.registerAll commands = .ok p.registry)
    (hplain : ∀ c ∈ commands, c.Ordinary p.config) : p.Ordinary where
  wellFormed := Registry.WellFormed.empty.registerAll hreg
  commands := fun id c hget => by
    rw [Registry.get?_registerAll hreg] at hget
    exact hplain c (List.mem_of_getElem? hget)

/-- The arguments of a plain command are plain, also those that are left to bind. -/
theorem Ordinary.remaining (ho : p.Ordinary) (hget : p.registry.get? id = some c)
    (bound : List BoundArgument) : ∀ a ∈ c.arguments.remaining bound, a.Ordinary p.config := by
  obtain ⟨args, hargs, hall⟩ := (ho.commands id c hget).arguments
  intro a ha
  rw [hargs] at ha
  exact hall a (List.mem_filter.mp ha).1

/-! ### Names of commands -/

theorem exists_of_mem_commandNames {parent : Option CommandId}
    (hs : s ∈ p.commandNames none parent) : ∃ id e, p.registry.entries[id]? = some e ∧
      e.parent = parent ∧ p.registry.get? id = some e.command ∧ s ∈ e.command.declaredNames := by
  obtain ⟨id, hid, hname⟩ := List.mem_flatMap.mp hs
  obtain ⟨e, he, hp⟩ := Registry.mem_childrenOf.mp hid
  refine ⟨id, e, he, hp, by rw [Registry.get?, he]; rfl, ?_⟩
  simpa [Registry.namesOf, he, Localizer.namesFor] using hname

theorem ordinary_of_mem_commandNames (ho : p.Ordinary) {parent : Option CommandId}
    (hs : s ∈ p.commandNames none parent) : p.config.Ordinary s := by
  obtain ⟨id, e, -, -, hget, hname⟩ := exists_of_mem_commandNames hs
  exact (ho.commands id e.command hget).names s hname

theorem childMatch_of_mem (ho : p.Ordinary) (hl : context.localizer = none)
    {parent : Option CommandId} (hs : s ∈ p.commandNames none parent) (hw : t.word? = some s)
    (text : String) : ∃ id c, (p.lineEnv context text).childMatch parent t = .one id ∧
      p.registry.get? id = some c := by
  obtain ⟨id, e, he, rfl, hget, hname⟩ := exists_of_mem_commandNames hs
  refine ⟨id, e.command, ?_, hget⟩
  unfold LineEnv.childMatch
  rw [hw]
  dsimp only [lineEnv]
  rw [hl]
  exact ho.wellFormed.matchChild_name he hname

/-- The name of a root command is viable in the line. -/
theorem viable_word (ho : p.Ordinary) (hl : context.localizer = none)
    (hs : s ∈ p.commandNames none none) {separator : String} (hw : t.IsWord separator s)
    (e : Tokens) (text : String) :
    (p.lineEnv context text).Viable e (.more t (.finished stop)) := by
  rcases hw.2 with ⟨ht, -⟩ | ⟨span, -, hword⟩
  · intro state
    rw [LineEnv.openCommand_separator ht]
    exact LineEnv.viable_finished _ e rfl .root
  · obtain ⟨id, c, hone, hc⟩ := childMatch_of_mem ho hl hs hword text
    exact LineEnv.viable_name hone hc

/-! ### Unnamed values -/

/-- An argument that waits for its value takes one that it can begin with. -/
theorem admits_waiting {a : Argument} {span : Span} (hk : t.kind = .value (.scalar s span))
    (ht : a.type.takes (.scalar s span) = true) :
    (p.lineEnv context base).Admits text (.more t (.finished stop))
      (.inCommand id bound (.value a)) := by
  refine LineEnv.admits_token (fun u n hu => ?_) fun _ hpass => hpass.elim
  cases hu
  exact ⟨_, hk, ht⟩

/-- An open run takes a value of its type. -/
theorem admits_run {a : Argument} {count : Nat} {type : ArgType} {separator : String}
    (hw : t.IsWord separator s) (hn : runType? a count = some type)
    (ht : ∀ span, type.takes (.scalar s span) = true) :
    (p.lineEnv context base).Admits text (.more t (.finished stop))
      (.inCommand id bound (.run a count)) := by
  refine LineEnv.admits_token (fun u n v hu hv => ?_) fun hsep hpass => ?_
  · cases hu
    rcases hw.2 with ⟨hsep, -⟩ | ⟨span, hk, -⟩
    · rw [Token.isSeparator_of_isValue (Token.isValue_of_kind hv)] at hsep
      cases hsep
    · rw [hk] at hv
      cases hv
      exact ⟨type, hn, ht span⟩
  · exfalso
    rcases hw.2 with ⟨h, -⟩ | ⟨span, hk, -⟩
    · rw [hsep] at h
      cases h
    · exact hpass ⟨t, _, rfl, Token.isValue_of_kind hk⟩

/-- A word that is no bundle of flags goes to the arguments that are left, and then to an open
run. -/
theorem bindToken_word {env : BindEnv} {q : BindState} {v : Literal} {cursor : TokenCursor}
    (hf : t.shortFlags? = none) (hk : t.kind = .value v) :
    env.bindToken q t cursor = env.bindUnnamed q v cursor := by
  rw [BindEnv.bindToken, hk]
  dsimp only
  rw [flagBundle?_of_shortFlags? hf]

/-- **A word that the open command offers fits it**: it names a sub-command, or it is among the
positional candidates, or nothing is missing and it names a root command. -/
theorem admits_word (ho : p.Ordinary) (hl : context.localizer = none)
    (hget : p.registry.get? id = some c) (hopen : ¬IsOpening s) {separator : String}
    (hw : t.IsWord separator s)
    (hs : (bound = [] ∧ s ∈ p.commandNames none (some id)) ∨
      s ∈ positionalCandidates (c.arguments.remaining bound) ∨
      (c.arguments.remaining bound).all (·.isOptional) = true ∧ s ∈ p.commandNames none none) :
    (p.lineEnv context base).Admits text (.more t (.finished stop))
      (.inCommand id bound .none) := by
  refine LineEnv.admits_token trivial fun hsep _ hchild d q hd hb => ?_
  obtain rfl : c = d := Option.some.inj (hget.symm.trans hd)
  obtain ⟨span, hk, hword⟩ := hw.2.resolve_left (by simp [hsep])
  have hc : (⟨t.span.stop, .finished stop⟩ : TokenCursor).tokens = .finished stop := rfl
  have hrem : (((p.lineEnv context base).bindEnv .partialLine id c).inText text).remaining q =
      c.arguments.remaining bound := by
    rw [← hb]
    rfl
  rw [bindToken_word hw.1 hk, BindEnv.bindUnnamed, hrem]
  rcases hs with ⟨hempty, hs⟩ | hs | ⟨hall, hs⟩
  · obtain ⟨child, e, hone, -⟩ := childMatch_of_mem ho hl hs hword base
    rcases hchild with hne | hnone
    · exact absurd hempty hne
    · rw [hone] at hnone
      cases hnone
  · obtain ⟨r, hr⟩ : ∃ r, (((p.lineEnv context base).bindEnv .partialLine id c).inText text).offer q
        (.scalar s span) ⟨t.span.stop, .finished stop⟩ (c.arguments.remaining bound) =
          .ok (some r) :=
      BindEnv.offer_candidate (not_or.mp hopen) hc (fun a ha => (ho.remaining hget bound a ha).type) hs
    rw [hr]
    exact ⟨some r, rfl, fun h => by cases h⟩
  · have hviable : (p.lineEnv context text).Viable (.more t (.finished stop))
        (.more t (.finished stop)) := viable_word ho hl hs hw _ text
    obtain ⟨o, hoffer⟩ :
        ∃ o, (((p.lineEnv context base).bindEnv .partialLine id c).inText text).offer q
          (.scalar s span) ⟨t.span.stop, .finished stop⟩ (c.arguments.remaining bound) = .ok o :=
      BindEnv.offer_optional hc (List.all_eq_true.mp hall)
    rw [hoffer]
    cases o with
    | some r => exact ⟨some r, rfl, fun _ => hviable⟩
    | none =>
      obtain ⟨o, hextend⟩ := BindEnv.extendRun_last
        (((p.lineEnv context base).bindEnv .partialLine id c).inText text) q (.scalar s span) hc
      exact ⟨o, hextend, fun _ => hviable⟩

/-! ### Names of arguments -/

/-- A named token that is bound fits wherever no value is waited for. -/
theorem admits_named {name : String} {assigned : Option Literal}
    (hk : t.kind = .named name assigned) (hp : pending.isValue = false)
    (h : ∀ (d : Command) (q : BindState), p.registry.get? id = some d → q.bound = bound →
      ∃ r, (((p.lineEnv context base).bindEnv .partialLine id d).inText text).bindNamed q t name
        assigned ⟨t.span.stop, .finished stop⟩ = .ok r) :
    (p.lineEnv context base).Admits text (.more t (.finished stop))
      (.inCommand id bound pending) := by
  refine LineEnv.admits_token ?_ fun _ _ _ d q hd hb => ?_
  · cases pending with
    | none => trivial
    | value a => cases hp
    | run a count =>
      intro u n v hu hv
      cases hu
      rw [hk] at hv
      cases hv
  · obtain ⟨r, hr⟩ := h d q hd hb
    refine ⟨some r, ?_, fun h => by cases h⟩
    rw [BindEnv.bindToken, hk]
    dsimp only
    rw [hr]
    rfl

/-- **The name of an argument that is not bound fits.** -/
theorem admits_flag (ho : p.Ordinary) (hget : p.registry.get? id = some c) {a : Argument}
    (ha : a ∈ c.arguments.remaining bound) (hk : t.kind = .named a.longName none)
    (hp : pending.isValue = false) :
    (p.lineEnv context base).Admits text (.more t (.finished stop))
      (.inCommand id bound pending) := by
  refine admits_named hk hp fun d q hd hb => ?_
  obtain rfl : c = d := Option.some.inj (hget.symm.trans hd)
  have hname : a.longName ∈ a.names := a.longName_mem (ho.remaining hget bound a ha).named
  have hknown : a.longName ∈
      (((p.lineEnv context base).bindEnv .partialLine id c).inText text).longNames a := by
    simpa [LineEnv.bindEnv, BindEnv.inText, Registry.argumentNames] using .inl hname
  have hrem : a ∈ (((p.lineEnv context base).bindEnv .partialLine id c).inText text).remaining q := by
    rw [← hb] at ha
    exact ha
  exact BindEnv.bindNamed_last rfl rfl hrem hknown

/-- **A value that the named argument can begin with can be assigned to it.** -/
theorem admits_assigned (hl : context.localizer = none) {a : Argument} {name : String}
    {span : Span} (ha : p.namedArgument? none id bound name = some a)
    (hk : t.kind = .named name (some (.scalar s span)))
    (ht : a.type.takes (.scalar s span) = true) (hp : pending.isValue = false) :
    (p.lineEnv context base).Admits text (.more t (.finished stop))
      (.inCommand id bound pending) := by
  refine admits_named hk hp fun d q hd hb => ?_
  have hfind : (((p.lineEnv context base).bindEnv .partialLine id d).inText text).findNamed?
      ((((p.lineEnv context base).bindEnv .partialLine id d).inText text).remaining q) name =
        some a := by
    rw [namedArgument?, hd, Option.bind_some] at ha
    rw [← ha, BindEnv.findNamed?, ← hb, ← hl]
    rfl
  exact BindEnv.bindNamed_assigned hfind ht

/-! ### What is offered -/

/-- A way to begin a value of a plain type is a bracket, or a bare word that the type takes. -/
theorem fresh_cases {t : ArgType} (ht : t.Plain p.config.Ordinary) (hs : s ∈ t.freshCandidates) :
    IsOpening s ∨ Bare s ∧ ∀ span, t.takes (.scalar s span) = true := by
  rcases ArgType.freshCandidates_cases ht hs with h | h | ⟨h, htakes⟩
  · exact .inl (.inl h)
  · exact .inl (.inr h)
  · refine .inr ⟨?_, htakes⟩
    rcases h with rfl | rfl | h
    · decide
    · decide
    · exact h.bare

theorem exists_of_mem_positionalCandidates : ∀ {as : List Argument},
    s ∈ positionalCandidates as → ∃ a ∈ as, s ∈ a.type.freshCandidates
  | [], h => by cases h
  | a :: as, h => by
    rw [positionalCandidates] at h
    rcases List.mem_append.mp h with h | h
    · exact ⟨a, List.mem_cons_self, h⟩
    · split at h
      · obtain ⟨b, hb, hs⟩ := exists_of_mem_positionalCandidates h
        exact ⟨b, List.mem_cons_of_mem a hb, hs⟩
      · cases h

/-- What an open command offers: a bracket, the name of an argument that is not bound, or a bare
word. If nothing is open in the command, the word is one that fits it. -/
theorem candidates_of_some (hp : pending.isValue = false) (hget : p.registry.get? id = some c) :
    p.candidates none (.inCommand id bound pending) =
      p.commandCandidates none id c bound pending := by
  cases pending with
  | value a => cases hp
  | none | run a count => simp only [candidates, hget]

theorem candidates_of_none (hp : pending.isValue = false) (hget : p.registry.get? id = none) :
    p.candidates none (.inCommand id bound pending) = ⟨[], [], []⟩ := by
  cases pending with
  | value a => cases hp
  | none | run a count => simp only [candidates, hget]

theorem commandCandidates_cases (ho : p.Ordinary) (hget : p.registry.get? id = some c)
    (hpending : pending.Of (·.Ordinary p.config))
    (hs : s ∈ (p.commandCandidates none id c bound pending).names ∨
      s ∈ (p.commandCandidates none id c bound pending).values ∨
      s ∈ (p.commandCandidates none id c bound pending).following) :
    IsOpening s ∨ (∃ a ∈ c.arguments.remaining bound, s = longFlag a.longName) ∨
      Bare s ∧ (pending = .none → (bound = [] ∧ s ∈ p.commandNames none (some id)) ∨
        s ∈ positionalCandidates (c.arguments.remaining bound) ∨
        (c.arguments.remaining bound).all (·.isOptional) = true ∧ s ∈ p.commandNames none none) := by
  simp only [commandCandidates, List.mem_append] at hs
  rcases hs with (hs | hs) | (hs | hs) | hs
  · split at hs
    · rename_i hempty
      exact .inr (.inr ⟨(ordinary_of_mem_commandNames ho hs).bare,
        fun _ => .inl ⟨List.isEmpty_iff.mp hempty, hs⟩⟩)
    · cases hs
  · rw [argumentFlags, List.append_nil] at hs
    obtain ⟨a, ha, rfl⟩ := List.mem_map.mp hs
    exact .inr (.inl ⟨a, ha, rfl⟩)
  · cases pending with
    | none => cases hs
    | value a => cases hs
    | run a count =>
      have ha : a.Ordinary p.config := hpending
      have hrun : s ∈ ((runType? a count).map ArgType.freshCandidates).getD [] := hs
      cases hn : runType? a count with
      | none => simp [hn] at hrun
      | some type =>
        rw [hn] at hrun
        rcases fresh_cases (ha.type.runType? hn) hrun with h | ⟨h, -⟩
        · exact .inl h
        · exact .inr (.inr ⟨h, fun hnone => by cases hnone⟩)
  · obtain ⟨a, ha, hfresh⟩ := exists_of_mem_positionalCandidates hs
    rcases fresh_cases (ho.remaining hget bound a ha).type hfresh with h | ⟨h, -⟩
    · exact .inl h
    · exact .inr (.inr ⟨h, fun _ => .inr (.inl hs)⟩)
  · cases pending with
    | value a => cases hs
    | run a count => cases hs
    | none =>
      dsimp only at hs
      split at hs
      · rename_i hall
        exact .inr (.inr ⟨(ordinary_of_mem_commandNames ho hs).bare, fun _ => .inr (.inr ⟨hall, hs⟩)⟩)
      · cases hs

end CommandParser
end CommandConsole
