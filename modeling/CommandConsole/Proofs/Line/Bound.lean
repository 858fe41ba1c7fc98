/-
# What the commands of a line are bound to

A line gives only commands that it binds completely and that may be used: what
was given for their arguments is settled, the other arguments have their
defaults, and nothing that they require is missing.

Key theorems: `LineEnv.bindCommand_completed`, `LineEnv.gate?_alike`, `CommandParser.mem_parse`.
-/
import CommandConsole.Proofs.Binding.Named
import CommandConsole.Proofs.Command.Forest
import CommandConsole.Proofs.Line.Consumption

namespace CommandConsole

theorem TokensPlaced.sublist {ts us : List Token} (h : TokensPlaced us) (hs : ts.Sublist us) :
    TokensPlaced ts :=
  ⟨fun t ht => h.1 t (hs.subset ht), h.2.sublist hs⟩

/-- The tokens of a line are placed in it. -/
theorem tokensPlaced_tokensOf (config : ParserConfig) (text : String) :
    TokensPlaced (config.tokensOf text).toList := by
  obtain ⟨hplaced, hpair⟩ := Tokens.ofCursor_placed config.tokenRules (Cursor.start text)
  exact ⟨fun t ht => (hplaced t ht).1, hpair⟩

namespace LineEnv

variable {env : LineEnv} {mode : BindMode} {t : Token} {rest : Tokens} {r : Resolved} {c : Command}
  {b : BindEnv.Binding} {args : List Argument} {bound : List BoundArgument}

/-- Without a localizer a command knows its arguments by the names that it declares. -/
theorem knows_of_static (hr : env.registry.WellFormed) (hl : env.context.localizer = none)
    {id : CommandId} (hget : env.registry.get? id = some c) (hargs : c.arguments = .static args) :
    (env.bindEnv mode id c).Knows args := by
  refine ⟨hargs, fun a => ?_, ?_⟩
  · simp [bindEnv, Registry.argumentNames, hl, Localizer.namesFor]
  · have htellable := hr.tellable hget
    rwa [hargs] at htellable

/-- **A command of a whole line is bound completely.** -/
theorem bindCommand_completed (hs : TokensPlaced (Tokens.more t rest).toList)
    (h : env.bindCommand .complete t rest = .ok (r, c, b)) (hargs : c.arguments = .static args) :
    ∃ s, (env.bindEnv .complete r.id c).Completed args s b.state.bound := by
  obtain ⟨names, used, sep, s, bundles, entries, hrest, -, -, -, -, -, hA, hf⟩ :=
    bindCommand_tokens h (BindEnv.offers_static hargs)
  obtain ⟨hstate, hopt⟩ := BindEnv.finish_complete rfl hf
  have hplaced : ∀ u ∈ used, u.Placed := by
    intro u hu
    refine hs.1 u (List.mem_cons_of_mem _ ?_)
    rw [hrest, Tokens.toList_prepend]
    exact List.mem_append_left _ (List.mem_append_left _ (List.mem_append_right _ hu))
  refine ⟨s, ?_, hopt, ?_, List.pairwise_map.mp hA.ledger.ids⟩
  · rw [hstate]
  · intro d hd
    refine ⟨hA.ledger.origin_ne d hd, ?_⟩
    rw [hA.ledger.bound] at hd
    obtain ⟨e, he, rfl⟩ := List.mem_map.mp hd
    obtain ⟨a, ha, hg⟩ := hA.ledger.given e he
    exact ⟨a, ha, hg.settled hplaced⟩

/-! ### Requirements -/

theorem gate?_eq_none {span : Span} :
    env.gate? c span bound = none ↔
      c.requiredInformation.find? (fun i => (env.context.find? i).isNone) = none ∧
      env.unsatisfied? c.requirements = none ∧
      ∀ b ∈ bound, env.argumentGate? c.arguments.all b = none := by
  rw [← List.findSome?_eq_none_iff, gate?]
  split
  · simp_all
  · split <;> simp_all

theorem checkGate_eq_ok :
    env.checkGate r c bound = .ok () ↔ env.gate? c r.span bound = none := by
  unfold checkGate
  split <;> simp_all

theorem unsatisfied?_same {env' : LineEnv} (hctx : env'.context = env.context)
    (rs : List Requirement) : env'.unsatisfied? rs = env.unsatisfied? rs := by
  rw [unsatisfied?, unsatisfied?, hctx]

theorem findSome?_alike {α β γ δ : Type} {R : α → β → Prop} {S : γ → δ → Prop}
    {f : α → Option γ} {g : β → Option δ} (hfg : ∀ x y, R x y → Option.Rel S (f x) (g y))
    {xs : List α} {ys : List β} (h : List.Forall₂ R xs ys) :
    Option.Rel S (xs.findSome? f) (ys.findSome? g) := by
  induction h with
  | nil => exact .none
  | @cons x y xs ys hxy _ ih =>
    have hhead := hfg x y hxy
    rw [List.findSome?_cons, List.findSome?_cons]
    generalize f x = p at hhead ⊢
    generalize g y = q at hhead ⊢
    cases hhead with
    | none => exact ih
    | some h => exact .some h

/-- What is required and missing depends on the context, and on which arguments are given: it does
not depend on how and where. -/
theorem gate?_alike {env' : LineEnv} (hctx : env'.context = env.context) (c : Command)
    (span span' : Span) {bound' : List BoundArgument}
    (h : List.Forall₂ (fun b d => d.id = b.id ∧ (d.origin = .default ↔ b.origin = .default))
      bound bound') :
    Option.Rel (fun x y => y.1 = x.1) (env.gate? c span bound) (env'.gate? c span' bound') := by
  have hargument : ∀ b d : BoundArgument,
      d.id = b.id ∧ (d.origin = .default ↔ b.origin = .default) →
        Option.Rel (fun x y => y.1 = x.1) (env.argumentGate? c.arguments.all b)
          (env'.argumentGate? c.arguments.all d) := by
    intro b d hbd
    unfold argumentGate?
    simp only [hbd.1, hbd.2, unsatisfied?_same hctx]
    split
    · exact .none
    · cases c.arguments.all.find? fun a => a.id == b.id with
      | none => exact .none
      | some a =>
        rw [Option.bind_some, Option.bind_some]
        cases env.unsatisfied? a.requirements with
        | none => exact .none
        | some r => exact .some rfl
  unfold gate?
  rw [unsatisfied?_same hctx, hctx]
  split
  · exact .some rfl
  · split
    · exact .some rfl
    · exact findSome?_alike hargument h

/-- What may be used may be used again with the same arguments. -/
theorem checkGate_same {env' : LineEnv} {r' : Resolved} {bound' : List BoundArgument}
    (hctx : env'.context = env.context) (hall : List.Forall₂ BoundArgument.Same bound bound')
    (h : env.checkGate r c bound = .ok ()) : env'.checkGate r' c bound' = .ok () := by
  have hgate : Option.Rel (fun x y => y.1 = x.1) (env.gate? c r.span bound)
      (env'.gate? c r'.span bound') :=
    gate?_alike hctx c r.span r'.span (hall.imp fun b d hbd => ⟨hbd.id, hbd.default⟩)
  rw [checkGate_eq_ok.mp h] at hgate
  generalize hg : env'.gate? c r'.span bound' = g at hgate
  cases hgate
  exact checkGate_eq_ok.mpr hg

end LineEnv

/-- A command that a line gives brings along the declaration registered with its id. -/
theorem CommandParser.registered_of_parse {p : CommandParser} {context : ParseContext}
    {text : String} {cmds : List BoundCommand} (h : p.parse context text = .ok cmds)
    {c : BoundCommand} (hc : c ∈ cmds) : p.registry.get? c.id = some c.command := by
  obtain ⟨_, _, r, declared, b, -, hbind, -, rfl⟩ :=
    LineEnv.mem_parseCommands (p.config.tokensOf text) h hc
  exact (LineEnv.bindCommand_eq_ok hbind).2.1

/-- **A command that a line gives is bound completely, and may be used.** -/
theorem CommandParser.mem_parse {p : CommandParser} {context : ParseContext} {text : String}
    {cmds : List BoundCommand} (h : p.parse context text = .ok cmds) {c : BoundCommand}
    (hc : c ∈ cmds) {declared : Command} (hget : p.registry.get? c.id = some declared)
    {args : List Argument} (hargs : declared.arguments = .static args) :
    c.name = p.registry.fullName c.id ∧
    (∃ s, ((p.lineEnv context text).bindEnv .complete c.id declared).Completed args s c.arguments) ∧
    ∃ r, (p.lineEnv context text).checkGate r declared c.arguments = .ok () := by
  obtain ⟨t, rest, r, cmd, b, hsuffix, hbind, hgate, rfl⟩ :=
    LineEnv.mem_parseCommands (p.config.tokensOf text) h hc
  obtain ⟨-, hcmd, -⟩ := LineEnv.bindCommand_eq_ok hbind
  obtain rfl : cmd = declared := Option.some.inj (hcmd.symm.trans hget)
  have hplaced := (tokensPlaced_tokensOf p.config text).sublist hsuffix.sublist
  exact ⟨rfl, LineEnv.bindCommand_completed hplaced hbind hargs, r, hgate⟩

end CommandConsole
