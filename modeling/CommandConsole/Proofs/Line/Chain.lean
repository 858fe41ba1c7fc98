/-
# Lines of several commands

Two lines with the separator between them are one line. It gives the commands
of the first and then those of the second, and fails as the first of the two
that fails: no look ahead goes past the separator, and nothing of the first
command is left when the second begins.

Key definitions: `BoundCommand.Alike`, `ArgumentSource.Blind`, `LineEnv.Heeds`,
`ParserConfig.chain`, `ParserConfig.ReadsChain`.
Key theorems: `LineEnv.bindCommand_alike`, `LineEnv.parseCommands_alike`,
`CommandParser.parse_chain`.
-/
import CommandConsole.Proofs.Binding.Alike
import CommandConsole.Proofs.Line.Bound
import CommandConsole.Proofs.Line.Truncation

namespace CommandConsole

/-- The same command with the same arguments, wherever it stands. -/
structure BoundCommand.Alike (c d : BoundCommand) : Prop where
  name : d.name = c.name
  id : d.id = c.id
  command : d.command = c.command
  arguments : List.Forall₂ (BoundArgument.Alike .unplaced) c.arguments d.arguments

structure Resolved.Alike (σ : Sight) (n : Nat) (e : Tokens) (r r' : Resolved) : Prop where
  id : r'.id = r.id
  tokens : Tokens.Alike σ n e r.cursor.tokens r'.cursor.tokens

namespace LineEnv

/-- The commands see the literals of a line as `σ` does. -/
def Heeds (σ : Sight) (env : LineEnv) : Prop :=
  ∀ id c, env.registry.get? id = some c → (env.bindEnv .complete id c).Heeds σ

variable {σ : Sight} {n : Nat} {e : Tokens} {env : LineEnv} {text : String} {t u : Token}
  {ts us : Tokens}

theorem childMatch_alike (h : t.Alike σ u) (parent : Option CommandId) :
    (env.inText text).childMatch parent u = env.childMatch parent t := by
  rw [childMatch, childMatch, h.word?_eq]
  rfl

/-- A name ends in front of a separator as it does at the end of the line. -/
theorem descend_alike (he : e.Ends) (h : Tokens.Alike σ n e ts us) (id : CommandId)
    (span span' : Span) : Agree (ParseFail.Moved n) (Resolved.Alike σ n e)
      (env.descend id span ts) ((env.inText text).descend id span' us) := by
  induction h generalizing id span span' with
  | finished stop =>
    cases he with
    | finished stop' => exact .ok ⟨rfl, .finished stop⟩
    | @separator next rest hk =>
      have hword : next.word? = none := by rw [Token.word?, hk]
      have hchild : (env.inText text).childMatch (some id) next = .none := by
        rw [childMatch, hword]
      rw [descend, descend, hchild]
      · exact .ok ⟨rfl, .finished stop⟩
      · intro t rest h
        cases h
  | broken start start' hm => exact .ok ⟨rfl, .broken start start' hm⟩
  | @more t u ts us ht hs ih =>
    rw [descend, descend, childMatch_alike ht]
    split
    · exact .ok ⟨rfl, .more ht hs⟩
    · exact ih _ _ _
    · refine .error ?_
      unfold ParseFail.Moved ambiguous fail
      dsimp only
      rw [ht.raw]
      rfl

theorem notFound_alike (h : t.Alike σ u) :
    (env.notFound t).Moved n ((env.inText text).notFound u) := by
  unfold ParseFail.Moved notFound fail
  dsimp only
  rw [h.raw]
  rfl

theorem resolve_alike (he : e.Ends) (text : String) (ht : t.Alike σ u)
    (hs : Tokens.Alike σ n e ts us) : Agree (ParseFail.Moved n) (Resolved.Alike σ n e)
      (env.resolve t ts) ((env.inText text).resolve u us) := by
  rw [resolve, resolve, childMatch_alike ht]
  split
  · exact .error (notFound_alike ht)
  · exact descend_alike he hs _ _ _
  · refine .error ?_
    unfold ParseFail.Moved ambiguous fail
    dsimp only
    rw [ht.raw]
    rfl

/-- **A command is resolved and bound alike**, wherever it stands. -/
theorem bindCommand_alike (he : e.Ends) (henv : env.Heeds σ) (text : String) (ht : t.Alike σ u)
    (hs : Tokens.Alike σ n e ts us) :
    Agree (ParseFail.Moved n) (fun x y => y.1.id = x.1.id ∧ y.2.1 = x.2.1 ∧
        List.Forall₂ (BoundArgument.Alike .unplaced) x.2.2.state.bound y.2.2.state.bound ∧
          x.2.2.Follows σ n e y.2.2)
      (env.bindCommand .complete t ts) ((env.inText text).bindCommand .complete u us) := by
  unfold bindCommand
  have hresolve : Agree (ParseFail.Moved n) (Resolved.Alike σ n e) (env.resolve t ts)
      ((env.inText text).resolve u us) := resolve_alike he text ht hs
  rcases hresolve.cases with ⟨f, g, hf, hg, hfg⟩ | ⟨r, r', hr, hr', hid, htokens⟩
  · rw [hf, hg]
    exact .error hfg
  · rw [hr, hr']
    dsimp only
    rw [hid, show (env.inText text).registry = env.registry from rfl]
    cases hget : env.registry.get? r.id with
    | none => exact .error (notFound_alike ht)
    | some c =>
      exact (BindEnv.bind_alike he rfl (henv r.id c hget) text htokens).map
        fun b b' hb => ⟨hid, rfl, hb.1, hb.2⟩

theorem bindCommand_alike_ok (he : e.Ends) (henv : env.Heeds σ) (text : String) (ht : t.Alike σ u)
    (hs : Tokens.Alike σ n e ts us) {r : Resolved} {c : Command} {b : BindEnv.Binding}
    (h : env.bindCommand .complete t ts = .ok (r, c, b)) : ∃ r' b',
      (env.inText text).bindCommand .complete u us = .ok (r', c, b') ∧ r'.id = r.id ∧
        List.Forall₂ (BoundArgument.Alike .unplaced) b.state.bound b'.state.bound ∧
          b.Follows σ n e b' := by
  obtain ⟨⟨r', c', b'⟩, hy, hid, hc, hbound, hfollows⟩ :=
    (bindCommand_alike he henv text ht hs).of_ok h
  obtain rfl : c' = c := hc
  exact ⟨r', b', hy, hid, hbound, hfollows⟩

/-! ### Requirements -/

theorem checkGate_alike (env : LineEnv) (text : String) (c : Command) {r r' : Resolved}
    (hid : r'.id = r.id) {bound bound' : List BoundArgument}
    (h : List.Forall₂ (BoundArgument.Alike .unplaced) bound bound') :
    Agree (ParseFail.Moved n) Eq (env.checkGate r c bound)
      ((env.inText text).checkGate r' c bound') := by
  have hgate : Option.Rel (fun x y => y.1 = x.1) (env.gate? c r.span bound)
      ((env.inText text).gate? c r'.span bound') :=
    gate?_alike rfl c r.span r'.span (h.imp fun b d hbd => ⟨hbd.id, by rw [hbd.origin]⟩)
  unfold checkGate
  generalize env.gate? c r.span bound = x at hgate ⊢
  generalize (env.inText text).gate? c r'.span bound' = y at hgate ⊢
  cases hgate with
  | none => exact .ok rfl
  | @some x y hxy =>
    refine .error ?_
    unfold ParseFail.Moved fail
    dsimp only
    rw [hxy, hid]
    rfl

/-! ### Commands -/

/-- The second answer fails as the first does, or begins with commands that are alike and goes on
with those of `rest`. -/
inductive GoesOn (n : Nat) (rest : Except ParseFail (List BoundCommand)) :
    Except ParseFail (List BoundCommand) → Except ParseFail (List BoundCommand) → Prop
  | error {f g : ParseFail} (h : f.Moved n g) : GoesOn n rest (.error f) (.error g)
  | ok {cs ds : List BoundCommand} (h : List.Forall₂ BoundCommand.Alike cs ds) :
      GoesOn n rest (.ok cs) (rest.map (ds ++ ·))

theorem GoesOn.nil (n : Nat) (rest : Except ParseFail (List BoundCommand)) :
    GoesOn n rest (.ok []) rest := by
  have hrest : rest.map ([] ++ ·) = rest := by cases rest <;> rfl
  have h : GoesOn n rest (.ok []) (rest.map ([] ++ ·)) := .ok .nil
  rwa [hrest] at h

theorem GoesOn.cons {rest x y : Except ParseFail (List BoundCommand)} (h : GoesOn n rest x y)
    {c d : BoundCommand} (hcd : c.Alike d) : GoesOn n rest (x.map (c :: ·)) (y.map (d :: ·)) := by
  cases h with
  | error h => exact .error h
  | @ok cs ds h =>
    have hmap : (rest.map (ds ++ ·)).map (d :: ·) = rest.map (d :: ds ++ ·) := by
      cases rest <;> rfl
    rw [hmap]
    exact .ok (.cons hcd h)

theorem GoesOn.of_error {rest x y : Except ParseFail (List BoundCommand)} (h : GoesOn n rest x y)
    {f : ParseFail} (hf : x = .error f) : ∃ g, y = .error g ∧ f.Moved n g := by
  cases h with
  | error h =>
    cases hf
    exact ⟨_, rfl, h⟩
  | ok h => cases hf

theorem GoesOn.of_ok {rest x y : Except ParseFail (List BoundCommand)} (h : GoesOn n rest x y)
    {cs : List BoundCommand} (hcs : x = .ok cs) :
    ∃ ds, List.Forall₂ BoundCommand.Alike cs ds ∧ y = rest.map (ds ++ ·) := by
  cases h with
  | error h => cases hcs
  | ok h =>
    cases hcs
    exact ⟨_, h, rfl⟩

/-- If both answers have commands, the whole has those of the first and then those of the second. -/
theorem GoesOn.append {m : Nat} {rest x y z : Except ParseFail (List BoundCommand)}
    (h : GoesOn n rest x z) (hrest : GoesOn m (.ok []) y rest) {as bs : List BoundCommand}
    (has : x = .ok as) (hbs : y = .ok bs) :
    ∃ cs, z = .ok cs ∧ List.Forall₂ BoundCommand.Alike (as ++ bs) cs := by
  obtain ⟨as', has', hz⟩ := h.of_ok has
  obtain ⟨bs', hbs', hr⟩ := hrest.of_ok hbs
  refine ⟨as' ++ bs', ?_, List.rel_append has' hbs'⟩
  rw [hz, hr, Except.map, Except.map, List.append_nil]

/-- If only the second answer is a failure, the whole fails as it does. -/
theorem GoesOn.fails {m : Nat} {rest x y z : Except ParseFail (List BoundCommand)}
    (h : GoesOn n rest x z) (hrest : GoesOn m (.ok []) y rest) {as : List BoundCommand}
    {f : ParseFail} (has : x = .ok as) (hf : y = .error f) : ∃ g, z = .error g ∧ f.Moved m g := by
  obtain ⟨as', -, hz⟩ := h.of_ok has
  obtain ⟨g, hg, hfg⟩ := hrest.of_error hf
  exact ⟨g, by rw [hz, hg, Except.map], hfg⟩

/-- **A line gives the same commands with something else behind it.** What is behind begins with a
separator, and its commands follow. -/
theorem parseCommands_alike (env : LineEnv) (he : e.Ends) (henv : env.Heeds σ) (text : String)
    (ts : Tokens) : ∀ {us : Tokens}, Tokens.Alike σ n e ts us →
      GoesOn n ((env.inText text).parseCommands e) (env.parseCommands ts)
        ((env.inText text).parseCommands us) := by
  fun_induction env.parseCommands ts with
  | case1 stop =>
    intro us h
    cases h with
    | finished => exact .nil n _
  | case2 start f =>
    intro us h
    cases h with
    | broken _ start' hm =>
      rw [parseCommands]
      exact .error (hm.ofLiteral _ _)
  | case3 t rest ht ih =>
    intro us h
    obtain ⟨u, vs, rfl, hu, hs⟩ := h.of_more
    rw [parseCommands_separator (by rw [hu.isSeparator_eq, ht])]
    exact ih hs
  | case4 t rest ht f hf =>
    intro us h
    obtain ⟨u, vs, rfl, hu, hs⟩ := h.of_more
    have hu' : u.isSeparator = false := by rw [hu.isSeparator_eq]; simpa using ht
    obtain ⟨g, hg, hfg⟩ := (bindCommand_alike he henv text hu hs).of_error hf
    rw [parseCommands_error hu' hg]
    exact .error hfg
  | case5 t rest ht r c b hb f hf =>
    intro us h
    obtain ⟨u, vs, rfl, hu, hs⟩ := h.of_more
    have hu' : u.isSeparator = false := by rw [hu.isSeparator_eq]; simpa using ht
    obtain ⟨r', b', hb', hid, hbound, -⟩ := bindCommand_alike_ok he henv text hu hs hb
    obtain ⟨g, hg, hfg⟩ := (checkGate_alike env text c hid hbound).of_error hf
    rw [parseCommands_refused hu' hb' hg]
    exact .error hfg
  | case6 t rest ht r c b hb hok ih =>
    intro us h
    obtain ⟨u, vs, rfl, hu, hs⟩ := h.of_more
    have hu' : u.isSeparator = false := by rw [hu.isSeparator_eq]; simpa using ht
    obtain ⟨r', b', hb', hid, hbound, hfollows⟩ := bindCommand_alike_ok he henv text hu hs hb
    have hcommand : (env.boundCommand r c b).Alike ((env.inText text).boundCommand r' c b') :=
      ⟨congrArg env.registry.fullName hid, hid, rfl, hbound⟩
    obtain ⟨_, hgate, -⟩ := (checkGate_alike (n := n) env text c hid hbound).of_ok hok
    rw [parseCommands_command hu' hb' hgate]
    rcases hfollows with hrest | ⟨hend, t, ht, rfl⟩
    · exact (ih hrest).cons hcommand
    · -- the separator stands where the line ended
      obtain ⟨stop, hfinished⟩ := Tokens.exists_of_isFinished hend
      have hsep : t.isSeparator = true := by rw [Token.isSeparator, ht]
      rw [hfinished, parseCommands, parseCommands_separator hsep]
      exact (GoesOn.nil n _).cons hcommand

end LineEnv

/-! ### Arguments that do not look at places -/

/-- The argument with its input wherever that stands. -/
def BoundArgument.unspanned (b : BoundArgument) : BoundArgument :=
  { b with input := b.input.unspanned }

/-- Which arguments come next does not depend on the spans of what is bound, and neither does what
their types take. -/
structure ArgumentSource.Blind (source : ArgumentSource) : Prop where
  candidates : ∀ bound, source.candidates (bound.map BoundArgument.unspanned) =
    source.candidates bound
  types : ∀ bound, ∀ a ∈ source.candidates bound, a.type.Blind

theorem ArgumentSource.blind_static {args : List Argument} (h : ∀ a ∈ args, a.type.Builtin) :
    (ArgumentSource.static args).Blind where
  candidates := fun _ => rfl
  types := fun _ a ha => (h a ha).blind

/-- No command looks at the spans of what it is given. -/
def Registry.Blind (r : Registry) : Prop := ∀ id c, r.get? id = some c → c.arguments.Blind

theorem BoundArgument.Alike.unspanned_eq {b d : BoundArgument} (h : b.Alike .unplaced d) :
    d.unspanned = b.unspanned := by
  obtain ⟨hid, hinput, hvalue, horigin⟩ := h
  rw [unspanned, unspanned, hid, hinput.unspanned_eq, hvalue, horigin]

theorem BoundArgument.map_unspanned_eq {bound bound' : List BoundArgument}
    (h : List.Forall₂ (Alike .unplaced) bound bound') :
    bound'.map unspanned = bound.map unspanned := by
  induction h with
  | nil => rfl
  | cons h _ ih => rw [List.map_cons, List.map_cons, ih, h.unspanned_eq]

namespace BindEnv

theorem heeds_exact (env : BindEnv) : env.Heeds .exact where
  remaining := by
    intro bound bound' h
    have heq : List.Forall₂ Eq bound bound' := h.imp fun _ _ h => h.eq.symm
    rw [List.forall₂_eq_eq_eq] at heq
    rw [heq]
  types := fun _ a _ => a.type.heeds_exact

theorem heeds_unplaced {env : BindEnv} (h : env.source.Blind) : env.Heeds .unplaced where
  remaining := by
    intro bound bound' hbound
    have hcandidates : env.source.candidates bound' = env.source.candidates bound := by
      rw [← h.candidates bound', BoundArgument.map_unspanned_eq hbound, h.candidates]
    rw [ArgumentSource.remaining, ArgumentSource.remaining, hcandidates]
    exact List.filter_congr fun a _ => by rw [BoundArgument.any_id_alike hbound]
  types := fun s a ha => (h.types s.bound a (List.mem_filter.mp ha).1).heeds

end BindEnv

/-- The size of a shape depends on its kind, and on nothing else. -/
theorem Demo.blind_shapeArguments : (ArgumentSource.dynamic shapeArguments).Blind where
  candidates := by
    intro bound
    have hfind : ((bound.map BoundArgument.unspanned).find? fun b => b.id == "kind") =
        (bound.find? fun b => b.id == "kind").map BoundArgument.unspanned := List.find?_map ..
    simp only [ArgumentSource.candidates, shapeArguments, hfind, Option.bind_map]
    rfl
  types := by
    intro bound a ha
    have ha : a = shapeKind ∨ a = rectangle ∨ a = circle := by
      simp only [ArgumentSource.candidates, shapeArguments] at ha
      split at ha
      · exact .inl (List.mem_singleton.mp ha)
      · split at ha
        · exact .inr (.inl (List.mem_singleton.mp ha))
        · exact .inr (.inr (List.mem_singleton.mp ha))
    refine ArgType.Builtin.blind ?_
    rcases ha with rfl | rfl | rfl <;> repeat constructor

/-- No built-in command looks at places. -/
theorem Demo.blind_parser : Demo.parser.registry.Blind := by
  have hregistry : Registry.empty.registerAll commands = .ok parser.registry :=
    Registry.registerAll_toOption (by decide +kernel)
  have hall : ∀ c ∈ commands, c.arguments.Blind := by
    simp only [commands, List.forall_mem_cons]
    and_intros
    all_goals first
      | exact blind_shapeArguments
      | exact ArgumentSource.blind_static (by
          simp [vararg, Argument.flag, Argument.withDefault, Argument.new, personType,
            ArgType.Builtin, ArgType.BuiltinFields])
      | simp
  intro id c hget
  rw [Registry.get?_registerAll hregistry] at hget
  exact hall c (List.mem_of_getElem? hget)

/-! ### Comparing tokens -/

namespace Literal

mutual

/-- Whether two literals are the same, their spans included. -/
def decEq : (v w : Literal) → Decidable (v = w)
  | .empty s, .empty t => decidable_of_iff (s = t) (by simp)
  | .scalar a s, .scalar b t => decidable_of_iff (a = b ∧ s = t) (by simp)
  | .list as s, .list bs t =>
    have := decEqItems as bs
    decidable_of_iff (as = bs ∧ s = t) (by simp)
  | .map as s, .map bs t =>
    have := decEqEntries as bs
    decidable_of_iff (as = bs ∧ s = t) (by simp)
  | .empty _, .scalar .. | .empty _, .list .. | .empty _, .map .. => isFalse nofun
  | .scalar .., .empty _ | .scalar .., .list .. | .scalar .., .map .. => isFalse nofun
  | .list .., .empty _ | .list .., .scalar .. | .list .., .map .. => isFalse nofun
  | .map .., .empty _ | .map .., .scalar .. | .map .., .list .. => isFalse nofun

def decEqItems : (as bs : List Literal) → Decidable (as = bs)
  | [], [] => isTrue rfl
  | a :: as, b :: bs =>
    have := decEq a b
    have := decEqItems as bs
    decidable_of_iff (a = b ∧ as = bs) (by simp)
  | [], _ :: _ | _ :: _, [] => isFalse nofun

def decEqEntries : (as bs : List (Literal × Literal)) → Decidable (as = bs)
  | [], [] => isTrue rfl
  | (k, v) :: as, (l, w) :: bs =>
    have := decEq k l
    have := decEq v w
    have := decEqEntries as bs
    decidable_of_iff (k = l ∧ v = w ∧ as = bs) (by simp [and_assoc])
  | [], _ :: _ | _ :: _, [] => isFalse nofun

end

instance : DecidableEq Literal := decEq

end Literal

deriving instance DecidableEq for TokenKind, Token, Tokens

/-! ### Two lines in one -/

namespace ParserConfig

variable (config : ParserConfig) (a b : String)

/-- What stands in front of the second line. -/
def chainHead : String := a ++ " " ++ config.chainSeparator ++ " "

/-- The two lines with the separator between them. -/
def chain : String := config.chainHead a ++ b

/-- The tokens of the two lines in one are those of the first, a separator, and those of the second
where they stand now. -/
def ReadsChain : Prop := ∃ ts stop t, config.tokensOf a = .prepend ts (.finished stop) ∧
  t.isSeparator = true ∧ config.tokensOf (config.chain a b) =
    .prepend ts (.more t ((config.tokensOf b).shift (textLength (config.chainHead a))))

end ParserConfig

namespace CommandParser

variable {p : CommandParser} {context : ParseContext} {a b : String}

/-- The first line goes on with what the second comes to where it stands now. -/
theorem parse_goesOn (context : ParseContext) (h : p.config.ReadsChain a b) : ∃ rest,
    LineEnv.GoesOn 0 rest (p.parse context a) (p.parse context (p.config.chain a b)) ∧
      (p.registry.Blind → LineEnv.GoesOn (textLength (p.config.chainHead a)) (.ok [])
        (p.parse context b) rest) := by
  obtain ⟨ts, stop, t, ha, ht, hline⟩ := h
  let env := p.lineEnv context (p.config.chain a b)
  let moved := (p.config.tokensOf b).shift (textLength (p.config.chainHead a))
  refine ⟨env.parseCommands moved, ?_, fun hblind => ?_⟩
  · have hends : (Tokens.more t moved).Ends := .separator moved (Token.kind_of_isSeparator ht)
    have hgoes := LineEnv.parseCommands_alike (n := 0) (p.lineEnv context a) hends
      (fun id c _ => ((p.lineEnv context a).bindEnv .complete id c).heeds_exact)
      (p.config.chain a b) _ (.prepend .exact 0 _ stop ts)
    rw [LineEnv.parseCommands_separator ht] at hgoes
    rw [parse, parse, ha, hline]
    exact hgoes
  · obtain ⟨stop', halike⟩ := (p.config.tokensOf b).alike_shift (textLength (p.config.chainHead a))
    have hgoes := LineEnv.parseCommands_alike (p.lineEnv context b) (.finished stop')
      (fun id c hget => BindEnv.heeds_unplaced (hblind id c hget)) (p.config.chain a b) _ halike
    have hnil : ((p.lineEnv context b).inText (p.config.chain a b)).parseCommands
        (.finished stop') = .ok [] := by rw [LineEnv.parseCommands]
    rw [hnil] at hgoes
    exact hgoes

/-- **Two lines with a separator between them are one line**: it fails as the first does, and
otherwise gives its commands and goes on as the second does, if no command looks at places. The
position of a literal that cannot be read moves along. -/
theorem parse_chain (h : p.config.ReadsChain a b) :
    (∀ f, p.parse context a = .error f →
      ∃ g, p.parse context (p.config.chain a b) = .error g ∧ g.kind = f.kind) ∧
    (p.registry.Blind →
      ((∃ cs, p.parse context (p.config.chain a b) = .ok cs) ↔
        (∃ as, p.parse context a = .ok as) ∧ ∃ bs, p.parse context b = .ok bs) ∧
      ∀ as, p.parse context a = .ok as →
        (∀ bs, p.parse context b = .ok bs →
          ∃ cs, p.parse context (p.config.chain a b) = .ok cs ∧
            List.Forall₂ BoundCommand.Alike (as ++ bs) cs) ∧
        ∀ f, p.parse context b = .error f →
          ∃ g, p.parse context (p.config.chain a b) = .error g ∧
            g.kind = f.kind.moved (textLength (p.config.chainHead a))) := by
  obtain ⟨rest, hfirst, hsecond⟩ := parse_goesOn context h
  have hfails : ∀ f, p.parse context a = .error f →
      ∃ g, p.parse context (p.config.chain a b) = .error g ∧ g.kind = f.kind := by
    intro f hf
    obtain ⟨g, hg, hfg⟩ := hfirst.of_error hf
    exact ⟨g, hg, hfg.trans f.kind.moved_zero⟩
  refine ⟨hfails, fun hblind => ?_⟩
  have hrest := hsecond hblind
  refine ⟨⟨?_, ?_⟩, fun as has =>
    ⟨fun bs => hfirst.append hrest has, fun f => hfirst.fails hrest has⟩⟩
  · rintro ⟨cs, hcs⟩
    cases ha : p.parse context a with
    | error f =>
      obtain ⟨g, hg, -⟩ := hfails f ha
      rw [hcs] at hg
      cases hg
    | ok as =>
      cases hb : p.parse context b with
      | error f =>
        obtain ⟨g, hg, -⟩ := hfirst.fails hrest ha hb
        rw [hcs] at hg
        cases hg
      | ok bs => exact ⟨⟨as, rfl⟩, bs, rfl⟩
  · rintro ⟨⟨as, has⟩, bs, hbs⟩
    obtain ⟨cs, hcs, -⟩ := hfirst.append hrest has hbs
    exact ⟨cs, hcs⟩

end CommandParser

/-- A run in front of the separator, and behind it a flag that takes a value. -/
theorem CommandParser.parse_chain_fetch :
    Demo.parser.config.chain "say a" "fetch -n 2 u" = "say a & fetch -n 2 u" ∧
    Demo.parser.config.ReadsChain "say a" "fetch -n 2 u" ∧ Demo.parser.registry.Blind ∧
    ∃ as bs cs, Demo.parser.parse .empty "say a" = .ok as ∧
      Demo.parser.parse .empty "fetch -n 2 u" = .ok bs ∧
      Demo.parser.parse .empty "say a & fetch -n 2 u" = .ok cs ∧
      cs.length = 2 ∧ List.Forall₂ BoundCommand.Alike (as ++ bs) cs := by
  have hchain : Demo.parser.config.chain "say a" "fetch -n 2 u" = "say a & fetch -n 2 u" := by
    decide +kernel
  have hreads : Demo.parser.config.ReadsChain "say a" "fetch -n 2 u" := by
    refine ⟨[⟨.value (.scalar "say" ⟨0, 3⟩), ⟨0, 3⟩, "say"⟩,
      ⟨.value (.scalar "a" ⟨4, 5⟩), ⟨4, 5⟩, "a"⟩], 5, ⟨.separator, ⟨6, 7⟩, "&"⟩, ?_, rfl, ?_⟩
    all_goals decide +kernel
  have hfirst : (Demo.parser.parse .empty "say a").toOption.map List.length = some 1 := by
    decide +kernel
  have hsecond : (Demo.parser.parse .empty "fetch -n 2 u").toOption.map List.length = some 1 := by
    decide +kernel
  obtain ⟨as, has, hone⟩ := Option.map_eq_some_iff.mp hfirst
  obtain ⟨bs, hbs, hother⟩ := Option.map_eq_some_iff.mp hsecond
  have ha := Except.eq_ok_of_toOption has
  have hb := Except.eq_ok_of_toOption hbs
  obtain ⟨cs, hcs, hall⟩ := (((parse_chain hreads).2 Demo.blind_parser).2 as ha).1 bs hb
  refine ⟨hchain, hreads, Demo.blind_parser, as, bs, cs, ha, hb, hchain ▸ hcs, ?_, hall⟩
  rw [← hall.length_eq, List.length_append, hone, hother]

/-- A command whose argument has to stand third in the line. -/
def Demo.third : Command :=
  Demo.command "c" "Take what stands third" [.new "value" (.custom ⟨"third", .single,
    fun v => if v.span.start = 2 then .ok .unit else .error "not third", []⟩)]

/-- A command that asks for a second argument unless the first stands third in the line. -/
def Demo.thirdAlone : Command :=
  { Demo.command "c" "Take more than what stands third" [] with
    arguments := .dynamic {
      all := [.new "value" .string, .new "more" .string]
      remaining := fun bound =>
        match bound with
        | [] => [.new "value" .string]
        | b :: _ => if b.input.span.start = 2 then [] else [.new "more" .string] } }

/-- A failure says where it is in the whole line, and a type or a supplier may look at where a
literal stands. -/
theorem CommandParser.parse_chain_moves :
    (Demo.parser.registry.Blind ∧ Demo.parser.config.ReadsChain "say a" "[" ∧
      (∃ as, Demo.parser.parse .empty "say a" = .ok as) ∧
      ∃ f g, Demo.parser.parse .empty "[" = .error f ∧
        Demo.parser.parse .empty (Demo.parser.config.chain "say a" "[") = .error g ∧
        g.kind ≠ f.kind) ∧
    ∀ c ∈ [Demo.third, Demo.thirdAlone], (Demo.parserOf c).config.ReadsChain "c x" "c x" ∧
      (∃ cs, (Demo.parserOf c).parse .empty "c x" = .ok cs) ∧
      ∃ f, (Demo.parserOf c).parse .empty ((Demo.parserOf c).config.chain "c x" "c x") =
        .error f := by
  refine ⟨⟨Demo.blind_parser, ?_, Except.exists_of_toBool (by decide +kernel), ?_⟩, ?_⟩
  · refine ⟨[⟨.value (.scalar "say" ⟨0, 3⟩), ⟨0, 3⟩, "say"⟩,
      ⟨.value (.scalar "a" ⟨4, 5⟩), ⟨4, 5⟩, "a"⟩], 5, ⟨.separator, ⟨6, 7⟩, "&"⟩, ?_, rfl, ?_⟩
    all_goals decide +kernel
  · have halone : (failureOf? (Demo.parser.parse .empty "[")).map (·.kind) =
        some (.tokenExpected ⟨[']'], true⟩ 1) := by
      decide +kernel
    have hbehind : (failureOf? (Demo.parser.parse .empty
        (Demo.parser.config.chain "say a" "["))).map (·.kind) =
          some (.tokenExpected ⟨[']'], true⟩ 9) := by
      decide +kernel
    obtain ⟨f, hf, hfirst⟩ := Option.map_eq_some_iff.mp halone
    obtain ⟨g, hg, hsecond⟩ := Option.map_eq_some_iff.mp hbehind
    refine ⟨f, g, failureOf?_eq_some hf, failureOf?_eq_some hg, ?_⟩
    rw [hfirst, hsecond]
    decide
  · have hreads : (default : ParserConfig).ReadsChain "c x" "c x" := by
      refine ⟨[⟨.value (.scalar "c" ⟨0, 1⟩), ⟨0, 1⟩, "c"⟩,
        ⟨.value (.scalar "x" ⟨2, 3⟩), ⟨2, 3⟩, "x"⟩], 3, ⟨.separator, ⟨4, 5⟩, "&"⟩, ?_, rfl, ?_⟩
      all_goals decide +kernel
    have hparse : ∀ c ∈ [Demo.third, Demo.thirdAlone],
        ((Demo.parserOf c).parse .empty "c x").toBool = true ∧
          ((Demo.parserOf c).parse .empty
            ((Demo.parserOf c).config.chain "c x" "c x")).toBool = false := by
      rw [List.forall_mem_cons, List.forall_mem_singleton]
      decide +kernel
    intro c hc
    obtain ⟨hok, hfails⟩ := hparse c hc
    exact ⟨hreads, Except.exists_of_toBool hok, Except.exists_of_not_toBool hfails⟩

end CommandConsole
