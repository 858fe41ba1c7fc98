/-
# Optional arguments are passed over

A line fails for what was given to an optional argument, and not named, only if
the argument had begun to bind a run; or if it misreads a literal, which is taken
for such a run. An optional argument that does not take the value itself is
passed over: the value goes to an argument behind it, to the open run, or is left
to begin the next command.

Key definitions: `BindEnv.Reaches`, `LineEnv.Begins`, `BindPlace`, `LineEnv.Meets`.
Key theorems: `LineEnv.parseCommands_mismatch`, `LineEnv.parseCommands_left`,
`CommandParser.parse_skips`.
-/
import CommandConsole.Proofs.Binding.Skipping
import CommandConsole.Proofs.Line.Behind
import CommandConsole.Proofs.Line.Truncation

namespace CommandConsole

/-! ### The places of a line -/

namespace BindEnv

/-- Binding goes on from one place of the command to another. -/
inductive Reaches (env : BindEnv) : BindState → TokenCursor → BindState → TokenCursor → Prop
  | refl (s : BindState) (c : TokenCursor) : Reaches env s c s c
  | step {s s' q : BindState} {c c' d : TokenCursor} {t : Token} {rest : Tokens}
      (hc : c.tokens = .more t rest) (ht : t.isSeparator = false)
      (h : env.bindToken s t (.past t rest) = .ok (some (s', c')))
      (hr : Reaches env { s' with stop := c'.position } c' q d) : Reaches env s c q d

variable {env : BindEnv} {s q : BindState} {c d : TokenCursor} {f : ParseFail}

/-- What binding comes to is settled at every place that it reaches. -/
theorem Reaches.bindTokens_eq (h : env.Reaches s c q d) :
    env.bindTokens s c = env.bindTokens q d := by
  induction h with
  | refl s c => rfl
  | step hc ht hb _ ih => rw [bindTokens_some hc ht hb, ih]

theorem Reaches.runsVararg (h : env.Reaches s c q d) (hs : s.RunsVararg) : q.RunsVararg := by
  induction h with
  | refl s c => exact hs
  | step _ _ hb _ ih => exact ih (bindToken_begun hb hs).1

/-- Binding fails at a place that it reaches: for the token there, or for a literal that cannot
be read. -/
theorem exists_of_bindTokens_error (s : BindState) (c : TokenCursor) :
    env.bindTokens s c = .error f → ∃ q d, env.Reaches s c q d ∧
      ((∃ g, f = env.failLiteral g) ∨ ∃ t rest, d.tokens = .more t rest ∧ t.isSeparator = false ∧
        env.bindToken q t (.past t rest) = .error f) := by
  fun_induction bindTokens env s c with
  | case1 => intro h; cases h
  | case2 s c start g hc =>
    intro h
    cases h
    exact ⟨s, c, .refl s c, .inl ⟨g, rfl⟩⟩
  | case3 => intro h; cases h
  | case4 s c t rest hc ht g hg =>
    intro h
    cases h
    exact ⟨s, c, .refl s c, .inr ⟨t, rest, hc, by simpa using ht, hg⟩⟩
  | case5 => intro h; cases h
  | case6 s c t rest hc ht s' c' hb ih =>
    intro h
    obtain ⟨q, d, hr, hrest⟩ := ih h
    exact ⟨q, d, .step hc (by simpa using ht) hb hr, hrest⟩

end BindEnv

namespace LineEnv

/-- In a line of the tokens `ts` a command begins with the token `t`. -/
inductive Begins (env : LineEnv) : Tokens → Token → Tokens → Prop
  | here {t : Token} {rest : Tokens} (ht : t.isSeparator = false) : Begins env (.more t rest) t rest
  | separator {t u : Token} {rest us : Tokens} (ht : t.isSeparator = true)
      (h : Begins env rest u us) : Begins env (.more t rest) u us
  | behind {t u : Token} {rest us : Tokens} {r : Resolved} {c : Command} {b : BindEnv.Binding}
      (ht : t.isSeparator = false) (hb : env.bindCommand .complete t rest = .ok (r, c, b))
      (hg : env.checkGate r c b.state.bound = .ok ()) (h : Begins env b.cursor.tokens u us) :
      Begins env (.more t rest) u us

end LineEnv

/-- A place of a line where a token stands in a command. -/
structure BindPlace where
  /-- The first token of the command, and those behind it. -/
  head : Token
  tail : Tokens
  resolved : Resolved
  command : Command
  env : BindEnv
  /-- What is bound in front of the token. -/
  state : BindState
  /-- The end of what stands in front of the token. -/
  position : Nat
  token : Token
  rest : Tokens

namespace BindPlace

/-- The arguments that are not bound in front of the place. -/
def remaining (k : BindPlace) : List Argument := k.env.remaining k.state

/-- The place in front of the token. -/
def before (k : BindPlace) : TokenCursor := ⟨k.position, .more k.token k.rest⟩

/-- The place behind the token. -/
def behind (k : BindPlace) : TokenCursor := .past k.token k.rest

/-- What the token comes to. -/
def bindToken (k : BindPlace) : Except ParseFail (Option BindEnv.Bound) :=
  k.env.bindToken k.state k.token k.behind

/-- The token is a value that no name or flag stands for. -/
def IsUnnamed (k : BindPlace) (v : Literal) : Prop :=
  k.token.kind = .value v ∧ flagBundle? k.env.policy k.remaining k.token = none

/-- The argument does not take the value itself, and is passed over. -/
def Skips (k : BindPlace) (v : Literal) (a : Argument) : Prop := k.env.Skips k.state v k.behind a

end BindPlace

namespace LineEnv

/-- In a line of the tokens `ts` a command comes to the place `k`. -/
structure Meets (env : LineEnv) (ts : Tokens) (k : BindPlace) : Prop where
  begins : env.Begins ts k.head k.tail
  resolves : env.resolve k.head k.tail = .ok k.resolved
  declared : env.registry.get? k.resolved.id = some k.command
  binds : k.env = env.bindEnv .complete k.resolved.id k.command
  reaches : k.env.Reaches (.start k.resolved.cursor.position) k.resolved.cursor k.state k.before
  inside : k.token.isSeparator = false

variable {env : LineEnv} {ts rest : Tokens} {t : Token} {k : BindPlace} {f : ParseFail} {id : String}

theorem Meets.runsVararg (h : env.Meets ts k) : k.state.RunsVararg :=
  h.reaches.runsVararg fun a ha => by cases ha

/-- The token behind a command's name is met first, with nothing bound. -/
theorem meets_first {u : Token} {us : Tokens} {r : Resolved} {c : Command}
    (ht : t.isSeparator = false) (hr : env.resolve t rest = .ok r)
    (hc : env.registry.get? r.id = some c) (hnext : r.cursor.tokens = .more u us)
    (hu : u.isSeparator = false) :
    env.Meets (.more t rest) ⟨t, rest, r, c, env.bindEnv .complete r.id c,
      .start r.cursor.position, r.cursor.position, u, us⟩ := by
  refine ⟨.here ht, hr, hc, rfl, ?_, hu⟩
  rw [BindPlace.before, ← hnext]
  exact .refl _ _

/-- The commands in front of one that begins do not depend on what it comes to. -/
theorem Begins.parseCommands_eq (h : env.Begins ts t rest) :
    ∃ front, env.parseCommands ts = (env.parseCommands (.more t rest)).map (front ++ ·) := by
  induction h with
  | here ht => exact ⟨[], by cases env.parseCommands _ <;> rfl⟩
  | separator ht _ ih =>
    obtain ⟨front, hfront⟩ := ih
    exact ⟨front, by rw [parseCommands_separator ht, hfront]⟩
  | @behind t u rest us r c b ht hb hg _ ih =>
    obtain ⟨front, hfront⟩ := ih
    refine ⟨env.boundCommand r c b :: front, ?_⟩
    rw [parseCommands_command ht hb hg, hfront]
    cases env.parseCommands (.more u us) <;> rfl

theorem Begins.isSeparator_eq (h : env.Begins ts t rest) : t.isSeparator = false := by
  induction h with
  | here ht => exact ht
  | separator _ _ ih => exact ih
  | behind _ _ _ _ ih => exact ih

/-! ### Failures -/

theorem not_mismatches_resolve (h : env.resolve t rest = .error f) : ¬f.Mismatches id := by
  have hdescend : ∀ {ts : Tokens} {id' : CommandId} {span : Span},
      env.descend id' span ts = .error f → ¬f.Mismatches id := by
    intro ts
    induction ts with
    | finished stop => intro id' span h; cases h
    | broken start g => intro id' span h; cases h
    | more u us ih =>
      intro id' span h
      rw [descend] at h
      split at h
      · cases h
      · exact ih h
      · cases h
        rintro ⟨_, _, _, _, hk⟩
        cases hk
  unfold resolve at h
  split at h
  · cases h
    rintro ⟨_, _, _, _, hk⟩
    cases hk
  · exact hdescend h
  · cases h
    rintro ⟨_, _, _, _, hk⟩
    cases hk

/-- A command fails for what was given to an argument at one of the places in it. -/
theorem exists_of_takeCommand_error (ht : t.isSeparator = false)
    (h : env.takeCommand t rest = .error f) (hf : f.Mismatches id) :
    ∃ k, env.Meets (.more t rest) k ∧ k.bindToken = .error f := by
  unfold takeCommand at h
  split at h
  · rename_i g hg
    cases h
    exact absurd hf (not_mismatches_resolve hg)
  · rename_i r hr
    split at h
    · cases h
      obtain ⟨_, _, _, _, hk⟩ := hf
      cases hk
    · rename_i c hc
      obtain ⟨q, d, hreaches, ⟨g, rfl⟩ | ⟨u, us, hd, hu, hfails⟩⟩ :=
        BindEnv.exists_of_bindTokens_error _ _ (error_of_map_eq_error h)
      · exact absurd hf ParseFail.not_mismatches_ofLiteral
      · refine ⟨⟨t, rest, r, c, _, q, d.position, u, us⟩, ⟨.here ht, hr, hc, rfl, ?_, hu⟩, hfails⟩
        rw [BindPlace.before, ← hd]
        exact hreaches

/-- **A line fails for what was given to an argument at one of its places**, for the token that
stands there. -/
theorem parseCommands_mismatch (hf : f.Mismatches id) (ts : Tokens) :
    env.parseCommands ts = .error f → ∃ k, env.Meets ts k ∧ k.bindToken = .error f := by
  have hlack : ¬f.LacksArgument ∧ ¬f.LacksRequirement := by
    obtain ⟨_, _, _, _, hk⟩ := hf
    constructor <;> rintro ⟨_, _, h⟩ <;> rw [hk] at h <;> cases h
  fun_induction env.parseCommands ts with
  | case1 => intro h; cases h
  | case2 => intro h; cases h; exact absurd hf ParseFail.not_mismatches_ofLiteral
  | case3 t rest ht ih =>
    intro h
    obtain ⟨k, hk, hfails⟩ := ih h
    exact ⟨k, { hk with begins := .separator ht hk.begins }, hfails⟩
  | case4 t rest ht g hg =>
    intro h
    cases h
    exact exists_of_takeCommand_error (by simpa using ht)
      ((takeCommand_of_error hg).resolve_left hlack.1) hf
  | case5 t rest ht r c b hb g hg =>
    intro h
    cases h
    exact absurd (checkGate_eq_error hg) hlack.2
  | case6 t rest ht r c b hb hg ih =>
    intro h
    obtain ⟨k, hk, hfails⟩ := ih (error_of_map_eq_error h)
    exact ⟨k, { hk with begins := .behind (by simpa using ht) hb hg hk.begins }, hfails⟩

/-! ### Values that are left over -/

/-- What the line comes to from the command of the place on, if that command ends in front of the
token and the next begins with it. -/
def left (env : LineEnv) (k : BindPlace) : Except ParseFail (List BoundCommand) :=
  match k.env.finish k.state with
  | .error f => .error f
  | .ok s =>
    match env.checkGate k.resolved k.command s.bound with
    | .error f => .error f
    | .ok () => (env.parseCommands (.more k.token k.rest)).map
        (env.boundCommand k.resolved k.command ⟨s, k.before, false⟩ :: ·)

/-- **A token that does not belong to the command is left to begin the next one.** -/
theorem parseCommands_left (h : env.Meets ts k) (hk : k.bindToken = .ok none) :
    ∃ front, env.parseCommands ts = (env.left k).map (front ++ ·) := by
  obtain ⟨front, hfront⟩ := h.begins.parseCommands_eq
  have hhead := h.begins.isSeparator_eq
  have htokens : k.env.bindTokens (.start k.resolved.cursor.position) k.resolved.cursor =
      .ok ⟨k.state, k.before, false⟩ := by
    rw [h.reaches.bindTokens_eq, BindEnv.bindTokens_none rfl h.inside hk]
  have hbind : env.bindCommand .complete k.head k.tail =
      (k.env.finish k.state).map fun s =>
        (k.resolved, k.command, ⟨s, k.before, false⟩) := by
    have hbinding : k.env.bind k.resolved.cursor =
        (k.env.finish k.state).map fun s => ⟨s, k.before, false⟩ := by
      rw [BindEnv.bind, htokens]
    have hcommand : env.bindCommand .complete k.head k.tail =
        (k.env.bind k.resolved.cursor).map fun b => (k.resolved, k.command, b) := by
      rw [bindCommand, h.resolves]
      dsimp only
      rw [h.declared, h.binds]
    rw [hcommand, hbinding]
    cases k.env.finish k.state <;> rfl
  refine ⟨front, hfront.trans (congrArg _ ?_)⟩
  unfold left
  cases hs : k.env.finish k.state with
  | error f =>
    rw [hs] at hbind
    rw [parseCommands_error hhead hbind]
  | ok s =>
    rw [hs] at hbind
    dsimp only
    cases hg : env.checkGate k.resolved k.command s.bound with
    | error f => rw [parseCommands_refused hhead hbind hg]
    | ok u => rw [parseCommands_command hhead hbind hg]; rfl

end LineEnv

/-- **A line fails for what was given to an optional argument without a name only if the argument
has begun to bind a run**, or if it misreads a literal. An argument that does not take the value
itself is passed over. The value goes to the arguments behind it, then to the open run, and is
otherwise left to begin the next command. -/
theorem CommandParser.parse_skips (p : CommandParser) (context : ParseContext) (text : String) :
    (∀ f id, p.parse context text = .error f → f.Mismatches id →
      ∃ k, (p.lineEnv context text).Meets (p.config.tokensOf text) k ∧ k.bindToken = .error f ∧
        ∀ v, k.IsUnnamed v → k.env.FailsFor k.state v k.behind id) ∧
    ∀ k v, (p.lineEnv context text).Meets (p.config.tokensOf text) k → k.IsUnnamed v →
      (∀ before after, k.remaining = before ++ after → (∀ b ∈ before, k.Skips v b) →
        k.bindToken =
          match k.env.offer k.state v k.behind after with
          | .error f => .error f
          | .ok (some r) => .ok (some r)
          | .ok none => k.env.extendRun k.state v k.behind) ∧
      ((∀ a ∈ k.remaining, k.Skips v a) → (∀ a ∈ k.state.openRun, a.type.takes v = false) →
        ∃ front, p.parse context text = ((p.lineEnv context text).left k).map (front ++ ·)) := by
  constructor
  · intro f id h hf
    obtain ⟨k, hk, hfails⟩ := LineEnv.parseCommands_mismatch hf (p.config.tokensOf text) h
    exact ⟨k, hk, hfails, fun v hv => BindEnv.bindToken_mismatch hv.1 hv.2 hk.runsVararg hfails hf⟩
  · intro k v hk hv
    refine ⟨fun before after has hbefore => BindEnv.bindToken_skips hv.1 hv.2 has hbefore,
      fun hall hrun => ?_⟩
    exact LineEnv.parseCommands_left hk (BindEnv.bindToken_left hv.1 hv.2 hall hrun)

/-- The place of the second token of a line whose first names the only command. -/
theorem Demo.exists_meets (c : Command) (text : String) {t u : Token} {rest : Tokens}
    (hc : (Registry.empty.registerAll [c]).toBool = true)
    (htokens : (parserOf c).config.tokensOf text = .more t (.more u rest))
    (ht : t.isSeparator = false) (hu : u.isSeparator = false)
    (hr : (((parserOf c).lineEnv .empty text).resolve t (.more u rest)).toOption.map
      (fun r => (r.id, r.cursor.tokens)) = some (0, .more u rest)) :
    ∃ k : BindPlace, ((parserOf c).lineEnv .empty text).Meets ((parserOf c).config.tokensOf text) k ∧
      k.token = u ∧ k.rest = rest ∧ k.env.source = c.arguments ∧ k.state.bound = [] ∧
      k.state.openRun = none := by
  have hget : (parserOf c).registry.get? 0 = some c :=
    Registry.get?_registerAll (Registry.registerAll_toOption hc) 0
  obtain ⟨r, hr, hdata⟩ := Option.map_eq_some_iff.mp hr
  obtain ⟨hid, hnext⟩ := Prod.mk.inj hdata
  rw [htokens]
  exact ⟨_, LineEnv.meets_first ht (Except.eq_ok_of_toOption hr) (hid ▸ hget) hnext hu, rfl, rfl,
    rfl, rfl, rfl⟩

/-- A command with an optional run. -/
def Demo.pick : Command :=
  Demo.command "pick" "Pick numbers" [{ Demo.vararg "numbers" .int with isOptional := true }]

/-- A run that has begun, and a value that begins none and is left over. -/
theorem CommandParser.parse_skips_pick :
    (∃ (f : ParseFail) (k : BindPlace), (Demo.parserOf Demo.pick).parse .empty "pick 1 x" = .error f ∧
      f.Mismatches "numbers" ∧ k.bindToken = .error f ∧
      ∀ v, k.IsUnnamed v → k.env.FailsFor k.state v k.behind "numbers") ∧
    ∃ (k : BindPlace) (v : Literal), ((Demo.parserOf Demo.pick).lineEnv .empty "pick x").Meets
        ((Demo.parserOf Demo.pick).config.tokensOf "pick x") k ∧ k.IsUnnamed v ∧
      (∀ a ∈ k.remaining, k.Skips v a) ∧
      ∃ front, (Demo.parserOf Demo.pick).parse .empty "pick x" =
        (((Demo.parserOf Demo.pick).lineEnv .empty "pick x").left k).map (front ++ ·) := by
  constructor
  · have hkind : (failureOf? ((Demo.parserOf Demo.pick).parse .empty "pick 1 x")).map (·.kind) =
        some (.invalidInputForType "numbers" "int" "x" [.index 1]
          (some "invalid digit found in string")) := by
      decide +kernel
    obtain ⟨f, hf, hkind⟩ := Option.map_eq_some_iff.mp hkind
    have hmismatch : f.Mismatches "numbers" := ⟨_, _, _, _, hkind⟩
    have hparse := failureOf?_eq_some hf
    obtain ⟨k, -, hfails, hwhy⟩ :=
      (parse_skips (Demo.parserOf Demo.pick) .empty "pick 1 x").1 f _ hparse hmismatch
    exact ⟨f, k, hparse, hmismatch, hfails, hwhy⟩
  · let t : Token := ⟨.value (.scalar "pick" ⟨0, 4⟩), ⟨0, 4⟩, "pick"⟩
    let u : Token := ⟨.value (.scalar "x" ⟨5, 6⟩), ⟨5, 6⟩, "x"⟩
    obtain ⟨k, hmeets, hu, hrest, hsource, hbound, hrun⟩ := Demo.exists_meets Demo.pick "pick x"
      (t := t) (u := u) (by decide +kernel)
      (show _ = Tokens.more t (.more u (.finished 6)) by decide +kernel) rfl rfl (by decide +kernel)
    have hunnamed : k.IsUnnamed (.scalar "x" ⟨5, 6⟩) := by
      refine ⟨hu ▸ rfl, flagBundle?_of_shortFlags? ?_⟩
      rw [hu]
      decide +kernel
    have hskips : ∀ a ∈ k.remaining, k.Skips (.scalar "x" ⟨5, 6⟩) a := by
      intro a ha
      rw [BindPlace.remaining, BindEnv.remaining, hsource, hbound] at ha
      obtain rfl := List.mem_singleton.mp ha
      have hread : k.env.runFrom k.state (.scalar "x" ⟨5, 6⟩) k.behind =
          .ok ⟨[.scalar "x" ⟨5, 6⟩], ⟨6, .finished 6⟩, true⟩ := by
        rw [BindPlace.behind, hrest]
        rfl
      refine ⟨rfl, .first (.inl rfl) hread rfl (by decide +kernel), fun hm => ?_⟩
      cases hm.1
    refine ⟨k, _, hmeets, hunnamed, hskips, ?_⟩
    refine ((parse_skips _ _ _).2 k _ hmeets hunnamed).2 hskips fun a ha => ?_
    rw [hrun] at ha
    cases ha

/-- A command with an optional list. -/
def Demo.choose : Command :=
  Demo.command "choose" "Choose numbers" [{ Argument.new "numbers" (.list .int) with
    multiplicity := .multiple, isOptional := true }]

/-- A list whose second item is refused is no run that has begun; the line fails all the same. -/
theorem CommandParser.parse_not_skips : ∃ (k : BindPlace) (v : Literal) (f : ParseFail),
    ((Demo.parserOf Demo.choose).lineEnv .empty "choose [1,x]").Meets
      ((Demo.parserOf Demo.choose).config.tokensOf "choose [1,x]") k ∧ k.IsUnnamed v ∧
    k.remaining ≠ [] ∧
    (∀ a ∈ k.remaining, a.isOptional = true ∧ a.type.takes v = false ∧ ¬a.StartsRun v) ∧
    (Demo.parserOf Demo.choose).parse .empty "choose [1,x]" = .error f ∧ f.Mismatches "numbers" := by
  let v : Literal := .list [.scalar "1" ⟨8, 9⟩, .scalar "x" ⟨10, 11⟩] ⟨7, 12⟩
  let t : Token := ⟨.value (.scalar "choose" ⟨0, 6⟩), ⟨0, 6⟩, "choose"⟩
  let u : Token := ⟨.value v, ⟨7, 12⟩, "[1,x]"⟩
  obtain ⟨k, hmeets, hu, -, hsource, hbound, -⟩ := Demo.exists_meets Demo.choose "choose [1,x]"
    (t := t) (u := u) (by decide +kernel)
    (show _ = Tokens.more t (.more u (.finished 12)) by decide +kernel) rfl rfl (by decide +kernel)
  have hremaining : k.remaining = [{ Argument.new "numbers" (.list .int) with
      multiplicity := .multiple, isOptional := true }] := by
    rw [BindPlace.remaining, BindEnv.remaining, hsource, hbound]
    rfl
  have hkind : (failureOf? ((Demo.parserOf Demo.choose).parse .empty "choose [1,x]")).map (·.kind) =
      some (.invalidInputForType "numbers" "int" "x" [.index 1]
        (some "invalid digit found in string")) := by
    decide +kernel
  obtain ⟨f, hf, hkind⟩ := Option.map_eq_some_iff.mp hkind
  refine ⟨k, v, f, hmeets, ⟨hu ▸ rfl, flagBundle?_of_shortFlags? ?_⟩, by simp [hremaining], ?_,
    failureOf?_eq_some hf, _, _, _, _, hkind⟩
  · rw [hu]
    decide +kernel
  · intro a ha
    rw [hremaining] at ha
    obtain rfl := List.mem_singleton.mp ha
    refine ⟨rfl, by decide +kernel, fun hs => ?_⟩
    rcases hs with hs | ⟨-, hs⟩ <;> cases hs

end CommandConsole
