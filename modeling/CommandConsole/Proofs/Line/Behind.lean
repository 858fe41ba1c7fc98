/-
# What a failure leaves to the commands behind it

A command may fail for what stands in the line, its name or one of its tokens,
or for what it lacks where it ends: an argument or a requirement. A partial
line asks no command what it lacks. So a failure in front of a separator fails
the partial line if it is of the first kind, whatever stands behind; and
otherwise nothing of the line in front is left behind the separator.

Key definitions: `LineEnv.takeCommand`, `LineEnv.Fails`.
Key theorems: `LineEnv.fails_of_parseCommands`, `LineEnv.openCommand_behind`.
-/
import CommandConsole.Proofs.Line.Chain
import CommandConsole.Proofs.Line.PartialLine

namespace CommandConsole
namespace LineEnv

/-- Resolves the command that begins with the token `t`, and binds its tokens. What the command
lacks where it ends is not asked. -/
def takeCommand (env : LineEnv) (t : Token) (rest : Tokens) :
    Except ParseFail (Resolved × Command × BindEnv.Binding) :=
  match env.resolve t rest with
  | .error f => .error f
  | .ok r =>
    match env.registry.get? r.id with
    | none => .error (env.notFound t)
    | some c =>
      ((env.bindEnv .complete r.id c).bindTokens (.start r.cursor.position) r.cursor).map
        fun b => (r, c, b)

/-- Some command of the line fails for what stands there: it cannot be resolved, or a token of it
cannot be bound, or a literal in it cannot be read. -/
inductive Fails (env : LineEnv) : Tokens → Prop
  | literal (start : Nat) (failure : LiteralFailure) : Fails env (.broken start failure)
  | separator {t : Token} {rest : Tokens} (ht : t.isSeparator = true) (h : Fails env rest) :
      Fails env (.more t rest)
  | command {t : Token} {rest : Tokens} {f : ParseFail} (ht : t.isSeparator = false)
      (h : env.takeCommand t rest = .error f) : Fails env (.more t rest)
  | behind {t : Token} {rest : Tokens} {r : Resolved} {c : Command} {b : BindEnv.Binding}
      (ht : t.isSeparator = false) (h : env.takeCommand t rest = .ok (r, c, b))
      (hs : Fails env b.cursor.tokens) : Fails env (.more t rest)

variable {env : LineEnv} {t u : Token} {rest ts us : Tokens} {r : Resolved} {c : Command}
  {b y : BindEnv.Binding} {f : ParseFail}

theorem not_fails_finished (stop : Nat) : ¬env.Fails (.finished stop) := fun h => by cases h

theorem fails_separator (ht : t.isSeparator = true) :
    env.Fails (.more t rest) ↔ env.Fails rest := by
  refine ⟨fun h => ?_, .separator ht⟩
  cases h with
  | separator _ h => exact h
  | command hn => rw [ht] at hn; cases hn
  | behind hn => rw [ht] at hn; cases hn

theorem fails_behind (ht : t.isSeparator = false) (h : env.takeCommand t rest = .ok (r, c, b)) :
    env.Fails (.more t rest) ↔ env.Fails b.cursor.tokens := by
  refine ⟨fun hfails => ?_, .behind ht h⟩
  cases hfails with
  | separator hn => rw [ht] at hn; cases hn
  | command _ hf => rw [h] at hf; cases hf
  | behind _ h' hs =>
    rw [h] at h'
    cases h'
    exact hs

/-! ### Whole lines -/

/-- A whole line asks at the end of a command what it lacks. -/
theorem bindCommand_eq_takeCommand (env : LineEnv) (t : Token) (rest : Tokens) :
    env.bindCommand .complete t rest =
      match env.takeCommand t rest with
      | .error f => .error f
      | .ok (r, c, b) =>
        ((env.bindEnv .complete r.id c).finish b.state).map fun s => (r, c, { b with state := s }) := by
  unfold bindCommand takeCommand
  cases env.resolve t rest with
  | error f => rfl
  | ok r =>
    dsimp only
    cases env.registry.get? r.id with
    | none => rfl
    | some c =>
      dsimp only
      unfold BindEnv.bind
      cases (env.bindEnv .complete r.id c).bindTokens (.start r.cursor.position) r.cursor with
      | error f => rfl
      | ok b =>
        dsimp only [Except.map]
        cases (env.bindEnv .complete r.id c).finish b.state <;> rfl

theorem finish_eq_error {env : BindEnv} {s : BindState} (h : env.finish s = .error f) :
    f.LacksArgument := by
  unfold BindEnv.finish at h
  split at h
  · cases h
  · split at h
    · cases h
      exact ⟨_, _, rfl⟩
    · cases h

/-- A command that fails lacks an argument, or fails for what stands there. -/
theorem takeCommand_of_error (h : env.bindCommand .complete t rest = .error f) :
    f.LacksArgument ∨ env.takeCommand t rest = .error f := by
  rw [bindCommand_eq_takeCommand] at h
  split at h
  · rename_i g hg
    cases h
    exact .inr hg
  · rename_i r c b _
    cases hf : (env.bindEnv .complete r.id c).finish b.state with
    | error g =>
      rw [hf] at h
      cases h
      exact .inl (finish_eq_error hf)
    | ok s => rw [hf] at h; cases h

theorem takeCommand_of_ok (h : env.bindCommand .complete t rest = .ok (r, c, b)) :
    ∃ b', env.takeCommand t rest = .ok (r, c, b') ∧ b'.cursor = b.cursor := by
  rw [bindCommand_eq_takeCommand] at h
  split at h
  · cases h
  · rename_i r' c' b' hb'
    obtain ⟨s, -, he⟩ := exists_of_map_eq_ok h
    cases he
    exact ⟨b', hb', rfl⟩

/-- **A line that does not lack an argument or a requirement fails for what stands there.** -/
theorem fails_of_parseCommands (ts : Tokens) : env.parseCommands ts = .error f →
    ¬f.LacksArgument → ¬f.LacksRequirement → env.Fails ts := by
  fun_induction env.parseCommands ts with
  | case1 stop => intro h; cases h
  | case2 start failure => exact fun _ _ _ => .literal start failure
  | case3 t rest ht ih => exact fun h ha hr => .separator ht (ih h ha hr)
  | case4 t rest ht g hg =>
    intro h ha _
    cases h
    exact .command (by simpa using ht) ((takeCommand_of_error hg).resolve_left ha)
  | case5 t rest ht r c b hb g hg =>
    intro h _ hr
    cases h
    exact absurd (checkGate_eq_error hg) hr
  | case6 t rest ht r c b hb hg ih =>
    intro h ha hr
    obtain ⟨b', hb', hcursor⟩ := takeCommand_of_ok hb
    refine .behind (by simpa using ht) hb' (hcursor ▸ ih ?_ ha hr)
    cases hp : env.parseCommands b.cursor.tokens with
    | error g => rw [hp] at h; cases h; rfl
    | ok cmds => rw [hp] at h; cases h

/-! ### Partial lines -/

/-- A command is taken alike, wherever it stands. -/
theorem takeCommand_alike {σ : Sight} {n : Nat} {e : Tokens} (he : e.Ends) (henv : env.Heeds σ)
    (text : String) (ht : t.Alike σ u) (hs : Tokens.Alike σ n e ts us) :
    Agree (ParseFail.Moved n) (fun x y => x.2.2.Follows σ n e y.2.2)
      (env.takeCommand t ts) ((env.inText text).takeCommand u us) := by
  unfold takeCommand
  have hresolve : Agree (ParseFail.Moved n) (Resolved.Alike σ n e) (env.resolve t ts)
      ((env.inText text).resolve u us) := resolve_alike he text ht hs
  rcases hresolve.cases with ⟨f, g, hf, hg, hfg⟩ | ⟨r, r', hr, hr', hid, htokens⟩
  · rw [hf, hg]
    exact .error hfg
  · rw [hr, hr']
    dsimp only
    rw [hid, show (env.inText text).registry = env.registry from rfl]
    cases hget : env.registry.get? r.id with
    | none => exact .error (notFound_alike ht)
    | some c =>
      have hstart : (BindState.start r.cursor.position).Alike σ (.start r'.cursor.position) :=
        ⟨.nil, rfl, fun a ha => by cases ha⟩
      exact (BindEnv.bindTokens_alike he rfl (henv r.id c hget) text _ _ hstart htokens).map
        fun b b' hb => hb.2

/-- A partial line takes a command as a whole line does, unless the line ends in it. -/
theorem takeCommand_mirrors (env : LineEnv) (t : Token) (rest : Tokens) :
    BindEnv.Mirrors (fun x y => y.2.2.cursor = x.2.2.cursor)
      (fun _ y => y.2.2.cursor.tokens.isFinished = true ∧ y.2.2.bySeparator = false)
      (env.takeCommand t rest) (env.bindCommand .partialLine t rest) := by
  unfold takeCommand bindCommand
  cases env.resolve t rest with
  | error f => exact .fails
  | ok r =>
    dsimp only
    cases env.registry.get? r.id with
    | none => exact .fails
    | some c =>
      have hmirrors := BindEnv.bindTokens_mirrors (env.bindEnv .complete r.id c)
        (.start r.cursor.position) r.cursor rfl
      dsimp only
      rw [BindEnv.bind_partialLine rfl]
      exact hmirrors.map (fun x y h => by rw [h.1]) fun f y h => h.2

variable {σ : Sight} {n stop : Nat} {s : Token}

/-- Tokens with a separator in place of their end have a separator. -/
theorem exists_separator (hs : s.isSeparator = true) : ∀ {l : List Token} {ts : Tokens},
    Tokens.Alike σ n (.more s rest) ts (.prepend l (.finished stop)) →
      ∃ u ∈ l, u.isSeparator = true
  | [], _, h => by cases h
  | u :: l, ts, h => by
    rw [Tokens.prepend_cons] at h
    cases h with
    | finished => exact ⟨s, List.mem_cons_self, hs⟩
    | more _ h =>
      obtain ⟨v, hv, hsep⟩ := exists_separator hs h
      exact ⟨v, List.mem_cons_of_mem u hv, hsep⟩

/-- In a line with a separator a command that goes up to the end ends with one. -/
theorem bySeparator_of_isFinished (hs : s.isSeparator = true)
    (halike : Tokens.Alike σ n (.more s rest) ts us)
    (h : env.bindCommand .partialLine u us = .ok (r, c, y))
    (hfin : y.cursor.tokens.isFinished = true) : y.bySeparator = true := by
  obtain ⟨names, used, sep, -, -, -, htokens, hnames, -, hused, -, hby, -⟩ :=
    bindCommand_tokens (P := fun _ => True) h fun _ _ _ => trivial
  obtain ⟨stop, hstop⟩ := Tokens.exists_of_isFinished hfin
  cases sep with
  | some v => rw [hby]; rfl
  | none =>
    exfalso
    rw [htokens, hstop, Option.toList_none, List.append_nil] at halike
    obtain ⟨v, hv, hsep⟩ := exists_separator hs halike
    rcases List.mem_append.mp hv with hv | hv
    · have hvalue := hnames.all_isValue v (List.mem_cons_of_mem u hv)
      rw [Token.isSeparator_of_isValue hvalue] at hsep
      cases hsep
    · rw [hused v hv] at hsep
      cases hsep

/-- The partial line goes on where the first line does, or behind the separator from the root. -/
def GoesOnFrom (σ : Sight) (n : Nat) (s : Token) (rest : Tokens)
    (x y : Resolved × Command × BindEnv.Binding) : Prop :=
  Tokens.Alike σ n (.more s rest) x.2.2.cursor.tokens y.2.2.cursor.tokens ∨
    x.2.2.cursor.tokens.isFinished = true ∧ y.2.2.cursor.tokens = rest ∧
      stateAfter y.1 y.2.2 = .root

/-- In front of a separator a command fails for what stands there, or not at all. -/
theorem bindCommand_behind (henv : env.Heeds σ) (text : String) (hs : s.kind = .separator)
    (ht : t.Alike σ u) (hts : Tokens.Alike σ n (.more s rest) ts us) :
    Agree (fun _ _ => True) (GoesOnFrom σ n s rest) (env.takeCommand t ts)
      ((env.inText text).bindCommand .partialLine u us) := by
  have hsep : s.isSeparator = true := by rw [Token.isSeparator, hs]
  have halike : Agree (ParseFail.Moved n) (fun x y => x.2.2.Follows σ n (.more s rest) y.2.2)
      (env.takeCommand t ts) ((env.inText text).takeCommand u us) :=
    takeCommand_alike (.separator rest hs) henv text ht hts
  have hmirrors := takeCommand_mirrors (env.inText text) u us
  generalize (env.inText text).takeCommand u us = z at halike hmirrors
  generalize hy : (env.inText text).bindCommand .partialLine u us = y at hmirrors
  cases hmirrors with
  | fails =>
    obtain ⟨f, g, hf, -, -⟩ | ⟨_, _, -, hz, -⟩ := halike.cases
    · rw [hf]
      exact .error trivial
    · cases hz
  | @stops f y hstops =>
    obtain ⟨r, c, b⟩ := y
    have hended := bySeparator_of_isFinished hsep hts hy hstops.1
    rw [hended] at hstops
    cases hstops.2
  | @agrees q y hcursor =>
    obtain ⟨r, c, b⟩ := y
    obtain ⟨_, _, -, hz, -⟩ | ⟨x, _, hx, hz, hfollows⟩ := halike.cases
    · cases hz
    · cases hz
      rw [hx]
      refine .ok ?_
      have hcursor : b.cursor = q.2.2.cursor := hcursor
      rcases hfollows with htokens | ⟨hfin, v, -, he⟩
      · exact .inl (hcursor ▸ htokens)
      · obtain ⟨-, hrest⟩ := Tokens.more.inj he
        refine .inr ⟨hfin, hcursor ▸ hrest.symm, ?_⟩
        cases hb : b.cursor.tokens.isFinished with
        | true => rw [stateAfter, bySeparator_of_isFinished hsep hts hy hb]; rfl
        | false => rw [stateAfter, hb]; simp

/-- **A partial line fails in front of a separator, or goes on behind it from the root.** It fails
exactly if what stands in front does. -/
theorem openCommand_behind (env : LineEnv) (henv : env.Heeds σ) (text : String)
    (hs : s.kind = .separator) (state : LineState) (us : Tokens)
    (h : Tokens.Alike σ n (.more s rest) ts us) :
    (env.Fails ts ∧ ∃ g, (env.inText text).openCommand state us = .error g) ∨
      (¬env.Fails ts ∧ (env.inText text).openCommand state us =
        (env.inText text).openCommand .root rest) := by
  have hsep : s.isSeparator = true := by rw [Token.isSeparator, hs]
  fun_induction (env.inText text).openCommand state us generalizing ts with
  | case1 state stop => cases h
  | case2 state start f =>
    cases h with
    | broken start' _ hm => exact .inl ⟨.literal start' _, _, rfl⟩
  | case3 state u us hu ih =>
    cases h with
    | finished stop => exact .inr ⟨not_fails_finished stop, rfl⟩
    | @more t _ ts _ ht hts =>
      have ht' : t.isSeparator = true := by rw [← ht.isSeparator_eq, hu]
      rw [fails_separator ht']
      exact ih hts
  | case4 state u us hu f hf =>
    cases h with
    | finished => exact absurd hsep hu
    | @more t _ ts _ ht hts =>
      have ht' : t.isSeparator = false := by rw [← ht.isSeparator_eq]; simpa using hu
      obtain ⟨g, _, hg, -, -⟩ | ⟨_, _, -, hy, -⟩ := (bindCommand_behind henv text hs ht hts).cases
      · exact .inl ⟨.command ht' hg, f, rfl⟩
      · rw [hf] at hy
        cases hy
  | case5 state u us hu r c y hy ih =>
    cases h with
    | finished => exact absurd hsep hu
    | @more t _ ts _ ht hts =>
      have ht' : t.isSeparator = false := by rw [← ht.isSeparator_eq]; simpa using hu
      obtain ⟨_, _, -, hf, -⟩ | ⟨⟨r₀, c₀, b⟩, _, hb, hq, hon⟩ :=
        (bindCommand_behind henv text hs ht hts).cases
      · rw [hy] at hf
        cases hf
      · rw [hy] at hq
        cases hq
        rw [fails_behind ht' hb]
        rcases hon with htokens | ⟨hfin, hrest, hroot⟩
        · exact ih htokens
        · obtain ⟨stop, hstop⟩ := Tokens.exists_of_isFinished hfin
          have hnot : ¬env.Fails b.cursor.tokens := hstop ▸ not_fails_finished stop
          exact .inr ⟨hnot, by rw [hroot, hrest]⟩

end LineEnv
end CommandConsole
