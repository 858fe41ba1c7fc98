/-
# A partial line that goes on

What a partial line leaves open is open in every line that begins with it. So
whatever is put at its end has only to fit the place that the partial line is
left in: it names a command there, or goes to the command that is open.

Key definitions: `LineEnv.Viable`, `LineEnv.Admits`.
Key theorems: `LineEnv.openCommand_onto`, `LineEnv.openCommand_pending`.
-/
import CommandConsole.Proofs.Binding.Resumption
import CommandConsole.Proofs.Command.Forest
import CommandConsole.Proofs.Line.Consumption

namespace CommandConsole

namespace BindEnv

/-- In a partial line nothing is left to do behind the tokens of a command. -/
theorem bind_partialLine {env : BindEnv} (hm : env.mode = .partialLine) (c : TokenCursor) :
    env.bind c = env.bindTokens (.start c.position) c := by
  unfold bind
  cases env.bindTokens (.start c.position) c with
  | error f => rfl
  | ok b =>
    dsimp only
    rw [finish, hm]
    rfl

end BindEnv

namespace LineEnv

/-! ### The cases of `openCommand` -/

section Cases

variable {env : LineEnv} {state : LineState} {t : Token} {rest : Tokens} {r : Resolved}
  {c : Command} {b : BindEnv.Binding} {f : ParseFail}

theorem openCommand_separator (ht : t.isSeparator = true) :
    env.openCommand state (.more t rest) = env.openCommand .root rest := by
  rw [openCommand, if_pos ht]

theorem openCommand_error (ht : t.isSeparator = false)
    (h : env.bindCommand .partialLine t rest = .error f) :
    env.openCommand state (.more t rest) = .error f := by
  rw [openCommand, if_neg (by simp [ht])]
  split <;> simp_all

theorem openCommand_command (ht : t.isSeparator = false)
    (h : env.bindCommand .partialLine t rest = .ok (r, c, b)) :
    env.openCommand state (.more t rest) = env.openCommand (stateAfter r b) b.cursor.tokens := by
  conv => lhs; rw [openCommand]
  rw [if_neg (by simp [ht])]
  split <;> simp_all

end Cases

/-- The same registry and configuration, for another line. -/
def inText (env : LineEnv) (text : String) : LineEnv := { env with text := text }

/-- A token names at most one command, and that command is registered. -/
def Distinct (env : LineEnv) : Prop := ∀ parent t, env.childMatch parent t = .none ∨
  ∃ id c, env.childMatch parent t = .one id ∧ env.registry.get? id = some c

theorem distinct_of_wellFormed {env : LineEnv} (hr : env.registry.WellFormed)
    (hl : env.context.localizer = none) : env.Distinct := by
  intro parent t
  unfold childMatch
  cases t.word? with
  | none => exact .inl rfl
  | some word =>
    dsimp only
    rw [hl]
    rcases hr.matchChild_cases parent word with ⟨hnone, -⟩ | ⟨id, e, he, -, -, hone⟩
    · exact .inl hnone
    · exact .inr ⟨id, e.command, hone, by rw [Registry.get?, he]; rfl⟩

/-- The tokens do not fail, whatever the line is left in before them, unless it is for the
literal at their end that cannot be read. -/
def Viable (env : LineEnv) (e ts : Tokens) : Prop :=
  ∀ state, e.Yields env.text (fun _ => True) (env.openCommand state ts)

theorem viable_finished (env : LineEnv) (e : Tokens) {ts : Tokens} (h : ts.isFinished = true) :
    env.Viable e ts := by
  obtain ⟨stop, rfl⟩ := Tokens.exists_of_isFinished h
  intro state
  rw [openCommand]
  exact .ok trivial

variable {env : LineEnv} {text : String} {e : Tokens}

/-- What is put at the end of a partial line fits the state that the partial line is left in. -/
inductive Admits (env : LineEnv) (text : String) (e : Tokens) : LineState → Prop
  | root (h : (env.inText text).Viable e e) : Admits env text e .root
  /-- It is what is open that takes the token; or the token names a sub-command, and nothing has
  been bound; or the open command goes on with the token. -/
  | inCommand {id : CommandId} {bound : List BoundArgument} {pending : Pending}
      (hw : pending.Welcomes e)
      (hgo : pending.PassesBy e →
        (bound ≠ [] ∨ ∀ t rest, e = .more t rest → env.childMatch (some id) t = .none) →
        ∀ (c : Command) (s : BindState) (p : Nat), env.registry.get? id = some c →
          s.bound = bound →
            e.Yields text (fun b => (env.inText text).Viable e b.cursor.tokens)
              (((env.bindEnv .partialLine id c).inText text).bindTokens s ⟨p, e⟩)) :
      Admits env text e (.inCommand id bound pending)

/-- A literal that cannot be read fits every state: it fails the line. -/
theorem admits_broken (env : LineEnv) (text : String) (start : Nat) (f : LiteralFailure) :
    ∀ state, env.Admits text (.broken start f) state
  | .root => .root fun state => by
    rw [openCommand]
    exact .broken rfl
  | .inCommand id bound pending => by
    refine .inCommand ?_ fun _ _ c s p _ _ => ?_
    · cases pending with
      | none => trivial
      | value a => exact fun t stop h => by cases h
      | run a count => exact fun t stop v h => by cases h
    · rw [BindEnv.bindTokens_broken rfl]
      exact .broken rfl

/-- Behind the name of a command the command is open, and nothing is bound. -/
theorem openCommand_name {t : Token} {stop : Nat} {id : CommandId} {c : Command}
    (ht : t.isSeparator = false) (hone : env.childMatch none t = .one id)
    (hc : env.registry.get? id = some c) (state : LineState) :
    env.openCommand state (.more t (.finished stop)) = .ok (.inCommand id [] .none) := by
  have hresolve : env.resolve t (.finished stop) =
      .ok ⟨id, t.span, ⟨t.span.stop, .finished stop⟩⟩ := by
    rw [resolve, hone]
    rfl
  have hbind : env.bindCommand .partialLine t (.finished stop) =
      .ok (⟨id, t.span, ⟨t.span.stop, .finished stop⟩⟩, c,
        ⟨.start t.span.stop, ⟨t.span.stop, .finished stop⟩, false⟩) := by
    unfold bindCommand
    rw [hresolve]
    dsimp only
    rw [hc]
    dsimp only
    rw [BindEnv.bind_partialLine rfl, BindEnv.bindTokens_finished rfl]
    rfl
  rw [openCommand_command ht hbind, openCommand]
  rfl

/-- The name of a command is viable wherever a command may begin. -/
theorem viable_name {t : Token} {stop : Nat} {id : CommandId} {c : Command}
    (hone : env.childMatch none t = .one id) (hc : env.registry.get? id = some c) :
    env.Viable e (.more t (.finished stop)) := by
  intro state
  by_cases ht : t.isSeparator = true
  · rw [openCommand_separator ht]
    exact viable_finished env e rfl .root
  · rw [openCommand_name (by simpa using ht) hone hc state]
    exact .ok trivial

/-! ### The name of a command -/

/-- A command that some tokens name is the same in the longer line, or its name goes on there. -/
inductive Resolved.Resumed (env : LineEnv) (e : Tokens) (r : Resolved) : Resolved → Prop
  | on (h : r.cursor.tokens.isFinished = true →
      ∀ t rest, e = .more t rest → env.childMatch (some r.id) t = .none) :
      Resolved.Resumed env e r ⟨r.id, r.span, ⟨r.cursor.position, r.cursor.tokens.onto e⟩⟩
  | longer {r' : Resolved} {c : Command} (h : r'.cursor.tokens.isFinished = true)
      (hc : env.registry.get? r'.id = some c) : Resolved.Resumed env e r r'

theorem descend_onto (text : String) (he : e.Appended) (hd : env.Distinct) {r : Resolved} :
    ∀ {id : CommandId} {span : Span} {ts : Tokens}, env.descend id span ts = .ok r →
      ∃ r', (env.inText text).descend id span (ts.onto e) = .ok r' ∧
        Resolved.Resumed env e r r'
  | id, span, .finished stop, h => by
    cases h
    rw [Tokens.onto]
    cases he with
    | @broken start f =>
      exact ⟨⟨id, span, ⟨span.stop, .broken start f⟩⟩, rfl,
        .on (r := ⟨id, span, ⟨span.stop, .finished stop⟩⟩) fun _ t rest h => by cases h⟩
    | @token t stop' ht =>
      have hmatch : (env.inText text).childMatch (some id) t = env.childMatch (some id) t := rfl
      rcases hd (some id) t with hnone | ⟨child, c, hone, hc⟩
      · refine ⟨⟨id, span, ⟨span.stop, .more t (.finished stop')⟩⟩, ?_,
          .on (r := ⟨id, span, ⟨span.stop, .finished stop⟩⟩) fun _ u rest h => ?_⟩
        · rw [descend, hmatch, hnone]
        · cases h
          exact hnone
      · refine ⟨⟨child, span.cover t.span, ⟨(span.cover t.span).stop, .finished stop'⟩⟩, ?_,
          .longer rfl hc⟩
        rw [descend, hmatch, hone]
        rfl
  | id, span, .broken start f, h => by
    cases h
    exact ⟨⟨id, span, ⟨span.stop, .broken start f⟩⟩, rfl,
      .on (r := ⟨id, span, ⟨span.stop, .broken start f⟩⟩) fun h => by cases h⟩
  | id, span, .more t rest, h => by
    have hmatch : (env.inText text).childMatch (some id) t = env.childMatch (some id) t := rfl
    rw [descend] at h
    rw [Tokens.onto, descend, hmatch]
    rcases hd (some id) t with hnone | ⟨child, c, hone, -⟩
    · rw [hnone] at h
      cases h
      rw [hnone]
      exact ⟨_, rfl, .on (r := ⟨id, span, ⟨span.stop, .more t rest⟩⟩) fun h => by cases h⟩
    · rw [hone] at h
      rw [hone]
      exact descend_onto text he hd h

theorem resolve_onto (text : String) (he : e.Appended) (hd : env.Distinct) {r : Resolved}
    {t : Token} {rest : Tokens} (h : env.resolve t rest = .ok r) :
    ∃ r', (env.inText text).resolve t (rest.onto e) = .ok r' ∧ Resolved.Resumed env e r r' := by
  have hmatch : (env.inText text).childMatch none t = env.childMatch none t := rfl
  unfold resolve at h ⊢
  rw [hmatch]
  rcases hd none t with hnone | ⟨id, c, hone, -⟩
  · rw [hnone] at h
    cases h
  · rw [hone] at h ⊢
    exact descend_onto text he hd h

/-! ### A command -/

/-- **A command of a partial line is bound in the longer line as it is there**, if what is put at
the end fits the command that is open there. -/
theorem bindCommand_onto (text : String) (he : e.Appended) (hd : env.Distinct) {Q : BindEnv.Binding → Prop}
    {t : Token} {rest : Tokens} {r : Resolved} {c : Command} {b : BindEnv.Binding}
    (h : env.bindCommand .partialLine t rest = .ok (r, c, b))
    (hst : e.BeginsValue → (env.bindEnv .partialLine r.id c).Offers Argument.Steady)
    (hQ : ∀ b', b'.cursor.tokens.isFinished = true → Q b')
    (hw : b.cursor.tokens.isFinished = true → b.bySeparator = false → b.state.pending.Welcomes e)
    (hgo : b.cursor.tokens.isFinished = true → b.bySeparator = false →
      b.state.pending.PassesBy e →
      (b.state.bound ≠ [] ∨ ∀ t rest, e = .more t rest → env.childMatch (some r.id) t = .none) →
      ∀ n p, e.Yields text Q
        (((env.bindEnv .partialLine r.id c).inText text).bindTokens (b.state.resumed n) ⟨p, e⟩)) :
    e.Yields text (fun q => b.Closed e q.2.2 ∨ Q q.2.2)
      ((env.inText text).bindCommand .partialLine t (rest.onto e)) := by
  obtain ⟨hres, hget, hbind⟩ := bindCommand_eq_ok h
  obtain ⟨r', hres', hr'⟩ := resolve_onto text he hd hres
  unfold bindCommand
  rw [hres']
  dsimp only
  cases hr' with
  | longer hf hc =>
    have hget' : (env.inText text).registry.get? r'.id = some _ := hc
    obtain ⟨stop, hstop⟩ := Tokens.exists_of_isFinished hf
    rw [hget']
    dsimp only
    rw [BindEnv.bind_partialLine rfl, BindEnv.bindTokens_finished hstop]
    exact .ok (.inr (hQ _ hf))
  | on hlast =>
    have hget' : (env.inText text).registry.get? r.id = some c := hget
    rw [hget']
    dsimp only
    rw [BindEnv.bind_partialLine rfl] at hbind ⊢
    have hstart : (BindState.start r.cursor.position).RunsVararg := fun a ha => by cases ha
    refine Tokens.Yields.map (P := fun b' => b.Closed e b' ∨ Q b') ?_ fun b' hb' => hb'
    refine BindEnv.bindTokens_onto he rfl hst hQ hw (fun hf hsep hpass n p => ?_) _ r.cursor hstart
      trivial hbind r.cursor.position r.cursor.position
    refine hgo hf hsep hpass ?_ n p
    by_cases hend : r.cursor.tokens.isFinished = true
    · exact .inr (hlast hend)
    · -- the command has tokens of its own
      rcases BindEnv.bindTokens_begun _ _ hstart hbind hf hsep (.inl (by simpa using hend)) with
        hne | hvalue
      · exact .inl hne
      · cases hp : b.state.pending with
        | none => rw [hp] at hvalue; cases hvalue
        | value a => rw [hp] at hpass; exact hpass.elim
        | run a count => rw [hp] at hvalue; cases hvalue

/-! ### The line -/

/-- **What fits the state in which a partial line is left makes up a viable line with it.** -/
theorem openCommand_onto (he : e.Appended) (hd : env.Distinct)
    (hst : e.BeginsValue → ∀ id c, env.registry.get? id = some c →
      (env.bindEnv .partialLine id c).Offers Argument.Steady) {last : LineState}
    (ha : env.Admits text e last) (state : LineState) (ts : Tokens) : state = .root →
      env.openCommand state ts = .ok last → (env.inText text).Viable e (ts.onto e) := by
  fun_induction env.openCommand state ts with
  | case1 state stop =>
    intro hs h
    cases h
    subst hs
    cases ha with
    | root h => exact h
  | case2 state start f =>
    intro hs h
    cases h
  | case3 state t rest ht ih =>
    intro hs h state'
    rw [Tokens.onto, openCommand_separator ht]
    exact ih rfl h .root
  | case4 state t rest ht f hf =>
    intro hs h
    cases h
  | case5 state t rest ht r c b hb ih =>
    intro hs h state'
    have ht' : t.isSeparator = false := by simpa using ht
    obtain ⟨-, hget, -⟩ := bindCommand_eq_ok hb
    -- if the line ends in this command, that is the state it is left in
    have hlast : b.cursor.tokens.isFinished = true → b.bySeparator = false →
        last = .inCommand r.id b.state.bound b.state.pending := by
      intro hf hsep
      obtain ⟨stop, hstop⟩ := Tokens.exists_of_isFinished hf
      rw [hstop, openCommand, stateAfter, hsep, hstop] at h
      cases h
      rfl
    have hbind := bindCommand_onto text he hd hb (fun hv => hst hv r.id c hget)
      (Q := fun b' => (env.inText text).Viable e b'.cursor.tokens)
      (fun b' hf => viable_finished _ e hf)
      (fun hf hsep => by
        rw [hlast hf hsep] at ha
        cases ha with
        | inCommand hw hgo => exact hw)
      (fun hf hsep hpass hchild n p => by
        rw [hlast hf hsep] at ha
        cases ha with
        | inCommand hw hgo => exact hgo hpass hchild c _ p hget rfl)
    generalize hx : (env.inText text).bindCommand .partialLine t (rest.onto e) = x at hbind
    rw [Tokens.onto]
    cases hbind with
    | broken hbroken =>
      rw [openCommand_error ht' hx]
      exact .broken hbroken
    | @ok q hq =>
      obtain ⟨r', c', b'⟩ := q
      rw [openCommand_command ht' hx]
      rcases hq with ⟨hclosed, hsep, hcursor⟩ | hviable
      · have hroot : stateAfter r b = .root := by
          rw [stateAfter, if_pos]
          rcases hclosed with hclosed | hclosed <;> simp [hclosed]
        change b'.cursor.tokens = _ at hcursor
        rw [hcursor]
        exact ih hroot h _
      · exact hviable _

/-- What is open at the end of a partial line belongs to an argument of the open command. -/
theorem openCommand_pending {P : Argument → Prop}
    (hO : ∀ id c, env.registry.get? id = some c → (env.bindEnv .partialLine id c).Offers P)
    {id : CommandId} {bound : List BoundArgument} {pending : Pending} (state : LineState)
    (ts : Tokens) : state = .root → env.openCommand state ts = .ok (.inCommand id bound pending) →
      pending.Of P := by
  fun_induction env.openCommand state ts with
  | case1 state stop =>
    intro hs h
    cases h
    cases hs
  | case2 => intro hs h; cases h
  | case3 state t rest ht ih => exact fun _ h => ih rfl h
  | case4 => intro hs h; cases h
  | case5 state t rest ht r c b hb ih =>
    intro hs h
    obtain ⟨-, hget, hbind⟩ := bindCommand_eq_ok hb
    rw [BindEnv.bind_partialLine rfl] at hbind
    have hstart : (BindState.start r.cursor.position).OpenOf P := ⟨trivial, fun a ha => by cases ha⟩
    have hopen : b.state.OpenOf P := BindEnv.bindTokens_openOf (hO r.id c hget) _ _ hstart hbind
    by_cases hroot : stateAfter r b = .root
    · exact ih hroot h
    · have hend : (b.bySeparator || !b.cursor.tokens.isFinished) = false := by
        by_contra hne
        exact hroot (if_pos (Bool.not_eq_false _ ▸ hne))
      have hfin : b.cursor.tokens.isFinished = true := by
        simpa using (Bool.or_eq_false_iff.mp hend).2
      obtain ⟨stop, hstop⟩ := Tokens.exists_of_isFinished hfin
      rw [hstop, openCommand, stateAfter, if_neg (by simp [hend])] at h
      cases h
      exact hopen.1

end LineEnv
end CommandConsole
