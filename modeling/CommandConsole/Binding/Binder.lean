/-
# Binding tokens to arguments

The tokens after a command's name go to its arguments. A name and a bundle of
short flags say which argument they are for. A value is offered to the unbound
arguments in order; an optional one that does not take it is passed over. A
run of a vararg goes on after flags and names. The first value that nothing
takes ends the command, and is left for the next one.

Key definitions: `BindEnv.bindNamed`, `BindEnv.bindFlags`, `BindEnv.offer`,
`BindEnv.extendRun`, `BindEnv.bindToken`, `BindEnv.bindTokens`, `BindEnv.bind`.
Key theorem: `BindEnv.bindToken_remaining_le`.
-/
import CommandConsole.Binding.Run

namespace CommandConsole
namespace BindEnv

/-- What a token that belongs to the command leaves behind. -/
abbrev Bound := BindState × TokenCursor

/-- The state after an argument took its value. The run of a vararg stays open; an unnamed
value that goes elsewhere closes it. -/
def record (s : BindState) (a : Argument) (origin : BindOrigin) (t : Taken) : BindState :=
  { s.push ⟨a.id, t.input, t.value, origin⟩ with
    pending := t.pending
    openRun :=
      if a.multiplicity = .vararg then some a
      else if origin = .positional then none
      else s.openRun }

/-- A switch takes the truth value that follows it, if there is one, and is true otherwise. -/
def bindSwitch (s : BindState) (a : Argument) (t : Token) (c : TokenCursor) : Bound :=
  let absent : Bound := (s.push ⟨a.id, .empty t.span, .bool true, .named⟩, c)
  match c.tokens with
  | .more next rest =>
    match next.word? with
    | none => absent
    | some word =>
      match readBool? word with
      | none => absent
      | some b => (s.push ⟨a.id, .scalar word next.span, .bool b, .named⟩, .past next rest)
  | _ => absent

/-- An argument named by the token `t` takes the value that follows. At the end of a partial
line the value may still be typed. -/
def bindFollowing (env : BindEnv) (s : BindState) (a : Argument) (t : Token) (origin : BindOrigin)
    (c : TokenCursor) : Except ParseFail Bound :=
  match c.tokens with
  | .broken _ failure => .error (env.failLiteral failure)
  | .finished _ =>
    if env.mode = .partialLine then .ok ({ s with pending := .value a }, c)
    else .error (env.noInput a t.span)
  | .more next rest =>
    match next.kind with
    | .value v => (env.takeValue s a v (.past next rest)).map fun k => (record s a origin k, k.cursor)
    | _ => .error (env.noInput a t.span)

/-- The argument of a token `--name` or `--name=value`. -/
def bindNamed (env : BindEnv) (s : BindState) (t : Token) (name : String)
    (assigned : Option Literal) (c : TokenCursor) : Except ParseFail Bound :=
  match env.findNamed? (env.remaining s) name with
  | none => .error (env.fail (.unknownArgument env.commandName name) t.span)
  | some a =>
    match assigned with
    | some (.empty _) => .error (env.noInput a t.span)
    | some v => (env.takeAssigned a v).map fun r => (s.push ⟨a.id, r.1, r.2, .named⟩, c)
    | none => if a.isSwitch then .ok (bindSwitch s a t c) else env.bindFollowing s a t .named c

/-- The arguments of a bundle of short flags: every switch in it is true, and an argument that
takes a value takes the next one. -/
def bindFlags (env : BindEnv) (t : Token) : BindState → List Argument → TokenCursor →
    Except ParseFail Bound
  | s, [], c => .ok (s, c)
  | s, a :: as, c =>
    if a.isSwitch then env.bindFlags t (s.push ⟨a.id, .empty t.span, .bool true, .flag⟩) as c
    else
      match env.bindFollowing s a t .flag c with
      | .error f => .error f
      | .ok (s, c) => env.bindFlags t s as c

/-- Whether an argument failed because it does not take the first value at all. If it took
the first value of a run and not a later one, it did begin to bind. -/
def rejectsFirst (a : Argument) (f : ParseFail) : Bool :=
  match f.kind with
  | .invalidInputForType _ _ _ path _ =>
    !a.multiplicity.isMulti || (match path.head? with
      | none => true
      | some segment => segment == .index 0)
  | _ => false

/-- Offers an unnamed value to arguments in order. There is no result if none takes it. -/
def offer (env : BindEnv) (s : BindState) (v : Literal) (c : TokenCursor) :
    List Argument → Except ParseFail (Option Bound)
  | [] => .ok none
  | a :: as =>
    match env.takeValue s a v c with
    | .ok t => .ok (some (record s a .positional t, t.cursor))
    | .error f => if a.isOptional && rejectsFirst a f then env.offer s v c as else .error f

/-- A bound run with more items behind its own. -/
def appendRun (items : List Literal) (values : List Value) (b : BoundArgument) : BoundArgument :=
  { b with
    input := match b.input with
      | .list old span => .list (old ++ items) (span.cover (listOfRun items).span)
      | other => other
    value := match b.value with
      | .list old => .list (old ++ values)
      | other => other }

/-- How many items a bound run has. -/
def runLength (b : BoundArgument) : Nat := (itemsOf b.input).length

/-- Puts an unnamed value, and the run behind it, to the open run. There is no result if no
run is open or its type does not take the value. -/
def extendRun (env : BindEnv) (s : BindState) (v : Literal) (c : TokenCursor) :
    Except ParseFail (Option Bound) :=
  match s.openRun with
  | none => .ok none
  | some a =>
    match s.bound.find? fun b => b.id == a.id with
    | none => .ok none
    | some b =>
      if a.type.takes v then
        match env.runFrom s v c with
        | .error f => .error f
        | .ok r =>
          (env.convertEach a (runLength b) r.items).map fun values =>
            some ({ s with
              bound := s.bound.map fun b => if b.id = a.id then appendRun r.items values b else b
              pending := env.pendingAfter a (runLength b) r }, r.cursor)
      else .ok none

/-- An unnamed value goes to the first argument that takes it, else to the open run. -/
def bindUnnamed (env : BindEnv) (s : BindState) (v : Literal) (c : TokenCursor) :
    Except ParseFail (Option Bound) :=
  match env.offer s v c (env.remaining s) with
  | .error f => .error f
  | .ok (some r) => .ok (some r)
  | .ok none => env.extendRun s v c

/-- Binds one token. There is no result if it does not belong to the command. -/
def bindToken (env : BindEnv) (s : BindState) (t : Token) (c : TokenCursor) :
    Except ParseFail (Option Bound) :=
  match t.kind with
  | .separator => .ok none
  | .named name assigned => (env.bindNamed s t name assigned c).map some
  | .value v =>
    match flagBundle? env.policy (env.remaining s) t with
    | some bundle => (env.bindFlags t s bundle c).map some
    | none => env.bindUnnamed s v c

theorem bindSwitch_remaining_le (s : BindState) (a : Argument) (t : Token) (c : TokenCursor) :
    (bindSwitch s a t c).2.remaining ≤ c.remaining := by
  unfold bindSwitch
  dsimp only
  split
  · rename_i next rest hc
    split
    · exact Nat.le_refl _
    · split
      · exact Nat.le_refl _
      · simp only [TokenCursor.remaining, TokenCursor.past, hc, Tokens.length_more]
        omega
  · exact Nat.le_refl _

theorem bindFollowing_remaining_le {env : BindEnv} {s : BindState} {a : Argument} {t : Token}
    {origin : BindOrigin} {c : TokenCursor} {r : Bound}
    (h : env.bindFollowing s a t origin c = .ok r) : r.2.remaining ≤ c.remaining := by
  unfold bindFollowing at h
  split at h
  · cases h
  · split at h
    · cases h
      exact Nat.le_refl _
    · cases h
  · rename_i next rest hc
    split at h
    · obtain ⟨k, hk, rfl⟩ := exists_of_map_eq_ok h
      have := takeValue_remaining_le hk
      simp only [TokenCursor.remaining, TokenCursor.past, hc, Tokens.length_more] at this ⊢
      omega
    · cases h

theorem bindNamed_remaining_le {env : BindEnv} {s : BindState} {t : Token} {name : String}
    {assigned : Option Literal} {c : TokenCursor} {r : Bound}
    (h : env.bindNamed s t name assigned c = .ok r) : r.2.remaining ≤ c.remaining := by
  unfold bindNamed at h
  split at h
  · cases h
  · split at h
    · cases h
    · obtain ⟨k, _, rfl⟩ := exists_of_map_eq_ok h
      exact Nat.le_refl _
    · split at h
      · cases h
        exact bindSwitch_remaining_le ..
      · exact bindFollowing_remaining_le h

theorem bindFlags_remaining_le {env : BindEnv} {t : Token} {r : Bound} :
    ∀ {s : BindState} {as : List Argument} {c : TokenCursor},
      env.bindFlags t s as c = .ok r → r.2.remaining ≤ c.remaining
  | s, [], c, h => by cases h; exact Nat.le_refl _
  | s, a :: as, c, h => by
    unfold bindFlags at h
    split at h
    · exact bindFlags_remaining_le h
    · split at h
      · cases h
      · rename_i s' c' hf
        exact Nat.le_trans (bindFlags_remaining_le h) (bindFollowing_remaining_le hf)

theorem offer_remaining_le {env : BindEnv} {s : BindState} {v : Literal} {c : TokenCursor}
    {r : Bound} : ∀ {as : List Argument},
      env.offer s v c as = .ok (some r) → r.2.remaining ≤ c.remaining
  | [], h => by cases h
  | a :: as, h => by
    unfold offer at h
    split at h
    · rename_i t ht
      cases h
      exact takeValue_remaining_le ht
    · split at h
      · exact offer_remaining_le h
      · cases h

theorem extendRun_remaining_le {env : BindEnv} {s : BindState} {v : Literal} {c : TokenCursor}
    {r : Bound} (h : env.extendRun s v c = .ok (some r)) : r.2.remaining ≤ c.remaining := by
  unfold extendRun at h
  split at h
  · cases h
  · split at h
    · cases h
    · split at h
      · split at h
        · cases h
        · rename_i q hq
          obtain ⟨values, _, he⟩ := exists_of_map_eq_ok h
          cases he
          exact runFrom_remaining_le hq
      · cases h

/-- Binding a token does not go back in the line. -/
theorem bindToken_remaining_le {env : BindEnv} {s : BindState} {t : Token} {c : TokenCursor}
    {r : Bound} (h : env.bindToken s t c = .ok (some r)) : r.2.remaining ≤ c.remaining := by
  unfold bindToken at h
  split at h
  · cases h
  · obtain ⟨q, hq, he⟩ := exists_of_map_eq_ok h
    cases he
    exact bindNamed_remaining_le hq
  · split at h
    · obtain ⟨q, hq, he⟩ := exists_of_map_eq_ok h
      cases he
      exact bindFlags_remaining_le hq
    · unfold bindUnnamed at h
      split at h
      · cases h
      · rename_i q hq
        cases h
        exact offer_remaining_le hq
      · exact extendRun_remaining_le h

/-- What the tokens of a command come to. -/
structure Binding where
  state : BindState
  /-- The place where the next command begins. -/
  cursor : TokenCursor
  /-- A separator ended the command. -/
  bySeparator : Bool

/-- Binds tokens up to the first that does not belong to the command. A separator is used up. -/
def bindTokens (env : BindEnv) (s : BindState) (c : TokenCursor) : Except ParseFail Binding :=
  match _hc : c.tokens with
  | .finished _ => .ok ⟨s, c, false⟩
  | .broken _ failure => .error (env.failLiteral failure)
  | .more t rest =>
    if t.isSeparator then .ok ⟨s, .past t rest, true⟩
    else
      match _h : env.bindToken s t (.past t rest) with
      | .error f => .error f
      | .ok none => .ok ⟨s, c, false⟩
      | .ok (some (s', c')) => env.bindTokens { s' with stop := c'.position } c'
termination_by c.remaining
decreasing_by
  have := bindToken_remaining_le _h
  simp only [TokenCursor.remaining, TokenCursor.past, _hc, Tokens.length_more] at this ⊢
  omega

/-! ### The cases of `bindTokens` -/

section Cases

variable {env : BindEnv} {s : BindState} {c : TokenCursor}

theorem bindTokens_finished {stop : Nat} (hc : c.tokens = .finished stop) :
    env.bindTokens s c = .ok ⟨s, c, false⟩ := by
  rw [bindTokens]; split <;> simp_all

theorem bindTokens_broken {start : Nat} {failure : LiteralFailure}
    (hc : c.tokens = .broken start failure) :
    env.bindTokens s c = .error (env.failLiteral failure) := by
  rw [bindTokens]; split <;> simp_all

theorem bindTokens_separator {t : Token} {rest : Tokens} (hc : c.tokens = .more t rest)
    (ht : t.isSeparator = true) : env.bindTokens s c = .ok ⟨s, .past t rest, true⟩ := by
  rw [bindTokens]; split <;> simp_all

theorem bindTokens_error {t : Token} {rest : Tokens} {f : ParseFail} (hc : c.tokens = .more t rest)
    (ht : t.isSeparator = false) (h : env.bindToken s t (.past t rest) = .error f) :
    env.bindTokens s c = .error f := by
  rw [bindTokens]
  split
  · simp_all
  · simp_all
  · rename_i t' rest' hc'
    obtain ⟨rfl, rfl⟩ : t' = t ∧ rest' = rest := by simpa [hc] using hc'.symm
    rw [if_neg (by simp [ht])]
    split <;> simp_all

theorem bindTokens_none {t : Token} {rest : Tokens} (hc : c.tokens = .more t rest)
    (ht : t.isSeparator = false) (h : env.bindToken s t (.past t rest) = .ok none) :
    env.bindTokens s c = .ok ⟨s, c, false⟩ := by
  rw [bindTokens]
  split
  · simp_all
  · simp_all
  · rename_i t' rest' hc'
    obtain ⟨rfl, rfl⟩ : t' = t ∧ rest' = rest := by simpa [hc] using hc'.symm
    rw [if_neg (by simp [ht])]
    split <;> simp_all

theorem bindTokens_some {t : Token} {rest : Tokens} {s' : BindState} {c' : TokenCursor}
    (hc : c.tokens = .more t rest) (ht : t.isSeparator = false)
    (h : env.bindToken s t (.past t rest) = .ok (some (s', c'))) :
    env.bindTokens s c = env.bindTokens { s' with stop := c'.position } c' := by
  conv => lhs; rw [bindTokens]
  split
  · simp_all
  · simp_all
  · rename_i t' rest' hc'
    obtain ⟨rfl, rfl⟩ : t' = t ∧ rest' = rest := by simpa [hc] using hc'.symm
    rw [if_neg (by simp [ht])]
    split <;> simp_all

end Cases

/-- The state with the defaults of unbound arguments. Their input is empty, and stands at the
end of the command. -/
def bindDefaults (s : BindState) (unbound : List Argument) : BindState :=
  { s with bound := s.bound ++ unbound.filterMap fun a =>
      a.fallback?.map fun v => ⟨a.id, .empty (.point s.stop), v, .default⟩ }

/-- Ends a command. In a complete line every required argument has to be bound, and defaults
are filled in. -/
def finish (env : BindEnv) (s : BindState) : Except ParseFail BindState :=
  match env.mode with
  | .partialLine => .ok s
  | .complete =>
    match (env.remaining s).find? fun a => !a.isOptional with
    | some a => .error (env.fail (.missingRequiredArgument env.commandName a.id) (.point s.stop))
    | none => .ok (bindDefaults s (env.remaining s))

/-- Binds the tokens after the name of a command to its arguments. -/
def bind (env : BindEnv) (c : TokenCursor) : Except ParseFail Binding :=
  match env.bindTokens (.start c.position) c with
  | .error f => .error f
  | .ok b => (env.finish b.state).map fun s => { b with state := s }

theorem bindTokens_remaining_le {env : BindEnv} {s : BindState} {c : TokenCursor} {b : Binding}
    (h : env.bindTokens s c = .ok b) : b.cursor.remaining ≤ c.remaining := by
  fun_induction bindTokens env s c with
  | case1 => cases h; exact Nat.le_refl _
  | case2 => cases h
  | case3 s c t rest hc =>
    cases h
    simp only [TokenCursor.remaining, TokenCursor.past, hc, Tokens.length_more]
    omega
  | case4 => cases h
  | case5 => cases h; exact Nat.le_refl _
  | case6 s c t rest hc _ s' c' hb ih =>
    have h1 := ih h
    have h2 := bindToken_remaining_le hb
    simp only [TokenCursor.remaining, TokenCursor.past, hc, Tokens.length_more] at h1 h2 ⊢
    omega

theorem bind_remaining_le {env : BindEnv} {c : TokenCursor} {b : Binding}
    (h : env.bind c = .ok b) : b.cursor.remaining ≤ c.remaining := by
  unfold bind at h
  split at h
  · cases h
  · rename_i q hq
    obtain ⟨s, _, rfl⟩ := exists_of_map_eq_ok h
    exact bindTokens_remaining_le (b := q) hq

end BindEnv
end CommandConsole
