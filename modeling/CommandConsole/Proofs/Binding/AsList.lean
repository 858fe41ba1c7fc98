/-
# A run and the list that it stands for

A command with one argument that takes several values may get them one by one,
or as the items of one list literal. The binder goes two ways: it collects the
run token by token, and it takes the literal as it is, or apart. What is
converted in the end is the same up to spans, with the same indices in the
path of a mismatch.

Key definitions: `BindEnv.Wants`, `Token.Offers`, `BindEnv.Leaves`.
Key theorems: `BindEnv.Wants.bind_run`, `BindEnv.Wants.bind_literal`,
`BindEnv.Wants.bind_assigned`.
-/
import CommandConsole.Proofs.Binding.Alike
import CommandConsole.Proofs.Binding.Settled

namespace CommandConsole

/-- The token is the value `v` for whoever takes values, and no bundle of flags. -/
def Token.Offers (v : Literal) (t : Token) : Prop := t.kind = .value v ∧ t.shortFlags? = none

theorem flagBundle?_of_noFlags {policy : ShortFlagPolicy} {args : List Argument} {t : Token}
    (h : t.shortFlags? = none) : flagBundle? policy args t = none := by
  rw [flagBundle?, h]

/-- A run takes all the values up to the end of the line. -/
theorem collectRun_values {stops : Token → Bool} {stop : Nat} {ws : List Literal} {ks : List Token}
    (h : List.Forall₂ (fun w k => Token.kind k = .value w ∧ stops k = false) ws ks) :
    ∀ position : Nat, collectRun stops position (.prepend ks (.finished stop)) =
      .ok ⟨ws, ⟨stop, .finished stop⟩, true⟩ := by
  induction h with
  | nil => exact fun _ => rfl
  | cons hk _ ih =>
    intro position
    rw [Tokens.prepend_cons, collectRun, hk.1]
    dsimp only
    rw [if_neg (by simp [hk.2]), ih]
    rfl

/-- What differs in spans only says the same. -/
theorem BoundArgument.Same.of_alike {b d : BoundArgument} (hid : d.id = b.id)
    (hinput : b.input.Alike .unplaced d.input) (hvalue : d.value = b.value)
    (hb : b.origin ≠ .default) (hd : d.origin ≠ .default) : b.Same d :=
  ⟨hid, (Literal.same_iff _ _).mpr hinput.unspanned_eq, hvalue, iff_of_false hd hb⟩

namespace BindEnv

/-- A whole line is bound to one argument, which has to be given. -/
structure Wants (env : BindEnv) (a : Argument) : Prop where
  complete : env.mode = .complete
  source : env.source = .static [a]
  required : a.isOptional = false

/-- A command is bound to the one argument `b`, and nothing of the line is left. -/
def Leaves (stop : Nat) (b : BoundArgument) (q : Binding) : Prop :=
  q.state.bound = [b] ∧ q.cursor.tokens = .finished stop

/-- What an argument of several values comes to that gets the literals of a run. -/
def ofRun (env : BindEnv) (a : Argument) (ws : List Literal) (origin : BindOrigin) :
    Except ParseFail BoundArgument :=
  match a.multiplicity with
  | .vararg => (env.convertEach a 0 ws).map fun vs => ⟨a.id, listOfRun ws, .list vs, origin⟩
  | _ => (env.convert a (listOfRun ws)).map fun v => ⟨a.id, listOfRun ws, v, origin⟩

variable {env : BindEnv} {a : Argument} {v w : Literal} {ws : List Literal} {t : Token}
  {ks : List Token} {c : TokenCursor} {stop n : Nat} {b : BoundArgument}

namespace Wants

theorem remaining_start (h : env.Wants a) (n : Nat) : env.remaining (.start n) = [a] := by
  rw [remaining, h.source]
  rfl

/-- With its argument bound, the command is complete. -/
theorem finish_bound (h : env.Wants a) {s : BindState} (hs : s.bound = [b]) (hid : b.id = a.id) :
    ∃ s', env.finish s = .ok s' ∧ s'.bound = [b] := by
  have hrem : env.remaining s = [] := by
    simp [remaining, h.source, ArgumentSource.remaining, ArgumentSource.candidates, hs, hid]
  refine ⟨bindDefaults s [], ?_, ?_⟩
  · rw [finish, h.complete, hrem]
    rfl
  · simp [bindDefaults, hs]

/-- A token that takes the rest of the line decides what is bound. -/
theorem bind_eq (h : env.Wants a) {rest : Tokens} (hc : c.tokens = .more t rest)
    (ht : t.isSeparator = false) {e : Except ParseFail BoundArgument}
    (hstep : Agree Eq (fun b r => ∃ s c', r = some (s, c') ∧ s.bound = [b] ∧ b.id = a.id ∧
      c'.tokens = .finished stop) e (env.bindToken (.start c.position) t (.past t rest))) :
    Agree Eq (Leaves stop) e (env.bind c) := by
  rcases hstep.cases with ⟨f, g, rfl, hg, rfl⟩ | ⟨b, r, rfl, hr, s, c', rfl, hs, hid, hc'⟩
  · rw [bind, bindTokens_error hc ht hg]
    exact .error rfl
  · rw [bind, bindTokens_some hc ht hr, bindTokens_finished hc']
    obtain ⟨s', hfinish, hs'⟩ := h.finish_bound (s := { s with stop := c'.position }) hs hid
    dsimp only
    rw [hfinish]
    exact .ok ⟨hs', hc'⟩

/-- A value goes to the argument, or the line fails. -/
theorem bindToken_value (h : env.Wants a) (ht : t.Offers v) (c : TokenCursor) :
    env.bindToken (.start n) t c = (env.takeValue (.start n) a v c).map fun k =>
      some (record (.start n) a .positional k, k.cursor) := by
  rw [bindToken, ht.1]
  dsimp only
  rw [flagBundle?_of_noFlags ht.2]
  dsimp only
  rw [bindUnnamed, h.remaining_start, offer]
  cases env.takeValue (.start n) a v c with
  | error f =>
    dsimp only
    rw [if_neg (by simp [h.required])]
    rfl
  | ok k => rfl

/-- The run that begins with a value and goes on to the end of the line. -/
theorem runFrom_values (hks : List.Forall₂ Token.Offers ws ks)
    (hc : c.tokens = .prepend ks (.finished stop)) (s : BindState) :
    env.runFrom s v c = .ok ⟨v :: ws, ⟨stop, .finished stop⟩, true⟩ := by
  have hrun : List.Forall₂ (fun w k => Token.kind k = .value w ∧
      (flagBundle? env.policy (env.remaining s) k).isSome = false) ws ks :=
    hks.imp fun w k hk => ⟨hk.1, by rw [flagBundle?_of_noFlags hk.2]; rfl⟩
  rw [runFrom, hc, collectRun_values hrun]

/-- **Values that fill the line are taken as a run.** -/
theorem bind_run (h : env.Wants a) (ha : a.multiplicity = .vararg ∨
      (a.multiplicity = .multiple ∧ startsListRun a v = true))
    (hks : List.Forall₂ Token.Offers (v :: ws) (t :: ks))
    (hc : c.tokens = .prepend (t :: ks) (.finished stop)) :
    Agree Eq (Leaves stop) (ofRun env a (v :: ws) .positional) (env.bind c) := by
  obtain ⟨ht, hks⟩ := List.forall₂_cons.mp hks
  refine h.bind_eq hc (Token.isSeparator_of_isValue (Token.isValue_of_kind ht.1)) ?_
  rw [h.bindToken_value ht]
  unfold ofRun takeValue
  rcases ha with hm | ⟨hm, hstarts⟩
  · rw [hm]
    dsimp only
    rw [runFrom_values hks rfl]
    dsimp only
    cases env.convertEach a 0 (v :: ws) with
    | error f => exact .error rfl
    | ok vs => exact .ok ⟨_, _, rfl, rfl, rfl, rfl⟩
  · rw [hm]
    dsimp only
    rw [if_pos hstarts, runFrom_values hks rfl]
    dsimp only
    cases env.convert a (listOfRun (v :: ws)) with
    | error f => exact .error rfl
    | ok vs => exact .ok ⟨_, _, rfl, rfl, rfl, rfl⟩

/-- **A list literal is taken as it is** by an argument that takes lists. -/
theorem bind_literal (h : env.Wants a) (hm : a.multiplicity = .multiple)
    (hl : startsListRun a v = false) (ht : t.Offers v)
    (hc : c.tokens = .more t (.finished stop)) :
    Agree Eq (Leaves stop) ((env.convert a v).map fun x => ⟨a.id, v, x, .positional⟩)
      (env.bind c) := by
  refine h.bind_eq hc (Token.isSeparator_of_isValue (Token.isValue_of_kind ht.1)) ?_
  rw [h.bindToken_value ht, takeValue, hm]
  dsimp only
  rw [if_neg (by simp [hl])]
  cases env.convert a v with
  | error f => exact .error rfl
  | ok x => exact .ok ⟨_, _, rfl, rfl, rfl, rfl⟩

/-- **A list that is assigned to a name is taken apart** by an argument that takes a run. -/
theorem bind_assigned (h : env.Wants a) (hm : a.multiplicity = .vararg) {name : String}
    (hname : name ∈ env.longNames a) {items : List Literal} {span : Span}
    (ht : t.kind = .named name (some (.list items span)))
    (hc : c.tokens = .more t (.finished stop)) :
    Agree Eq (Leaves stop) (ofRun env a items .named) (env.bind c) := by
  have hfind : env.findNamed? (env.remaining (.start c.position)) name = some a := by
    simp [h.remaining_start, findNamed?, hname]
  refine h.bind_eq hc (by simp [Token.isSeparator, ht]) ?_
  rw [bindToken_assignment ht rfl hfind]
  unfold takeAssigned ofRun
  rw [hm]
  dsimp only [itemsOf]
  cases env.convertEach a 0 items with
  | error f => exact .error rfl
  | ok vs => exact .ok ⟨_, _, rfl, rfl, rfl, rfl⟩

end Wants

/-! ### The same up to spans -/

theorem ofRun_eq_ok {origin : BindOrigin} (h : env.ofRun a ws origin = .ok b) :
    b.id = a.id ∧ b.input = listOfRun ws := by
  unfold ofRun at h
  split at h
  · obtain ⟨vs, -, rfl⟩ := exists_of_map_eq_ok h
    exact ⟨rfl, rfl⟩
  · obtain ⟨v, -, rfl⟩ := exists_of_map_eq_ok h
    exact ⟨rfl, rfl⟩

/-- A run comes to the same wherever its literals stand, and to whatever name they are given. -/
theorem ofRun_alike (ha : a.type.Blind) {ws ws' : List Literal}
    (h : List.Forall₂ (Literal.Alike .unplaced) ws ws') {origin origin' : BindOrigin}
    (ho : origin ≠ .default) (ho' : origin' ≠ .default) (text : String) :
    Agree (ParseFail.Moved 0) BoundArgument.Same (env.ofRun a ws origin)
      ((env.inText text).ofRun a ws' origin') := by
  have hlist := Literal.Alike.listOfRun h
  unfold ofRun
  split
  · exact (convertEach_alike ha.heeds h 0).map fun vs vs' he =>
      .of_alike rfl hlist (congrArg Value.list he.symm) ho ho'
  · exact (convert_alike ha.heeds hlist).map fun v v' he => .of_alike rfl hlist he.symm ho ho'

/-- It also comes to the same as the literal with these items. -/
theorem ofRun_alike_literal (ha : a.type.Blind) (hm : a.multiplicity = .multiple)
    (h : (listOfRun ws).Alike .unplaced v) (text : String) :
    Agree (ParseFail.Moved 0) BoundArgument.Same (env.ofRun a ws .positional)
      (((env.inText text).convert a v).map fun x => ⟨a.id, v, x, .positional⟩) := by
  rw [ofRun, hm]
  exact (convert_alike ha.heeds h).map fun x y he =>
    .of_alike rfl h he.symm (by simp) (by simp)

end BindEnv
end CommandConsole
