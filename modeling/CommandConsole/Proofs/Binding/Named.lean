/-
# Arguments given by name

What a bound argument says can be written by name: `--name` for a switch given
alone, `--name=value` for a literal. Tokens that are read from these bind the
same arguments to the same values, in the order in which they are written, and
leave the same arguments to their defaults.

Key definitions: `BoundArgument.piece`, `BindEnv.Knows`, `BindEnv.Restates`.
Key theorems: `BindEnv.bindToken_restates`, `BindEnv.bindTokens_restates`,
`BindEnv.bind_restates`.
-/
import CommandConsole.Proofs.Binding.Settled
import CommandConsole.Proofs.Command.Declaration
import CommandConsole.Proofs.Token.Piece

namespace CommandConsole

/-- What a bound argument says, given by name. -/
def BoundArgument.piece (name : String) (b : BoundArgument) : Piece :=
  if b.input.isEmpty then .name name else .assigned name b.input

theorem BoundArgument.kind_of_piece {name : String} {b : BoundArgument} {t : Token}
    (h : (b.piece name).Reads t) : ∃ assigned, t.kind = .named name assigned := by
  unfold piece at h
  split at h
  · exact ⟨none, h⟩
  · obtain ⟨v, hk, -⟩ := h
    exact ⟨some v, hk⟩

namespace BindEnv

theorem convert_of_eq_ok {env : BindEnv} {a : Argument} {input : Literal} {value : Value}
    (h : a.type.convert input = .ok value) : env.convert a input = .ok value := by
  rw [convert, h]
  rfl

theorem convertEach_of_forall₂ {env : BindEnv} {a : Argument} : ∀ {items : List Literal}
    {vs : List Value} (i : Nat), List.Forall₂ (fun i v => a.type.convert i = .ok v) items vs →
      env.convertEach a i items = .ok vs
  | [], _, _, .nil => rfl
  | item :: items, v :: vs, i, .cons hv hvs => by
    rw [convertEach, hv]
    dsimp only
    rw [convertEach_of_forall₂ (i + 1) hvs]
    rfl

/-- A scalar that begins a run of values of a list type is not such a list itself. -/
theorem startsListRun_of_convert {a : Argument} {input : Literal} {value : Value}
    (h : a.type.convert input = .ok value) :
    startsListRun a input = false := by
  unfold startsListRun
  by_cases hk : input.kind = .scalar ∧ a.type.kind = .list
  · rw [ArgType.convert_refused (by rw [hk.1, hk.2]; rfl)] at h
    cases h
  · rw [Bool.and_eq_false_iff]
    rcases not_and_or.mp hk with hk | hk
    · exact .inl (by simpa using hk)
    · exact .inr (by simpa using hk)

/-- A literal that holds for an argument can be assigned to it. -/
theorem takeAssigned_holds {env : BindEnv} {a : Argument} {input : Literal} {value : Value}
    (h : a.Holds input value) :
    ∃ taken, env.takeAssigned a input = .ok (taken, value) ∧ taken.unspanned = input.unspanned := by
  unfold takeAssigned
  cases hm : a.multiplicity with
  | single =>
    simp only [Argument.Holds, hm] at h
    refine ⟨input, ?_, rfl⟩
    dsimp only
    rw [convert_of_eq_ok h]
    rfl
  | multiple =>
    simp only [Argument.Holds, hm] at h
    refine ⟨input, ?_, rfl⟩
    dsimp only
    rw [startsListRun_of_convert h, if_neg (by simp), convert_of_eq_ok h]
    rfl
  | vararg =>
    simp only [Argument.Holds, hm] at h
    obtain ⟨items, span, vs, rfl, rfl, hall⟩ := h
    refine ⟨listOfRun items, ?_, rfl⟩
    dsimp only [itemsOf]
    rw [convertEach_of_forall₂ 0 hall]
    rfl

/-- The arguments are fixed and can be told apart by name, and only declared names count. -/
structure Knows (env : BindEnv) (args : List Argument) : Prop where
  source : env.source = .static args
  longNames : ∀ a, env.longNames a = a.names
  tellable : Argument.Tellable args

variable {env : BindEnv} {args : List Argument} {a : Argument} {s : BindState} {t : Token}
  {c : TokenCursor} {b : BoundArgument}

theorem Knows.mem_remaining (hE : env.Knows args) :
    a ∈ env.remaining s ↔ a ∈ args ∧ a.FreeIn s := by
  simp only [remaining, hE.source, ArgumentSource.remaining, ArgumentSource.candidates,
    List.mem_filter, Argument.FreeIn]
  simp

/-- An unbound argument is found by each of its long names. -/
theorem Knows.findNamed? (hE : env.Knows args) (ha : a ∈ args) (hf : a.FreeIn s) {name : String}
    (hn : name ∈ a.names) : env.findNamed? (env.remaining s) name = some a := by
  unfold BindEnv.findNamed?
  cases hfind : (env.remaining s).find? fun d => (env.longNames d).contains name with
  | none =>
    have := List.find?_eq_none.mp hfind a (hE.mem_remaining.mpr ⟨ha, hf⟩)
    rw [hE.longNames] at this
    exact absurd (by simpa using hn) this
  | some d =>
    have hd := (hE.mem_remaining.mp (List.mem_of_find?_eq_some hfind)).1
    have hname := List.find?_some hfind
    rw [hE.longNames] at hname
    rw [hE.tellable.eq_of_name hd ha (by simpa using hname) hn]

/-- A switch that no value follows is true. -/
theorem bindSwitch_alone (hnext : ∀ next rest, c.tokens = .more next rest → next.word? = none) :
    bindSwitch s a t c = (s.push ⟨a.id, .empty t.span, .bool true, .named⟩, c) := by
  unfold bindSwitch
  dsimp only
  split
  · rename_i next rest hc
    rw [hnext next rest hc]
  · rfl

theorem same_empty {v : Literal} (h : v.isEmpty = true) (span : Span) :
    (Literal.empty span).same v = true := by
  cases v with
  | empty => simp [Literal.same]
  | _ => cases h

/-- The token gives an argument by name what `b` says. -/
def Restates (args : List Argument) (b : BoundArgument) (t : Token) : Prop :=
  ∃ a ∈ args, a.longName ∈ a.names ∧ a.type.Builtin ∧ a.Settled b ∧ b.origin ≠ .default ∧
    (b.piece a.longName).Reads t

theorem Restates.kind (h : Restates args b t) : ∃ name assigned, t.kind = .named name assigned := by
  obtain ⟨a, -, -, -, -, -, hr⟩ := h
  obtain ⟨assigned, hk⟩ := b.kind_of_piece hr
  exact ⟨_, assigned, hk⟩

theorem Restates.isSeparator_eq (h : Restates args b t) : t.isSeparator = false := by
  obtain ⟨name, assigned, hk⟩ := h.kind
  rw [Token.isSeparator, hk]

theorem Restates.word?_eq (h : Restates args b t) : t.word? = none := by
  obtain ⟨name, assigned, hk⟩ := h.kind
  rw [Token.word?, hk]

/-- **A token that says what an argument is bound to binds it to the same.** -/
theorem bindToken_restates (hE : env.Knows args) (h : Restates args b t)
    (hf : ∀ d ∈ s.bound, d.id ≠ b.id)
    (hnext : ∀ next rest, c.tokens = .more next rest → next.word? = none) :
    ∃ d, env.bindToken s t c = .ok (some (s.push d, c)) ∧ b.Same d := by
  obtain ⟨a, ha, hn, ht, hb, hdefault, hr⟩ := h
  cases hb with
  | switch hs he =>
    simp only [BoundArgument.piece, he, if_true] at hr
    have hk : t.kind = .named a.longName none := hr
    refine ⟨⟨a.id, .empty t.span, .bool true, .named⟩, ?_, rfl, same_empty he _, rfl,
      by simpa using hdefault⟩
    unfold bindToken bindNamed
    rw [hk]
    dsimp only
    rw [hE.findNamed? ha hf hn]
    dsimp only
    rw [if_pos hs, bindSwitch_alone hnext]
    rfl
  | @literal input value origin he h =>
    rw [BoundArgument.piece, if_neg (by simp [he.isEmpty_eq])] at hr
    obtain ⟨v, hk, hv⟩ := hr
    rw [Literal.filled_eq_self _ he] at hv
    obtain ⟨taken, htake, hsame⟩ := takeAssigned_holds (h.same ht hv)
    refine ⟨⟨a.id, taken, value, .named⟩, ?_, rfl, (Literal.same_iff ..).mpr (hsame.trans hv), rfl,
      by simpa using hdefault⟩
    have hempty : v.isEmpty = false := by
      cases v with
      | empty =>
        cases input with
        | empty => exact he.elim
        | _ => simp [Literal.unspanned] at hv
      | _ => rfl
    rw [bindToken_assignment hk hempty (hE.findNamed? ha hf hn), htake]
    rfl

/-- What comes after a token that is left to bind is no word. -/
theorem word?_eq_of_restates {bs : List BoundArgument} {ts : List Token} {stop : Nat}
    (h : List.Forall₂ (Restates args) bs ts) : ∀ next rest,
      Tokens.prepend ts (.finished stop) = .more next rest → next.word? = none := by
  intro next rest hmore
  cases h with
  | nil => cases hmore
  | cons h _ =>
    cases hmore
    exact h.word?_eq

/-- **A line of such tokens binds the arguments to the same again**, in order. -/
theorem bindTokens_restates (hE : env.Knows args) (stop : Nat) {bs : List BoundArgument}
    {ts : List Token} (h : List.Forall₂ (Restates args) bs ts) :
    ∀ (s : BindState) (position : Nat), bs.Pairwise (fun b d => b.id ≠ d.id) →
      (∀ b ∈ bs, ∀ d ∈ s.bound, d.id ≠ b.id) →
        ∃ s' position' ds, env.bindTokens s ⟨position, .prepend ts (.finished stop)⟩ =
            .ok ⟨s', ⟨position', .finished stop⟩, false⟩ ∧
          s'.bound = s.bound ++ ds ∧ List.Forall₂ BoundArgument.Same bs ds := by
  induction h with
  | nil =>
    intro s position _ _
    exact ⟨s, position, [], bindTokens_finished rfl, (List.append_nil _).symm, .nil⟩
  | @cons b t bs ts h hs ih =>
    intro s position hd hf
    obtain ⟨hdb, hdbs⟩ := List.pairwise_cons.mp hd
    obtain ⟨d, hbind, hsame⟩ := bindToken_restates (c := .past t (.prepend ts (.finished stop)))
      hE h (hf b List.mem_cons_self) (word?_eq_of_restates hs)
    have hfree : ∀ x ∈ bs, ∀ y ∈ (s.push d).bound, y.id ≠ x.id := by
      intro x hx y hy
      rcases BindState.mem_bound_push.mp hy with hy | rfl
      · exact hf x (List.mem_cons_of_mem _ hx) y hy
      · rw [hsame.id]
        exact hdb x hx
    obtain ⟨s', position', ds, hrest, hbound, hall⟩ :=
      ih { s.push d with stop := t.span.stop } t.span.stop hdbs hfree
    refine ⟨s', position', d :: ds, ?_, ?_, .cons hsame hall⟩
    · rw [Tokens.prepend_cons, bindTokens_some rfl h.isSeparator_eq hbind]
      exact hrest
    · rw [hbound]
      exact List.append_cons .. |>.symm

/-! ### Defaults -/

variable {env' : BindEnv} {s' : BindState} {bs ds : List BoundArgument}

theorem any_id_same (h : List.Forall₂ BoundArgument.Same bs ds) (id : String) :
    (ds.any fun d => d.id == id) = bs.any fun b => b.id == id := by
  induction h with
  | nil => rfl
  | cons h _ ih => rw [List.any_cons, List.any_cons, ih, h.id]

/-- What is left to bind depends on the ids that are bound. -/
theorem remaining_same (hE : env.Knows args) (hE' : env'.Knows args)
    (h : List.Forall₂ BoundArgument.Same s.bound s'.bound) :
    env'.remaining s' = env.remaining s := by
  rw [remaining, remaining, hE.source, hE'.source, ArgumentSource.remaining,
    ArgumentSource.remaining]
  exact List.filter_congr fun a _ => by rw [any_id_same h]

theorem bindDefaults_same (unbound : List Argument)
    (h : List.Forall₂ BoundArgument.Same s.bound s'.bound) :
    List.Forall₂ BoundArgument.Same (bindDefaults s unbound).bound
      (bindDefaults s' unbound).bound := by
  refine List.rel_append h ?_
  induction unbound with
  | nil => exact .nil
  | cons a unbound ih =>
    cases hv : a.fallback? with
    | none => simpa [hv] using ih
    | some v =>
      have hsame : BoundArgument.Same ⟨a.id, .empty (.point s.stop), v, .default⟩
          ⟨a.id, .empty (.point s'.stop), v, .default⟩ :=
        ⟨rfl, same_empty rfl _, rfl, Iff.rfl⟩
      simpa [hv] using ⟨hsame, ih⟩

/-- **Saying again what was given ends in the same arguments**, defaults included. -/
theorem bind_restates (hE : env.Knows args) (hE' : env'.Knows args) (hm : env'.mode = .complete)
    {bound : List BoundArgument} (hC : env.Completed args s bound) {ts : List Token}
    (h : List.Forall₂ (Restates args) s.bound ts) (position stop : Nat) :
    ∃ state position', env'.bind ⟨position, .prepend ts (.finished stop)⟩ =
        .ok ⟨state, ⟨position', .finished stop⟩, false⟩ ∧
      List.Forall₂ BoundArgument.Same bound state.bound := by
  obtain ⟨s', position', ds, hbind, hbound, hall⟩ :=
    bindTokens_restates hE' stop h (.start position) position hC.ids (by simp [BindState.start])
  have hsame : List.Forall₂ BoundArgument.Same s.bound s'.bound := by
    rw [hbound]
    exact hall
  have hremaining := remaining_same hE hE' hsame
  have hnone : (env'.remaining s').find? (fun a => !a.isOptional) = none := by
    rw [hremaining]
    exact List.find?_eq_none.mpr fun a ha => by simp [hC.optional a ha]
  have hfinish : env'.finish s' = .ok (bindDefaults s' (env.remaining s)) := by
    rw [finish, hm]
    dsimp only
    rw [hnone, hremaining]
  refine ⟨bindDefaults s' (env.remaining s), position', ?_, ?_⟩
  · rw [bind, hbind]
    dsimp only
    rw [hfinish]
    rfl
  · rw [hC.bound]
    exact bindDefaults_same (env.remaining s) hsame

end BindEnv
end CommandConsole
