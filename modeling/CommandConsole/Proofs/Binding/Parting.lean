/-
# Lines that part at a name

Two lines may have the same tokens up to a place, where a name stands in both.
Whatever looks ahead for a value stops in front of a name. So up to that place
the tokens are bound in the same way, and a failure is of the same kind, and
points at the same part of the line.

Key definitions: `ParseFail.Matches`, `Tokens.PartAt`, `TokenCursor.PartAt`, `Argument.TakesOne`.
Key theorems: `BindEnv.takeValue_partAt`, `BindEnv.bindToken_partAt`,
`BindEnv.bindTokens_inText`, `BindEnv.bindTokens_partAt`, `BindEnv.bindTokens_assigned`.
-/
import CommandConsole.Proofs.Binding.PartialLine
import CommandConsole.Proofs.Binding.Skipping
import CommandConsole.Proofs.Text.Boundary

namespace CommandConsole

/-! ### Failures -/

/-- The failures are of the same kind, about the same part of their lines. -/
def ParseFail.Matches (f g : ParseFail) : Prop := g.kind = f.kind ∧ g.span = f.span

theorem Aligned.matches_ofLiteral {text text' : String} (h : Aligned text text')
    (f : LiteralFailure) : (ParseFail.ofLiteral f text).Matches (.ofLiteral f text') :=
  ⟨rfl, h f.position⟩

/-! ### Tokens -/

/-- A name stands in front. -/
def Tokens.StartsName (ts : Tokens) : Prop :=
  ∃ t rest name assigned, ts = .more t rest ∧ t.kind = .named name assigned

/-- Two lines have the same tokens, or up to a name that `A` begins with in the one, and `B` in the
other. -/
inductive Tokens.PartAt (A B : Tokens) : Tokens → Tokens → Prop
  | finished (stop : Nat) : PartAt A B (.finished stop) (.finished stop)
  | broken (start : Nat) (f : LiteralFailure) : PartAt A B (.broken start f) (.broken start f)
  | more (t : Token) {ts us : Tokens} (h : PartAt A B ts us) : PartAt A B (.more t ts) (.more t us)
  | here (hA : A.StartsName) (hB : B.StartsName) : PartAt A B A B

namespace Tokens.PartAt

variable {A B ts us : Tokens}

theorem refl (A B : Tokens) : ∀ ts, PartAt A B ts ts
  | .finished stop => .finished stop
  | .broken start f => .broken start f
  | .more t rest => .more t (refl A B rest)

theorem prepend (h : PartAt A B ts us) : ∀ front : List Token,
    PartAt A B (.prepend front ts) (.prepend front us)
  | [] => h
  | t :: front => .more t (prepend h front)

/-- Behind the place where the lines part there is only what they have in common. -/
theorem eq_of_length_lt (h : PartAt A B ts us) (hlt : ts.length < A.length) : us = ts := by
  induction h with
  | finished => rfl
  | broken => rfl
  | more t _ ih =>
    rw [length_more] at hlt
    rw [ih (by omega)]
  | here => exact absurd hlt (Nat.lt_irrefl _)

theorem of_end (h : PartAt A B ts us) (hts : ∀ t rest, ts ≠ .more t rest) : us = ts := by
  cases h with
  | finished => rfl
  | broken => rfl
  | more t h => exact absurd rfl (hts t _)
  | here hA =>
    obtain ⟨t, rest, -, -, rfl, -⟩ := hA
    exact absurd rfl (hts t rest)

/-- Where a token stands, it stands in both lines, or it is the name where the lines part. -/
theorem of_more {t : Token} {rest : Tokens} (h : PartAt A B (.more t rest) us) :
    (∃ rest', us = .more t rest' ∧ PartAt A B rest rest') ∨
      A = .more t rest ∧ us = B ∧ ∃ name assigned, t.kind = .named name assigned := by
  generalize hts : Tokens.more t rest = ts at h
  cases h with
  | finished => cases hts
  | broken => cases hts
  | more u h =>
    cases hts
    exact .inl ⟨_, rfl, h⟩
  | here hA =>
    obtain ⟨u, us, name, assigned, rfl, hu⟩ := hA
    cases hts
    exact .inr ⟨rfl, rfl, name, assigned, hu⟩

/-- In front of the place where they part both lines have the same token. -/
theorem exists_of_more {t : Token} {rest : Tokens} (h : PartAt A B (.more t rest) us)
    (hle : A.length ≤ rest.length) : ∃ rest', us = .more t rest' ∧ PartAt A B rest rest' := by
  refine h.of_more.resolve_right fun hwall => ?_
  have hlength := congrArg length hwall.1
  rw [length_more] at hlength
  omega

/-- Lines that part nowhere are the same. -/
theorem eq_of_finished {stop : Nat} {B : Tokens} (h : PartAt (.finished stop) B ts us) :
    us = ts := by
  induction h with
  | finished => rfl
  | broken => rfl
  | more t _ ih => rw [ih]
  | here hA =>
    obtain ⟨t, rest, name, assigned, hA, -⟩ := hA
    cases hA

end Tokens.PartAt

theorem Token.word?_named {t : Token} {name : String} {assigned : Option Literal}
    (h : t.kind = .named name assigned) : t.word? = none := by
  rw [word?, h]

structure TokenCursor.PartAt (A B : Tokens) (c c' : TokenCursor) : Prop where
  position : c'.position = c.position
  tokens : Tokens.PartAt A B c.tokens c'.tokens

/-- The same run, up to the place where the lines part. -/
structure Run.PartAt (A B : Tokens) (r r' : Run) : Prop where
  items : r'.items = r.items
  atEnd : r'.atEnd = r.atEnd
  cursor : r.cursor.PartAt A B r'.cursor

structure Taken.PartAt (A B : Tokens) (k k' : Taken) : Prop where
  input : k'.input = k.input
  value : k'.value = k.value
  pending : k'.pending = k.pending
  cursor : k.cursor.PartAt A B k'.cursor

/-- A run stops in front of a name. -/
theorem collectRun_partAt {A B ts us : Tokens} (stops : Token → Bool)
    (h : Tokens.PartAt A B ts us) (p : Nat) :
    Agree Eq (Run.PartAt A B) (collectRun stops p ts) (collectRun stops p us) := by
  induction h generalizing p with
  | finished stop => exact .ok ⟨rfl, rfl, rfl, .finished stop⟩
  | broken start f => exact .error rfl
  | @more t ts us h ih =>
    have hstay : Run.PartAt A B ⟨[], ⟨p, .more t ts⟩, false⟩ ⟨[], ⟨p, .more t us⟩, false⟩ :=
      ⟨rfl, rfl, rfl, .more t h⟩
    rw [collectRun, collectRun]
    cases t.kind with
    | value v =>
      dsimp only
      split
      · exact .ok hstay
      · exact (ih t.span.stop).map fun r r' hr =>
          ⟨congrArg (v :: ·) hr.items, hr.atEnd, hr.cursor⟩
    | separator => exact .ok hstay
    | named name assigned => exact .ok hstay
  | here hA hB =>
    have hhere := Tokens.PartAt.here hA hB
    obtain ⟨t, rest, name, assigned, rfl, ht⟩ := hA
    obtain ⟨u, us, name', assigned', rfl, hu⟩ := hB
    rw [collectRun, collectRun, ht, hu]
    exact .ok ⟨rfl, rfl, rfl, hhere⟩

namespace BindEnv

variable {A B : Tokens} {env : BindEnv} {text : String} {s : BindState} {a : Argument}
  {v : Literal} {t : Token} {c c' : TokenCursor}

/-! ### Values -/

theorem convert_matches (env : BindEnv) (text : String) (a : Argument) (v : Literal) :
    Agree ParseFail.Matches Eq (env.convert a v) ((env.inText text).convert a v) := by
  unfold convert
  cases a.type.convert v with
  | error m => exact .error ⟨rfl, rfl⟩
  | ok w => exact .ok rfl

theorem convertEach_matches (env : BindEnv) (text : String) (a : Argument) :
    ∀ (i : Nat) (items : List Literal), Agree ParseFail.Matches Eq (env.convertEach a i items)
      ((env.inText text).convertEach a i items)
  | i, [] => .ok rfl
  | i, item :: items => by
    rw [convertEach, convertEach]
    cases a.type.convert item with
    | error m => exact .error ⟨rfl, rfl⟩
    | ok w => exact (convertEach_matches env text a (i + 1) items).map fun _ _ h => congrArg _ h

theorem takeAssigned_matches (env : BindEnv) (text : String) (a : Argument) (v : Literal) :
    Agree ParseFail.Matches Eq (env.takeAssigned a v) ((env.inText text).takeAssigned a v) := by
  unfold takeAssigned
  cases a.multiplicity with
  | single => exact (convert_matches env text a v).map fun _ _ h => congrArg _ h
  | multiple => exact (convert_matches env text a _).map fun _ _ h => congrArg _ h
  | vararg => exact (convertEach_matches env text a 0 _).map fun _ _ h => by rw [h]

theorem runFrom_partAt (htext : Aligned env.text text) (s : BindState) (v : Literal)
    (hc : c.PartAt A B c') :
    Agree ParseFail.Matches (Run.PartAt A B) (env.runFrom s v c)
      ((env.inText text).runFrom s v c') := by
  have hrun : Agree Eq (Run.PartAt A B)
      (collectRun (fun t => (flagBundle? env.policy (env.remaining s) t).isSome) c.position
        c.tokens)
      (collectRun (fun t => (flagBundle? (env.inText text).policy ((env.inText text).remaining s)
        t).isSome) c'.position c'.tokens) := by
    rw [← hc.position]
    exact collectRun_partAt _ hc.tokens c'.position
  rw [runFrom, runFrom]
  rcases hrun.cases with ⟨f, g, hf, hg, rfl⟩ | ⟨r, r', hr, hr', hrr⟩
  · rw [hf, hg]
    exact .error (htext.matches_ofLiteral f)
  · rw [hr, hr']
    exact .ok ⟨congrArg (v :: ·) hrr.items, hrr.atEnd, hrr.cursor⟩

theorem pendingAfter_partAt {r r' : Run} (h : r.PartAt A B r') (a : Argument) (n : Nat) :
    (env.inText text).pendingAfter a n r' = env.pendingAfter a n r := by
  rw [pendingAfter, pendingAfter, h.atEnd, h.items]
  rfl

/-- **An argument takes the same value in both lines.** -/
theorem takeValue_partAt (htext : Aligned env.text text) (s : BindState) (a : Argument)
    (v : Literal) (hc : c.PartAt A B c') :
    Agree ParseFail.Matches (Taken.PartAt A B) (env.takeValue s a v c)
      ((env.inText text).takeValue s a v c') := by
  have hone : Agree ParseFail.Matches (Taken.PartAt A B)
      ((env.convert a v).map fun w => (⟨v, w, .none, c⟩ : Taken))
      (((env.inText text).convert a v).map fun w => ⟨v, w, .none, c'⟩) :=
    (convert_matches env text a v).map fun _ _ h => ⟨rfl, h.symm, rfl, hc⟩
  have hrun := runFrom_partAt htext s v hc
  unfold takeValue
  cases a.multiplicity with
  | single => exact hone
  | multiple =>
    dsimp only
    split
    · rcases hrun.cases with ⟨f, g, hf, hg, hfg⟩ | ⟨r, r', hr, hr', hrr⟩
      · rw [hf, hg]
        exact .error hfg
      · rw [hr, hr']
        dsimp only
        rw [hrr.items, pendingAfter_partAt hrr]
        exact (convert_matches env text a _).map fun _ _ h => ⟨rfl, h.symm, rfl, hrr.cursor⟩
    · exact hone
  | vararg =>
    rcases hrun.cases with ⟨f, g, hf, hg, hfg⟩ | ⟨r, r', hr, hr', hrr⟩
    · rw [hf, hg]
      exact .error hfg
    · rw [hr, hr']
      dsimp only
      rw [hrr.items, pendingAfter_partAt hrr]
      exact (convertEach_matches env text a 0 _).map fun _ _ h =>
        ⟨rfl, congrArg Value.list h.symm, rfl, hrr.cursor⟩

/-! ### Arguments -/

/-- A token has left the same state behind in both lines. -/
def Bound.PartAt (A B : Tokens) (x y : Bound) : Prop := y.1 = x.1 ∧ x.2.PartAt A B y.2

theorem record_partAt {k k' : Taken} (h : k.PartAt A B k') (s : BindState) (a : Argument)
    (origin : BindOrigin) : record s a origin k' = record s a origin k := by
  rw [record, record, h.input, h.value, h.pending]

theorem bindSwitch_partAt (s : BindState) (a : Argument) (t : Token) (hc : c.PartAt A B c') :
    Bound.PartAt A B (bindSwitch s a t c) (bindSwitch s a t c') := by
  have habsent : Bound.PartAt A B (s.push ⟨a.id, .empty t.span, .bool true, .named⟩, c)
      (s.push ⟨a.id, .empty t.span, .bool true, .named⟩, c') := ⟨rfl, hc⟩
  obtain ⟨p, ts⟩ := c
  obtain ⟨p', ts'⟩ := c'
  have hts : Tokens.PartAt A B ts ts' := hc.tokens
  unfold bindSwitch
  cases hts with
  | finished => exact habsent
  | broken => exact habsent
  | more next h =>
    dsimp only
    split
    · exact habsent
    · split
      · exact habsent
      · exact ⟨rfl, rfl, h⟩
  | here hA hB =>
    obtain ⟨u, us, name, assigned, rfl, hu⟩ := hA
    obtain ⟨u', us', name', assigned', rfl, hu'⟩ := hB
    dsimp only
    rw [Token.word?_named hu, Token.word?_named hu']
    exact habsent

theorem bindFollowing_partAt (htext : Aligned env.text text) (s : BindState) (a : Argument)
    (t : Token) (origin : BindOrigin) (hc : c.PartAt A B c') :
    Agree ParseFail.Matches (Bound.PartAt A B) (env.bindFollowing s a t origin c)
      ((env.inText text).bindFollowing s a t origin c') := by
  obtain ⟨p, ts⟩ := c
  obtain ⟨p', ts'⟩ := c'
  obtain rfl : p' = p := hc.position
  have hts : Tokens.PartAt A B ts ts' := hc.tokens
  unfold bindFollowing
  cases hts with
  | finished stop =>
    dsimp only
    have hmode : (env.inText text).mode = env.mode := rfl
    rw [hmode]
    split
    · exact .ok ⟨rfl, hc⟩
    · exact .error ⟨rfl, rfl⟩
  | broken start f => exact .error (htext.matches_ofLiteral f)
  | @more next rest rest' h =>
    dsimp only
    cases next.kind with
    | value v =>
      have hpast : (TokenCursor.past next rest).PartAt A B (.past next rest') := ⟨rfl, h⟩
      exact (takeValue_partAt htext s a v hpast).map fun k k' hk =>
        ⟨record_partAt hk s a origin, hk.cursor⟩
    | separator => exact .error ⟨rfl, rfl⟩
    | named name assigned => exact .error ⟨rfl, rfl⟩
  | here hA hB =>
    obtain ⟨u, us, name, assigned, rfl, hu⟩ := hA
    obtain ⟨u', us', name', assigned', rfl, hu'⟩ := hB
    dsimp only
    rw [hu, hu']
    exact .error ⟨rfl, rfl⟩

theorem bindNamed_partAt (htext : Aligned env.text text) (s : BindState) (t : Token)
    (name : String) (assigned : Option Literal) (hc : c.PartAt A B c') :
    Agree ParseFail.Matches (Bound.PartAt A B) (env.bindNamed s t name assigned c)
      ((env.inText text).bindNamed s t name assigned c') := by
  have hfind : (env.inText text).findNamed? ((env.inText text).remaining s) name =
      env.findNamed? (env.remaining s) name := rfl
  unfold bindNamed
  rw [hfind]
  cases env.findNamed? (env.remaining s) name with
  | none => exact .error ⟨rfl, rfl⟩
  | some a =>
    dsimp only
    split
    · exact .error ⟨rfl, rfl⟩
    · exact (takeAssigned_matches env text a _).map fun x y hxy => by
        subst hxy
        exact ⟨rfl, hc⟩
    · split
      · exact .ok (bindSwitch_partAt s a t hc)
      · exact bindFollowing_partAt htext s a t .named hc

theorem bindFlags_partAt (htext : Aligned env.text text) (t : Token) :
    ∀ (as : List Argument) (s : BindState) {c c' : TokenCursor}, c.PartAt A B c' →
      Agree ParseFail.Matches (Bound.PartAt A B) (env.bindFlags t s as c)
        ((env.inText text).bindFlags t s as c')
  | [], s, _, _, hc => .ok ⟨rfl, hc⟩
  | a :: as, s, c, c', hc => by
    rw [bindFlags, bindFlags]
    split
    · exact bindFlags_partAt htext t as _ hc
    · rcases (bindFollowing_partAt htext s a t .flag hc).cases with
        ⟨f, g, hf, hg, hfg⟩ | ⟨⟨q, d⟩, ⟨q', d'⟩, hx, hy, hq, hd⟩
      · rw [hf, hg]
        exact .error hfg
      · obtain rfl : q' = q := hq
        rw [hx, hy]
        exact bindFlags_partAt htext t as _ hd

theorem rejectsFirst_matches {f g : ParseFail} (h : f.Matches g) (a : Argument) :
    rejectsFirst a g = rejectsFirst a f := by
  rw [rejectsFirst, rejectsFirst, h.1]

theorem offer_partAt (htext : Aligned env.text text) (s : BindState) (v : Literal)
    (hc : c.PartAt A B c') : ∀ as : List Argument,
      Agree ParseFail.Matches (Option.Rel (Bound.PartAt A B)) (env.offer s v c as)
        ((env.inText text).offer s v c' as)
  | [] => .ok .none
  | a :: as => by
    rw [offer, offer]
    rcases (takeValue_partAt htext s a v hc).cases with ⟨f, g, hf, hg, hfg⟩ | ⟨k, k', hk, hk', hkk⟩
    · rw [hf, hg]
      dsimp only
      rw [rejectsFirst_matches hfg]
      split
      · exact offer_partAt htext s v hc as
      · exact .error hfg
    · rw [hk, hk']
      exact .ok (.some ⟨record_partAt hkk s a .positional, hkk.cursor⟩)

theorem extendRun_partAt (htext : Aligned env.text text) (s : BindState) (v : Literal)
    (hc : c.PartAt A B c') :
    Agree ParseFail.Matches (Option.Rel (Bound.PartAt A B)) (env.extendRun s v c)
      ((env.inText text).extendRun s v c') := by
  unfold extendRun
  cases s.openRun with
  | none => exact .ok .none
  | some a =>
    dsimp only
    cases s.bound.find? fun b => b.id == a.id with
    | none => exact .ok .none
    | some b =>
      dsimp only
      split
      · rcases (runFrom_partAt htext s v hc).cases with ⟨f, g, hf, hg, hfg⟩ | ⟨r, r', hr, hr', hrr⟩
        · rw [hf, hg]
          exact .error hfg
        · rw [hr, hr']
          dsimp only
          rw [hrr.items, pendingAfter_partAt hrr]
          exact (convertEach_matches env text a _ _).map fun ws ws' h => by
            subst h
            exact .some ⟨rfl, hrr.cursor⟩
      · exact .ok .none

/-- **A token is bound in the same way in both lines.** -/
theorem bindToken_partAt (htext : Aligned env.text text) (s : BindState) (t : Token)
    (hc : c.PartAt A B c') :
    Agree ParseFail.Matches (Option.Rel (Bound.PartAt A B)) (env.bindToken s t c)
      ((env.inText text).bindToken s t c') := by
  unfold bindToken
  cases t.kind with
  | separator => exact .ok .none
  | named name assigned => exact (bindNamed_partAt htext s t name assigned hc).map fun _ _ h => .some h
  | value v =>
    have hbundle : flagBundle? (env.inText text).policy ((env.inText text).remaining s) t =
        flagBundle? env.policy (env.remaining s) t := rfl
    dsimp only
    rw [hbundle]
    split
    · exact (bindFlags_partAt htext t _ s hc).map fun _ _ h => .some h
    · have hremaining : (env.inText text).remaining s = env.remaining s := rfl
      unfold bindUnnamed
      rw [hremaining]
      rcases (offer_partAt htext s v hc (env.remaining s)).cases with
        ⟨f, g, hf, hg, hfg⟩ | ⟨x, y, hx, hy, hxy⟩
      · rw [hf, hg]
        exact .error hfg
      · rw [hx, hy]
        cases hxy with
        | some h => exact .ok (.some h)
        | none => exact extendRun_partAt htext s v hc

/-! ### A command -/

structure Binding.PartAt (A B : Tokens) (b b' : Binding) : Prop where
  state : b'.state = b.state
  bySeparator : b'.bySeparator = b.bySeparator
  cursor : b.cursor.PartAt A B b'.cursor

/-- From one place of two lines with the same tokens on, the same is bound. -/
theorem bindTokens_inText (htext : Aligned env.text text) (s : BindState) (c : TokenCursor) :
    Agree ParseFail.Matches Eq (env.bindTokens s c) ((env.inText text).bindTokens s c) := by
  -- the lines part nowhere
  have hstep : ∀ (s : BindState) (t : Token) (c : TokenCursor),
      Agree ParseFail.Matches Eq (env.bindToken s t c) ((env.inText text).bindToken s t c) := by
    intro s t c
    have hc : c.PartAt (.finished 0) (.finished 0) c := ⟨rfl, .refl _ _ _⟩
    rcases (bindToken_partAt htext s t hc).cases with ⟨f, g, hf, hg, hfg⟩ | ⟨x, y, hx, hy, hxy⟩
    · rw [hf, hg]
      exact .error hfg
    · rw [hx, hy]
      cases hxy with
      | none => exact .ok rfl
      | @some x y h =>
        obtain ⟨q, p, ts⟩ := x
        obtain ⟨q', p', ts'⟩ := y
        obtain ⟨rfl, rfl, hts⟩ := h
        obtain rfl := Tokens.PartAt.eq_of_finished hts
        exact .ok rfl
  fun_induction bindTokens env s c with
  | case1 s c stop hc =>
    rw [bindTokens_finished hc]
    exact .ok rfl
  | case2 s c start f hc =>
    rw [bindTokens_broken hc]
    exact .error (htext.matches_ofLiteral f)
  | case3 s c t rest hc ht =>
    rw [bindTokens_separator hc ht]
    exact .ok rfl
  | case4 s c t rest hc ht f hf =>
    obtain ⟨g, hg, hfg⟩ := (hstep s t _).of_error hf
    rw [bindTokens_error hc (by simpa using ht) hg]
    exact .error hfg
  | case5 s c t rest hc ht hb =>
    obtain ⟨y, hy, rfl⟩ := (hstep s t _).of_ok hb
    rw [bindTokens_none hc (by simpa using ht) hy]
    exact .ok rfl
  | case6 s c t rest hc ht s' c' hb ih =>
    obtain ⟨y, hy, rfl⟩ := (hstep s t _).of_ok hb
    rw [bindTokens_some hc (by simpa using ht) hy]
    exact ih

/-- A name is never left to the next command. -/
theorem bindToken_named_ne_none {name : String} {assigned : Option Literal}
    (ht : t.kind = .named name assigned) (s : BindState) (c : TokenCursor) :
    env.bindToken s t c ≠ .ok none := by
  unfold bindToken
  rw [ht]
  intro h
  obtain ⟨r, -, hr⟩ := exists_of_map_eq_ok h
  cases hr

/-- **A command that ends in front of the place where two lines part is bound in both.** -/
theorem bindTokens_partAt (htext : Aligned env.text text) {b : Binding} (s : BindState)
    (c : TokenCursor) : ∀ c' : TokenCursor, c.PartAt A B c' → env.bindTokens s c = .ok b →
      A.length ≤ b.cursor.remaining →
        ∃ b', (env.inText text).bindTokens s c' = .ok b' ∧ b.PartAt A B b' := by
  fun_induction bindTokens env s c with
  | case1 s c stop hc =>
    intro c' hpart h _
    cases h
    have hc' := hpart.tokens.of_end (by simp [hc])
    rw [hc] at hc'
    exact ⟨_, bindTokens_finished hc', rfl, rfl, hpart⟩
  | case2 => intro c' _ h; cases h
  | case3 s c t rest hc ht =>
    intro c' hpart h _
    cases h
    rcases (hc ▸ hpart.tokens).of_more with ⟨rest', hc', hrest⟩ | ⟨-, -, name, assigned, hk⟩
    · exact ⟨_, bindTokens_separator hc' ht, rfl, rfl, rfl, hrest⟩
    · rw [Token.isSeparator, hk] at ht
      cases ht
  | case4 => intro c' _ h; cases h
  | case5 s c t rest hc ht hb =>
    intro c' hpart h _
    cases h
    rcases (hc ▸ hpart.tokens).of_more with ⟨rest', hc', hrest⟩ | ⟨-, -, name, assigned, hk⟩
    · have hpast : (TokenCursor.past t rest).PartAt A B (.past t rest') := ⟨rfl, hrest⟩
      obtain ⟨y, hy, hxy⟩ := (bindToken_partAt htext s t hpast).of_ok hb
      cases hxy
      exact ⟨_, bindTokens_none hc' (by simpa using ht) hy, rfl, rfl, hpart⟩
    · exact absurd hb (bindToken_named_ne_none hk _ _)
  | case6 s c t rest hc ht s1 c1 hb ih =>
    intro c' hpart h hleft
    rcases (hc ▸ hpart.tokens).of_more with ⟨rest', hc', hrest⟩ | ⟨rfl, -⟩
    · have hpast : (TokenCursor.past t rest).PartAt A B (.past t rest') := ⟨rfl, hrest⟩
      obtain ⟨y, hy, hxy⟩ := (bindToken_partAt htext s t hpast).of_ok hb
      cases hxy with
      | @some _ y hxy =>
        obtain ⟨q, c1'⟩ := y
        obtain ⟨rfl, hc1⟩ : q = s1 ∧ c1.PartAt A B c1' := hxy
        rw [bindTokens_some hc' (by simpa using ht) hy, hc1.position]
        exact ih c1' hc1 h hleft
    · -- the command would go on behind that place
      exfalso
      have h1 := bindTokens_remaining_le h
      have h2 := bindToken_remaining_le hb
      simp only [TokenCursor.remaining, TokenCursor.past, Tokens.length_more] at h1 h2 hleft
      omega

theorem finish_inText (env : BindEnv) (text : String) (s : BindState) :
    Agree ParseFail.Matches Eq (env.finish s) ((env.inText text).finish s) := by
  have hmode : (env.inText text).mode = env.mode := rfl
  have hremaining : (env.inText text).remaining s = env.remaining s := rfl
  unfold finish
  rw [hmode, hremaining]
  cases env.mode with
  | partialLine => exact .ok rfl
  | complete =>
    dsimp only
    split
    · exact .error ⟨rfl, rfl⟩
    · exact .ok rfl

/-- What binding comes to is the same if it is the same up to the end of the command. -/
theorem bind_matches {text : String}
    (h : Agree ParseFail.Matches Eq (env.bindTokens (.start c.position) c)
      ((env.inText text).bindTokens (.start c'.position) c')) :
    Agree ParseFail.Matches Eq (env.bind c) ((env.inText text).bind c') := by
  unfold bind
  rcases h.cases with ⟨f, g, hf, hg, hfg⟩ | ⟨b, b', hb, hb', rfl⟩
  · rw [hf, hg]
    exact .error hfg
  · rw [hb, hb']
    exact (finish_inText env text b.state).map fun _ _ h => by rw [h]

theorem bind_partAt (htext : Aligned env.text text) {b : Binding} (hc : c.PartAt A B c')
    (h : env.bind c = .ok b) (hleft : A.length ≤ b.cursor.remaining) :
    ∃ b', (env.inText text).bind c' = .ok b' ∧ b.PartAt A B b' := by
  unfold bind at h
  split at h
  · cases h
  · rename_i q hq
    obtain ⟨s, hs, rfl⟩ := exists_of_map_eq_ok h
    obtain ⟨q', hq', hqq⟩ := bindTokens_partAt htext _ c c' hc hq hleft
    obtain ⟨s', hs', rfl⟩ := (finish_inText env text q.state).of_ok hs
    refine ⟨{ q' with state := s }, ?_, rfl, hqq.bySeparator, hqq.cursor⟩
    rw [bind, hc.position, hq']
    dsimp only
    rw [hqq.state, hs']
    rfl

end BindEnv

/-! ### A name and its value -/

/-- The argument takes one value, not a run, and the literal is one for it. -/
structure Argument.TakesOne (a : Argument) (v : Literal) : Prop where
  noSwitch : a.isSwitch = false
  one : a.multiplicity = .single ∨ a.multiplicity = .multiple ∧ (v.kind = .list ∨ v.kind = .map)

theorem Argument.TakesOne.not_startsRun {a : Argument} {v : Literal} (h : a.TakesOne v) :
    ¬a.StartsRun v := by
  intro hs
  rcases h.one with hm | ⟨hm, hk⟩
  · rcases hs with hm' | ⟨hm', -⟩ <;> rw [hm] at hm' <;> cases hm'
  · rcases hk with hk | hk <;> rw [hs.kind hm] at hk <;> cases hk

namespace BindEnv

variable {env : BindEnv} {s s' : BindState} {a : Argument} {v : Literal} {t u : Token}
  {us : Tokens} {c c' : TokenCursor} {name : String}

/-- In a complete line nothing is left open. -/
theorem bindToken_pending (hm : env.mode = .complete) (hs : s.pending = .none)
    (h : env.bindToken s t c = .ok (some (s', c'))) : s'.pending = .none := by
  have hmode : env.inMode .complete = env := by rw [inMode, ← hm]
  have hsettle : s.settle = s := by rw [BindState.settle, ← hs]
  have hmirror := bindToken_mirrors env (s := s) (by rw [hs]; rfl) t c
  rw [hmode, hsettle, h] at hmirror
  generalize (env.inMode .partialLine).bindToken s t c = x at hmirror
  cases hmirror with
  | @agrees _ y hsame =>
    obtain ⟨r, -, hr⟩ := Option.map_eq_some_iff.mp hsame.1.symm
    rw [← (Prod.mk.inj hr).1]
    rfl

/-- What the argument takes of `--name=value`. -/
theorem bindToken_assigned (ht : t.kind = .named name (some v)) (he : v.isEmpty = false)
    (hfind : env.findNamed? (env.remaining s) name = some a) (h : a.TakesOne v) :
    env.bindToken s t c =
      (env.convert a v).map fun w => some (s.push ⟨a.id, v, w, .named⟩, c) := by
  have htake : env.takeAssigned a v = (env.convert a v).map fun w => (v, w) := by
    unfold takeAssigned
    rcases h.one with hm | ⟨hm, hk⟩
    · rw [hm]
    · have hrun : startsListRun a v = false := by
        rcases hk with hk | hk <;> rw [startsListRun, hk] <;> rfl
      rw [hm]
      simp only [hrun, Bool.false_eq_true, if_false]
  rw [bindToken_assignment ht he hfind, htake]
  cases env.convert a v <;> rfl

/-- What it takes of `--name value`: the same, with the cursor behind the value. -/
theorem bindToken_following (ht : t.kind = .named name none) (hu : u.kind = .value v)
    (hfind : env.findNamed? (env.remaining s) name = some a) (h : a.TakesOne v)
    (hs : s.pending = .none) (p : Nat) : env.bindToken s t ⟨p, .more u us⟩ =
      (env.convert a v).map fun w => some (s.push ⟨a.id, v, w, .named⟩, .past u us) := by
  have hmul : a.multiplicity ≠ .vararg := by
    rcases h.one with hm | ⟨hm, -⟩ <;> rw [hm] <;> simp
  have hrecord : ∀ w, record s a .named ⟨v, w, .none, .past u us⟩ =
      s.push ⟨a.id, v, w, .named⟩ := by
    intro w
    rw [record, if_neg hmul, ← hs]
    rfl
  rw [bindToken, ht]
  dsimp only
  rw [bindNamed_of_findNamed? hfind]
  simp only [h.noSwitch, Bool.false_eq_true, if_false, bindFollowing, hu,
    takeValue_literal env s (.past u us) h.not_startsRun]
  cases env.convert a v with
  | error f => rfl
  | ok w =>
    show Except.ok (some (record s a .named ⟨v, w, .none, .past u us⟩, TokenCursor.past u us)) = _
    rw [hrecord]
    rfl

/-- **The value of a name is bound alike in both ways of writing it**, and so is what follows. -/
theorem bindTokens_assigned {text : String} (htext : Aligned env.text text) {t' : Token}
    (ht : t.kind = .named name none) (hu : u.kind = .value v)
    (ht' : t'.kind = .named name (some v)) (hstop : t'.span.stop = u.span.stop)
    (he : v.isEmpty = false) (hfind : env.findNamed? (env.remaining s) name = some a)
    (h : a.TakesOne v) (hs : s.pending = .none) (p : Nat) :
    Agree ParseFail.Matches Eq (env.bindTokens s ⟨p, .more t (.more u us)⟩)
      ((env.inText text).bindTokens s ⟨p, .more t' us⟩) := by
  have hsep : t.isSeparator = false := by rw [Token.isSeparator, ht]
  have hsep' : t'.isSeparator = false := by rw [Token.isSeparator, ht']
  have hbind : env.bindToken s t (.past t (.more u us)) =
      (env.convert a v).map fun w => some (s.push ⟨a.id, v, w, .named⟩, .past u us) :=
    bindToken_following ht hu hfind h hs t.span.stop
  have hbind' : (env.inText text).bindToken s t' (.past t' us) =
      ((env.inText text).convert a v).map fun w =>
        some (s.push ⟨a.id, v, w, .named⟩, .past t' us) :=
    bindToken_assigned ht' he hfind h
  rcases (convert_matches env text a v).cases with ⟨f, g, hf, hg, hfg⟩ | ⟨w, w', hw, hw', rfl⟩
  · rw [hf] at hbind
    rw [hg] at hbind'
    rw [bindTokens_error rfl hsep hbind, bindTokens_error rfl hsep' hbind']
    exact .error hfg
  · have hpast : TokenCursor.past t' us = .past u us := by
      rw [TokenCursor.past, TokenCursor.past, hstop]
    rw [hw] at hbind
    rw [hw'] at hbind'
    have hone : env.bindTokens s ⟨p, .more t (.more u us)⟩ = _ := bindTokens_some rfl hsep hbind
    have hother : (env.inText text).bindTokens s ⟨p, .more t' us⟩ = _ :=
      bindTokens_some rfl hsep' hbind'
    rw [hone, hother, hpast]
    exact bindTokens_inText htext _ _

end BindEnv
end CommandConsole
