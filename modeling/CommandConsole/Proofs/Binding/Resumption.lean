/-
# Binding a line that goes on

The tokens of a partial line are bound in a longer line as they are in the
partial one, up to what looks at its end: a name or a flag that waits for its
value, a switch, and an open run. These take what is put at the end, if it is
welcome there, or leave it to whoever comes next. A literal that cannot be read
fails the line.

Key definition: `BindEnv.Bound.Resumed`.
Key theorems: `BindEnv.bindToken_onto`, `BindEnv.bindTokens_onto`.
-/
import CommandConsole.Proofs.Binding.Appended

namespace CommandConsole

namespace BindState

/-- An open run belongs to a vararg, and something is bound then. -/
def RunsVararg (s : BindState) : Prop :=
  ∀ a, s.openRun = some a → a.multiplicity = .vararg ∧ s.bound ≠ []

/-- An argument is bound, or waits for its value. -/
def Begun (s : BindState) : Prop := s.bound ≠ [] ∨ s.pending.isValue = true

end BindState

theorem Token.ne_nil_of_shortFlags? {t : Token} {letters : List Char}
    (h : t.shortFlags? = some letters) : letters ≠ [] := by
  unfold shortFlags? at h
  split at h
  · split at h
    · cases h
    · cases h
      exact List.cons_ne_nil _ _
  · cases h

namespace BindEnv

/-- What a token leaves behind in the longer line, where it has left `r`. -/
inductive Bound.Resumed (e : Tokens) (r : Bound) : Bound → Prop
  | on (n p : Nat) (h : r.1.pending.PassesBy e) :
      Bound.Resumed e r (r.1.resumed n, ⟨p, r.2.tokens.onto e⟩)
  | done {q : Bound} (h : q.2.tokens.isFinished = true) : Bound.Resumed e r q

variable {env : BindEnv} {text : String} {s : BindState} {a : Argument} {t : Token}
  {c : TokenCursor} {v : Literal} {e : Tokens} {r : Bound}

/-! ### Unnamed values -/

theorem Bound.Resumed.of_taken {k k' : Taken} {origin : BindOrigin} (h : Taken.Resumed e k k')
    (n : Nat) : Bound.Resumed e (record s a origin k, k.cursor)
      (record (s.resumed n) a origin k', k'.cursor) := by
  cases h with
  | on p h => exact .on (r := (record s a origin k, k.cursor)) n p h
  | done h => exact .done h

/-- What a value comes to is the same in the longer line, and so is that nothing takes it. -/
theorem offer_onto (text : String) (he : e.Appended) (hm : env.mode = .partialLine) (n p : Nat) :
    ∀ {as : List Argument} {o : Option Bound}, (e.BeginsValue → ∀ a ∈ as, a.Steady) →
      env.offer s v c as = .ok o →
      (∀ r ∈ o, r.2.tokens.isFinished = true → r.1.pending.Welcomes e) →
        e.Yields text (Option.Rel (Bound.Resumed e) o)
          ((env.inText text).offer (s.resumed n) v ⟨p, c.tokens.onto e⟩ as)
  | [], o, _, h, _ => by
    cases h
    exact .ok .none
  | a :: as, o, hst, h, hw => by
    rw [offer] at h
    rw [offer]
    cases hk : env.takeValue s a v c with
    | ok k =>
      rw [hk] at h
      cases h
      have hk' := takeValue_onto text he hm hk (hw _ rfl) n p
      generalize (env.inText text).takeValue (s.resumed n) a v ⟨p, c.tokens.onto e⟩ = x at hk'
      cases hk' with
      | ok hk' => exact .ok (.some (.of_taken hk' n))
      | broken hb =>
        dsimp only
        rw [rejectsFirst_ofLiteral, Bool.and_false, if_neg (by simp)]
        exact .broken hb
    | error f =>
      rw [hk] at h
      dsimp only at h
      by_cases hr : a.isOptional && rejectsFirst a f
      · rw [if_pos hr] at h
        obtain ⟨ho, hr⟩ := Bool.and_eq_true_iff.mp hr
        obtain ⟨f', hf', hr' | ⟨start, g, hb, rfl⟩⟩ := takeValue_refused_onto text he
          (fun hv => hst hv a List.mem_cons_self) ho hk hr n p
        · rw [hf']
          dsimp only
          rw [ho, hr', Bool.and_self, if_pos rfl]
          exact offer_onto text he hm n p (fun hv b hb => hst hv b (List.mem_cons_of_mem _ hb)) h hw
        · rw [hf']
          dsimp only
          rw [rejectsFirst_ofLiteral, Bool.and_false, if_neg (by simp)]
          exact .broken hb
      · rw [if_neg hr] at h
        cases h

theorem extendRun_onto (he : e.Appended) (hm : env.mode = .partialLine) (hv : s.RunsVararg)
    {o : Option Bound} (h : env.extendRun s v c = .ok o)
    (hw : ∀ r ∈ o, r.2.tokens.isFinished = true → r.1.pending.Welcomes e) (n p : Nat) :
    e.Yields text (Option.Rel (Bound.Resumed e) o)
      ((env.inText text).extendRun (s.resumed n) v ⟨p, c.tokens.onto e⟩) := by
  unfold extendRun at h ⊢
  have hopen : (s.resumed n).openRun = s.openRun := rfl
  have hbound : (s.resumed n).bound = s.bound := rfl
  rw [hopen, hbound]
  cases ha : s.openRun with
  | none =>
    rw [ha] at h
    cases h
    exact .ok .none
  | some a =>
    rw [ha] at h
    dsimp only at h ⊢
    cases hb : s.bound.find? fun b => b.id == a.id with
    | none =>
      rw [hb] at h
      cases h
      exact .ok .none
    | some b =>
      rw [hb] at h
      dsimp only at h ⊢
      by_cases ht : a.type.takes v = true
      · rw [if_pos ht] at h ⊢
        cases hr : env.runFrom s v c with
        | error f => rw [hr] at h; cases h
        | ok r =>
          rw [hr] at h
          obtain ⟨ws, hws, rfl⟩ := exists_of_map_eq_ok h
          have hr' := runFrom_onto text he hr n p
          generalize (env.inText text).runFrom (s.resumed n) v ⟨p, c.tokens.onto e⟩ = x at hr'
          cases hr' with
          | broken hb => exact .broken hb
          | ok hq =>
            cases hq with
            | on p' hpass =>
              dsimp only
              rw [convertEach_inText hws, pendingAfter_on]
              exact .ok (.some (.on (r := (_, _)) n p' (pendingAfter_passesBy hpass a (runLength b))))
            | longer hend hf hnext hk =>
              rw [pendingAfter_end hm hend] at hw
              obtain ⟨type, hn, htakes⟩ := hw _ rfl hf _ _ _ hnext hk
              rw [runType?, (hv a ha).1] at hn
              cases hn
              obtain ⟨ws', hws'⟩ := convertEach_append text hws htakes
              dsimp only
              rw [hws']
              exact .ok (.some (.done rfl))
      · rw [if_neg ht] at h ⊢
        cases h
        exact .ok .none

theorem bindUnnamed_onto (he : e.Appended) (hm : env.mode = .partialLine)
    (hst : e.BeginsValue → env.Offers Argument.Steady) (hv : s.RunsVararg) {o : Option Bound}
    (h : env.bindUnnamed s v c = .ok o)
    (hw : ∀ r ∈ o, r.2.tokens.isFinished = true → r.1.pending.Welcomes e) (n p : Nat) :
    e.Yields text (Option.Rel (Bound.Resumed e) o)
      ((env.inText text).bindUnnamed (s.resumed n) v ⟨p, c.tokens.onto e⟩) := by
  have hst' : e.BeginsValue → ∀ a ∈ env.remaining s, a.Steady := fun hb => hst hb s
  have hrem : (env.inText text).remaining (s.resumed n) = env.remaining s := rfl
  unfold bindUnnamed at h ⊢
  rw [hrem]
  cases ho : env.offer s v c (env.remaining s) with
  | error f => rw [ho] at h; cases h
  | ok q =>
    rw [ho] at h
    cases q with
    | some r =>
      cases h
      have hr := offer_onto text he hm n p hst' ho hw
      generalize (env.inText text).offer (s.resumed n) v ⟨p, c.tokens.onto e⟩
        (env.remaining s) = x at hr
      cases hr with
      | ok hr =>
        cases hr with
        | some hr => exact .ok (.some hr)
      | broken hb => exact .broken hb
    | none =>
      have hr := offer_onto text he hm n p hst' ho (by simp)
      generalize (env.inText text).offer (s.resumed n) v ⟨p, c.tokens.onto e⟩
        (env.remaining s) = x at hr
      cases hr with
      | ok hr =>
        cases hr with
        | none => exact extendRun_onto he hm hv h hw n p
      | broken hb => exact .broken hb

/-! ### Names and flags -/

/-- A switch takes a truth value that is put behind it. -/
theorem bindSwitch_onto (he : e.Appended) (hp : s.pending.PassesBy e) (a : Argument) (t : Token)
    (c : TokenCursor) (n p : Nat) :
    Bound.Resumed e (bindSwitch s a t c)
      (bindSwitch (s.resumed n) a t ⟨p, c.tokens.onto e⟩) := by
  have habsent : Bound.Resumed e (s.push ⟨a.id, .empty t.span, .bool true, .named⟩, c)
      ((s.resumed n).push ⟨a.id, .empty t.span, .bool true, .named⟩, ⟨p, c.tokens.onto e⟩) :=
    .on (r := (s.push ⟨a.id, .empty t.span, .bool true, .named⟩, c)) n p hp
  unfold bindSwitch
  cases hc : c.tokens with
  | finished stop =>
    rw [hc] at habsent
    dsimp only
    rw [Tokens.onto] at habsent ⊢
    cases he with
    | broken => exact habsent
    | token ht =>
      dsimp only
      split
      · exact habsent
      · split
        · exact habsent
        · exact .done rfl
  | broken start f =>
    rw [hc] at habsent
    exact habsent
  | more next rest =>
    rw [hc] at habsent
    dsimp only
    rw [Tokens.onto] at habsent ⊢
    dsimp only
    split
    · exact habsent
    · split
      · exact habsent
      · exact .on (r := (_, _)) n _ hp

/-- A name or a flag takes the value behind it, also one that is put there. -/
theorem bindFollowing_onto (text : String) (he : e.Appended) (hm : env.mode = .partialLine) {origin : BindOrigin}
    (h : env.bindFollowing s a t origin c = .ok r)
    (hw : r.2.tokens.isFinished = true → r.1.pending.Welcomes e) (n p : Nat) :
    e.Yields text (Bound.Resumed e r)
      ((env.inText text).bindFollowing (s.resumed n) a t origin ⟨p, c.tokens.onto e⟩) := by
  unfold bindFollowing at h ⊢
  cases hc : c.tokens with
  | broken start f => rw [hc] at h; cases h
  | finished stop =>
    rw [hc] at h
    dsimp only at h ⊢
    rw [if_pos hm] at h
    cases h
    rw [Tokens.onto]
    cases he with
    | broken => exact .broken rfl
    | @token next stop' _ =>
      have hwelcome := hw (by rw [hc]; rfl) next stop' rfl
      obtain ⟨v, hk, ht⟩ := hwelcome
      obtain ⟨k, hk', hf⟩ := takeValue_alone (env.inText text) (s.resumed n)
        (c := .past next (.finished stop')) ht rfl
      dsimp only
      rw [hk]
      dsimp only
      rw [hk']
      exact .ok (.done hf)
  | more next rest =>
    rw [hc] at h
    dsimp only at h ⊢
    rw [Tokens.onto]
    dsimp only
    cases hk : next.kind with
    | separator => rw [hk] at h; cases h
    | named name assigned => rw [hk] at h; cases h
    | value v =>
      rw [hk] at h
      obtain ⟨k, htake, rfl⟩ := exists_of_map_eq_ok h
      have htake' := takeValue_onto text he hm htake hw n next.span.stop
      exact htake'.map fun k' hk' => .of_taken hk' n

theorem takeAssigned_inText {q : Literal × Value} (h : env.takeAssigned a v = .ok q) :
    (env.inText text).takeAssigned a v = .ok q := by
  unfold takeAssigned at h ⊢
  cases hm : a.multiplicity with
  | single =>
    rw [hm] at h
    obtain ⟨w, hw, rfl⟩ := exists_of_map_eq_ok h
    dsimp only
    rw [convert_inText hw]
    rfl
  | multiple =>
    rw [hm] at h
    obtain ⟨w, hw, rfl⟩ := exists_of_map_eq_ok h
    dsimp only
    rw [convert_inText hw]
    rfl
  | vararg =>
    rw [hm] at h
    obtain ⟨ws, hws, rfl⟩ := exists_of_map_eq_ok h
    dsimp only
    rw [convertEach_inText hws]
    rfl

theorem bindNamed_onto (he : e.Appended) (hm : env.mode = .partialLine)
    (hp : s.pending.PassesBy e) {name : String} {assigned : Option Literal}
    (h : env.bindNamed s t name assigned c = .ok r)
    (hw : r.2.tokens.isFinished = true → r.1.pending.Welcomes e) (n p : Nat) :
    e.Yields text (Bound.Resumed e r)
      ((env.inText text).bindNamed (s.resumed n) t name assigned ⟨p, c.tokens.onto e⟩) := by
  have hfind : (env.inText text).findNamed? ((env.inText text).remaining (s.resumed n)) name =
      env.findNamed? (env.remaining s) name := rfl
  unfold bindNamed at h ⊢
  rw [hfind]
  cases ha : env.findNamed? (env.remaining s) name with
  | none => rw [ha] at h; cases h
  | some a =>
    rw [ha] at h
    dsimp only at h ⊢
    split at h
    · cases h
    · obtain ⟨q, hq, rfl⟩ := exists_of_map_eq_ok h
      rw [takeAssigned_inText hq]
      exact .ok (.on (r := (_, _)) n p hp)
    · split at h
      · rename_i hs
        cases h
        rw [if_pos hs]
        exact .ok (bindSwitch_onto he hp a t c n p)
      · rename_i hs
        rw [if_neg hs]
        exact bindFollowing_onto text he hm h hw n p

/-- All flags of a bundle but the last are switches, so that only the last looks at the end. -/
theorem bindFlags_onto (he : e.Appended) (hm : env.mode = .partialLine) :
    ∀ {s : BindState} {as : List Argument} {c : TokenCursor}, s.pending.PassesBy e →
      as.dropLast.all Argument.isSwitch = true → env.bindFlags t s as c = .ok r →
      (r.2.tokens.isFinished = true → r.1.pending.Welcomes e) → ∀ n p : Nat,
        e.Yields text (Bound.Resumed e r)
          ((env.inText text).bindFlags t (s.resumed n) as ⟨p, c.tokens.onto e⟩)
  | s, [], c, hp, _, h, _, n, p => by
    cases h
    exact .ok (.on (r := (s, c)) n p hp)
  | s, a :: as, c, hp, hsw, h, hw, n, p => by
    rw [bindFlags] at h
    rw [bindFlags]
    by_cases ha : a.isSwitch = true
    · rw [if_pos ha] at h ⊢
      have hsw' : as.dropLast.all Argument.isSwitch = true := by
        cases as with
        | nil => rfl
        | cons b bs => simpa [ha] using hsw
      exact bindFlags_onto (s := s.push _) he hm hp hsw' h hw n p
    · rw [if_neg ha] at h ⊢
      have hlast : as = [] := by
        cases as with
        | nil => rfl
        | cons b bs => simp [ha] at hsw
      subst hlast
      cases hf : env.bindFollowing s a t .flag c with
      | error f => rw [hf] at h; cases h
      | ok q =>
        rw [hf] at h
        cases h
        have hq := bindFollowing_onto text he hm hf hw n p
        generalize (env.inText text).bindFollowing (s.resumed n) a t .flag ⟨p, c.tokens.onto e⟩ = x
          at hq
        cases hq with
        | broken hb => exact .broken hb
        | ok hq => exact .ok hq

/-! ### A token -/

theorem dropLast_flagBundle? {policy : ShortFlagPolicy} {args bundle : List Argument}
    (h : flagBundle? policy args t = some bundle) :
    bundle.dropLast.all Argument.isSwitch = true := by
  unfold flagBundle? at h
  split at h
  · cases h
  · have hallowed := (Option.filter_eq_some_iff.mp h).2
    unfold bundleAllowed at hallowed
    split at hallowed
    · cases hallowed
    · exact (Bool.and_eq_true_iff.mp hallowed).1

/-- **A token is bound in the longer line as it is in the partial one**, up to what looks at the
end of the line. -/
theorem bindToken_onto (text : String) (he : e.Appended) (hm : env.mode = .partialLine)
    (hst : e.BeginsValue → env.Offers Argument.Steady) (hv : s.RunsVararg)
    (hp : s.pending.PassesBy e) {o : Option Bound} (h : env.bindToken s t c = .ok o)
    (hw : ∀ r ∈ o, r.2.tokens.isFinished = true → r.1.pending.Welcomes e) (n p : Nat) :
    e.Yields text (Option.Rel (Bound.Resumed e) o)
      ((env.inText text).bindToken (s.resumed n) t ⟨p, c.tokens.onto e⟩) := by
  have hsome : ∀ {r : Bound} {x : Except ParseFail Bound}, e.Yields text (Bound.Resumed e r) x →
      e.Yields text (Option.Rel (Bound.Resumed e) (some r)) (x.map some) :=
    fun hx => hx.map fun q hq => .some hq
  have hbundle : flagBundle? (env.inText text).policy ((env.inText text).remaining (s.resumed n)) t =
      flagBundle? env.policy (env.remaining s) t := rfl
  unfold bindToken at h ⊢
  rw [hbundle]
  cases hk : t.kind with
  | separator =>
    rw [hk] at h
    cases h
    exact .ok .none
  | named name assigned =>
    rw [hk] at h
    obtain ⟨r, hr, rfl⟩ := exists_of_map_eq_ok h
    exact hsome (bindNamed_onto he hm hp hr (hw r rfl) n p)
  | value v =>
    rw [hk] at h
    dsimp only at h ⊢
    cases hb : flagBundle? env.policy (env.remaining s) t with
    | some bundle =>
      rw [hb] at h
      obtain ⟨r, hr, rfl⟩ := exists_of_map_eq_ok h
      exact hsome (bindFlags_onto he hm hp (dropLast_flagBundle? hb) hr (hw r rfl) n p)
    | none =>
      rw [hb] at h
      exact bindUnnamed_onto he hm hst hv h hw n p

/-! ### A command -/

theorem Effect.begun {P : Argument → Prop} {ts : List Token} {s' : BindState}
    (h : env.Effect P t s ts s') (hv : s.RunsVararg) : s'.RunsVararg ∧ s'.Begun := by
  have hpush : ∀ b : BoundArgument, s.bound ++ [b] ≠ [] := fun b => by simp
  cases h with
  | assigned => exact ⟨fun a' ha' => ⟨(hv a' ha').1, hpush _⟩, .inl (hpush _)⟩
  | switch => exact ⟨fun a' ha' => ⟨(hv a' ha').1, hpush _⟩, .inl (hpush _)⟩
  | answer => exact ⟨fun a' ha' => ⟨(hv a' ha').1, hpush _⟩, .inl (hpush _)⟩
  | hanging => exact ⟨hv, .inr rfl⟩
  | extended hr =>
    have hmap : ∀ g : BoundArgument → BoundArgument, s.bound.map g ≠ [] :=
      fun g => by simpa using (hv _ hr).2
    exact ⟨fun a' ha' => ⟨(hv a' ha').1, hmap _⟩, .inl (hmap _)⟩
  | @taken a origin k ts =>
    refine ⟨fun a' ha' => ⟨?_, hpush _⟩, .inl (hpush _)⟩
    simp only [record, BindState.push] at ha'
    split at ha'
    · rename_i hm
      cases ha'
      exact hm
    · split at ha'
      · cases ha'
      · exact (hv a' ha').1

theorem FlagEffects.begun {P : Argument → Prop} {as : List Argument} {ts : List Token}
    {s s' : BindState} (h : env.FlagEffects P t s as ts s') (hv : s.RunsVararg) :
    s'.RunsVararg ∧ (as ≠ [] ∨ s.Begun → s'.Begun) := by
  induction h with
  | nil => exact ⟨hv, fun h => h.resolve_left (by simp)⟩
  | cons he _ _ ih =>
    obtain ⟨hv', hb⟩ := he.begun hv
    obtain ⟨hv'', hbegun⟩ := ih hv'
    exact ⟨hv'', fun _ => hbegun (.inr hb)⟩

/-- Behind a token that belongs to the command an argument is bound, or waits for its value. -/
theorem bindToken_begun (h : env.bindToken s t c = .ok (some r)) (hv : s.RunsVararg) :
    r.1.RunsVararg ∧ r.1.Begun := by
  obtain ⟨used, -, htoken⟩ := bindToken_effect (P := fun _ => True) (fun _ _ _ => trivial) h
  cases htoken with
  | named _ he => exact he.begun hv
  | unnamed _ he => exact he.begun hv
  | flags hl _ hb he =>
    obtain ⟨hv', hbegun⟩ := he.begun hv
    refine ⟨hv', hbegun (.inl ?_)⟩
    rintro rfl
    exact Token.ne_nil_of_shortFlags? hl (List.map_eq_nil_iff.mp hb.symm)

/-- So it is behind a command with tokens of its own. -/
theorem bindTokens_begun {b : Binding} (s : BindState) (c : TokenCursor) : s.RunsVararg →
    env.bindTokens s c = .ok b → b.cursor.tokens.isFinished = true → b.bySeparator = false →
      c.tokens.isFinished = false ∨ s.Begun → b.state.Begun := by
  fun_induction env.bindTokens s c with
  | case1 s c stop hc =>
    intro hv h _ _ hne
    cases h
    exact hne.resolve_left (by rw [hc]; simp [Tokens.isFinished])
  | case2 s c start f hc =>
    intro hv h
    cases h
  | case3 s c t rest hc ht =>
    intro hv h _ hsep
    cases h
    cases hsep
  | case4 s c t rest hc ht f hf =>
    intro hv h
    cases h
  | case5 s c t rest hc ht hn =>
    intro hv h hf
    cases h
    rw [hc] at hf
    cases hf
  | case6 s c t rest hc ht s' c' hb ih =>
    intro hv h hf hsep _
    obtain ⟨hv', hbegun⟩ := bindToken_begun hb hv
    exact ih hv' h hf hsep (.inr hbegun)

/-- What a command leaves behind in the longer line: it ended before the end of the line, or by
a separator there, and ends in the same place. -/
def Binding.Closed (e : Tokens) (b b' : Binding) : Prop :=
  (b.bySeparator = true ∨ b.cursor.tokens.isFinished = false) ∧
    b'.bySeparator = b.bySeparator ∧ b'.cursor.tokens = b.cursor.tokens.onto e

/-- **The tokens of a command are bound in the longer line as they are in the partial one.** A
command that is open at the end of the partial line goes on in the longer one from the state it
has there, unless what is open there has taken the new token already. -/
theorem bindTokens_onto (he : e.Appended) (hm : env.mode = .partialLine)
    (hst : e.BeginsValue → env.Offers Argument.Steady) {Q : Binding → Prop} {b : Binding}
    (hQ : ∀ b', b'.cursor.tokens.isFinished = true → Q b')
    (hw : b.cursor.tokens.isFinished = true → b.bySeparator = false → b.state.pending.Welcomes e)
    (hgo : b.cursor.tokens.isFinished = true → b.bySeparator = false →
      b.state.pending.PassesBy e → ∀ n p,
        e.Yields text Q ((env.inText text).bindTokens (b.state.resumed n) ⟨p, e⟩))
    (s : BindState) (c : TokenCursor) : s.RunsVararg → s.pending.PassesBy e →
      env.bindTokens s c = .ok b → ∀ n p, e.Yields text (fun b' => b.Closed e b' ∨ Q b')
        ((env.inText text).bindTokens (s.resumed n) ⟨p, c.tokens.onto e⟩) := by
  have honto : ∀ {c : TokenCursor} {t : Token} {rest : Tokens}, c.tokens = .more t rest →
      ∀ p, (⟨p, c.tokens.onto e⟩ : TokenCursor).tokens = .more t (rest.onto e) := by
    intro c t rest hc p
    rw [hc]
    rfl
  fun_induction env.bindTokens s c with
  | case1 s c stop hc =>
    intro hv hp h n p
    cases h
    rw [hc, Tokens.onto]
    have hfin : c.tokens.isFinished = true := by rw [hc]; rfl
    exact (hgo hfin rfl hp n p).mono fun b' hb' => .inr hb'
  | case2 s c start f hc =>
    intro hv hp h
    cases h
  | case3 s c t rest hc ht =>
    intro hv hp h n p
    cases h
    rw [bindTokens_separator (honto hc p) ht]
    exact .ok (.inl ⟨.inl rfl, rfl, rfl⟩)
  | case4 s c t rest hc ht f hf =>
    intro hv hp h
    cases h
  | case5 s c t rest hc ht hn =>
    intro hv hp h n p
    cases h
    have htoken := bindToken_onto text he hm hst hv hp hn (by simp) n t.span.stop
    generalize hx : (env.inText text).bindToken (s.resumed n) t
      ⟨t.span.stop, (TokenCursor.past t rest).tokens.onto e⟩ = x at htoken
    cases htoken with
    | broken hb =>
      rw [bindTokens_error (honto hc p) (by simpa using ht) hx]
      exact .broken hb
    | ok ho =>
      cases ho
      rw [bindTokens_none (honto hc p) (by simpa using ht) hx]
      exact .ok (.inl ⟨.inr (by rw [hc]; rfl), rfl, rfl⟩)
  | case6 s c t rest hc ht s' c' hb ih =>
    intro hv hp h n p
    have hwelcome : ∀ r ∈ some (s', c'), r.2.tokens.isFinished = true →
        r.1.pending.Welcomes e := by
      intro r hr hf
      cases hr
      obtain ⟨stop, hc'⟩ := Tokens.exists_of_isFinished hf
      rw [bindTokens_finished hc'] at h
      cases h
      exact hw hf rfl
    have htoken := bindToken_onto text he hm hst hv hp hb hwelcome n t.span.stop
    generalize hx : (env.inText text).bindToken (s.resumed n) t
      ⟨t.span.stop, (TokenCursor.past t rest).tokens.onto e⟩ = x at htoken
    cases htoken with
    | broken hb =>
      rw [bindTokens_error (honto hc p) (by simpa using ht) hx]
      exact .broken hb
    | ok ho =>
      cases ho with
      | some hr =>
        rw [bindTokens_some (honto hc p) (by simpa using ht) hx]
        cases hr with
        | on n' p' hpass => exact ih (bindToken_begun hb hv).1 hpass h p' p'
        | @done q hf =>
          obtain ⟨stop, hq⟩ := Tokens.exists_of_isFinished hf
          rw [bindTokens_finished hq]
          exact .ok (.inr (hQ _ hf))

end BindEnv
end CommandConsole
