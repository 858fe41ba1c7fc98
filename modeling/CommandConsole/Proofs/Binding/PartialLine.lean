/-
# Binding a partial line

The binder runs in two modes: over a whole line, and over the text before a
completion cursor. Both runs go through the same states but for what is open at
the end. They part only where a partial line ends behind a name or a flag whose
value has not been typed; there the whole line fails.

Key definitions: `Pending.isValue`, `ParseFail.LacksValue`, `ParseFail.LacksArgument`,
`ParseFail.LacksRequirement`, `BindEnv.Mirrors`.
Key theorem: `BindEnv.bind_mirrors`.
-/
import CommandConsole.Proofs.Binding.Ledger

namespace CommandConsole

/-- A name or a flag waits for its value. -/
def Pending.isValue : Pending → Bool
  | .value _ => true
  | _ => false

namespace ParseFail

/-- A name or a flag has no value. -/
def LacksValue (f : ParseFail) : Prop := ∃ command id, f.kind = .noInputForArgument command id

/-- A required argument is not bound. -/
def LacksArgument (f : ParseFail) : Prop :=
  ∃ command id, f.kind = .missingRequiredArgument command id

/-- A bound command may not be used. -/
def LacksRequirement (f : ParseFail) : Prop :=
  ∃ command requirement, f.kind = .requirementNotSatisfied command requirement

end ParseFail

/-- The state with nothing open. -/
def BindState.settle (s : BindState) : BindState := { s with pending := .none }

def Taken.settle (k : Taken) : Taken := { k with pending := .none }

namespace BindEnv

def inMode (env : BindEnv) (mode : BindMode) : BindEnv := { env with mode := mode }

/-- What a token leaves behind, with nothing open. -/
def settled (r : Bound) : Bound := (r.1.settle, r.2)

/-- The answer to a whole line, beside the answer to the same partial line: they fail alike,
or agree, or the whole line alone fails, in one of the ways that `stops` allows. -/
inductive Mirrors {α : Type} (agree : α → α → Prop) (stops : ParseFail → α → Prop) :
    Except ParseFail α → Except ParseFail α → Prop
  | fails {f : ParseFail} : Mirrors agree stops (.error f) (.error f)
  | agrees {x y : α} (h : agree x y) : Mirrors agree stops (.ok x) (.ok y)
  | stops {f : ParseFail} {y : α} (h : stops f y) : Mirrors agree stops (.error f) (.ok y)

theorem Mirrors.map {α β : Type} {agree : α → α → Prop} {stops : ParseFail → α → Prop}
    {agree' : β → β → Prop} {stops' : ParseFail → β → Prop} {g : α → β}
    {x y : Except ParseFail α} (h : Mirrors agree stops x y)
    (ha : ∀ a b, agree a b → agree' (g a) (g b)) (hs : ∀ f b, stops f b → stops' f (g b)) :
    Mirrors agree' stops' (x.map g) (y.map g) := by
  cases h with
  | fails => exact .fails
  | agrees h => exact .agrees (ha _ _ h)
  | stops h => exact .stops (hs _ _ h)

/-- Both lines have left the same behind, and nothing waits for a value. -/
def SameBound (x y : Bound) : Prop := x = settled y ∧ y.1.pending.isValue = false

/-- The partial line ends where a value is missing. -/
def Hangs (y : Bound) : Prop := y.1.pending.isValue = true ∧ y.2.tokens.isFinished = true

def StopsBound (f : ParseFail) (y : Bound) : Prop := f.LacksValue ∧ Hangs y

variable {env : BindEnv} {s : BindState} {a : Argument} {t : Token} {c : TokenCursor} {v : Literal}

/-! ### Values -/

theorem pendingAfter_complete (env : BindEnv) (a : Argument) (offset : Nat) (r : Run) :
    (env.inMode .complete).pendingAfter a offset r = .none :=
  if_neg fun h => by cases h.1

theorem isValue_pendingAfter (env : BindEnv) (a : Argument) (offset : Nat) (r : Run) :
    (env.pendingAfter a offset r).isValue = false := by
  unfold pendingAfter
  split <;> rfl

theorem convertEach_inMode (env : BindEnv) (mode : BindMode) (a : Argument) :
    ∀ (i : Nat) (items : List Literal),
      (env.inMode mode).convertEach a i items = env.convertEach a i items
  | _, [] => rfl
  | i, item :: items => by
    unfold convertEach
    rw [convertEach_inMode env mode a (i + 1) items]
    rfl

/-- An argument takes the same in both lines. -/
theorem takeValue_complete (env : BindEnv) (s : BindState) (a : Argument) (v : Literal)
    (c : TokenCursor) : (env.inMode .complete).takeValue s.settle a v c =
      ((env.inMode .partialLine).takeValue s a v c).map Taken.settle := by
  have hrun : ∀ mode, (env.inMode mode).runFrom s v c = env.runFrom s v c := fun _ => rfl
  have hsettle : (env.inMode .complete).runFrom s.settle v c = env.runFrom s v c := rfl
  have hconvert : ∀ mode i, (env.inMode mode).convert a i = env.convert a i := fun _ _ => rfl
  unfold takeValue
  simp only [hsettle, hrun, hconvert, convertEach_inMode, pendingAfter_complete]
  cases a.multiplicity with
  | single => cases env.convert a v <;> rfl
  | multiple =>
    dsimp only
    split
    · cases env.runFrom s v c with
      | error f => rfl
      | ok r => dsimp only; cases env.convert a (listOfRun r.items) <;> rfl
    · cases env.convert a v <;> rfl
  | vararg =>
    cases env.runFrom s v c with
    | error f => rfl
    | ok r => dsimp only; cases env.convertEach a 0 r.items <;> rfl

theorem takeValue_pending {k : Taken} (h : env.takeValue s a v c = .ok k) :
    k.pending.isValue = false := by
  have hone : ∀ {x : Except ParseFail Value}, (x.map fun w => (⟨v, w, .none, c⟩ : Taken)) = .ok k →
      k.pending.isValue = false := by
    intro x hx
    obtain ⟨w, -, rfl⟩ := exists_of_map_eq_ok hx
    rfl
  unfold takeValue at h
  split at h
  · exact hone h
  · split at h
    · split at h
      · cases h
      · obtain ⟨w, -, rfl⟩ := exists_of_map_eq_ok h
        exact isValue_pendingAfter ..
    · exact hone h
  · split at h
    · cases h
    · obtain ⟨w, -, rfl⟩ := exists_of_map_eq_ok h
      exact isValue_pendingAfter ..

theorem offer_complete (env : BindEnv) (s : BindState) (v : Literal) (c : TokenCursor) :
    ∀ as, (env.inMode .complete).offer s.settle v c as =
      ((env.inMode .partialLine).offer s v c as).map (Option.map settled)
  | [] => rfl
  | a :: as => by
    unfold offer
    rw [takeValue_complete]
    cases (env.inMode .partialLine).takeValue s a v c with
    | ok k => rfl
    | error f =>
      dsimp only [Except.map]
      split
      · exact offer_complete env s v c as
      · rfl

theorem offer_pending {r : Bound} : ∀ {as : List Argument},
    env.offer s v c as = .ok (some r) → r.1.pending.isValue = false
  | [], h => by cases h
  | a :: as, h => by
    unfold offer at h
    split at h
    · rename_i k hk
      cases h
      exact takeValue_pending hk
    · split at h
      · exact offer_pending h
      · cases h

theorem extendRun_complete (env : BindEnv) (s : BindState) (v : Literal) (c : TokenCursor) :
    (env.inMode .complete).extendRun s.settle v c =
      ((env.inMode .partialLine).extendRun s v c).map (Option.map settled) := by
  have hrun : ∀ mode, (env.inMode mode).runFrom s v c = env.runFrom s v c := fun _ => rfl
  have hsettle : (env.inMode .complete).runFrom s.settle v c = env.runFrom s v c := rfl
  unfold extendRun
  simp only [hsettle, hrun, convertEach_inMode, pendingAfter_complete]
  cases ho : s.openRun with
  | none => simp only [BindState.settle, ho]; rfl
  | some a =>
    simp only [BindState.settle, ho]
    cases s.bound.find? fun b => b.id == a.id with
    | none => rfl
    | some b =>
      dsimp only
      split
      · cases env.runFrom s v c with
        | error f => rfl
        | ok r => dsimp only; cases env.convertEach a (runLength b) r.items <;> rfl
      · rfl

theorem extendRun_pending {r : Bound} (h : env.extendRun s v c = .ok (some r)) :
    r.1.pending.isValue = false := by
  unfold extendRun at h
  split at h
  · cases h
  · split at h
    · cases h
    · split at h
      · split at h
        · cases h
        · obtain ⟨w, -, he⟩ := exists_of_map_eq_ok h
          cases he
          exact isValue_pendingAfter ..
      · cases h

theorem bindUnnamed_complete (env : BindEnv) (s : BindState) (v : Literal) (c : TokenCursor) :
    (env.inMode .complete).bindUnnamed s.settle v c =
      ((env.inMode .partialLine).bindUnnamed s v c).map (Option.map settled) := by
  have hrem : ∀ mode, (env.inMode mode).remaining s = env.remaining s := fun _ => rfl
  have hsettle : (env.inMode .complete).remaining s.settle = env.remaining s := rfl
  unfold bindUnnamed
  simp only [hrem, hsettle, offer_complete, extendRun_complete]
  cases (env.inMode .partialLine).offer s v c (env.remaining s) with
  | error f => rfl
  | ok r => cases r <;> rfl

theorem bindUnnamed_pending {r : Bound} (h : env.bindUnnamed s v c = .ok (some r)) :
    r.1.pending.isValue = false := by
  unfold bindUnnamed at h
  split at h
  · cases h
  · rename_i q hq
    cases h
    exact offer_pending hq
  · exact extendRun_pending h

/-! ### Names and flags -/

theorem bindSwitch_settle (s : BindState) (a : Argument) (t : Token) (c : TokenCursor) :
    bindSwitch s.settle a t c = settled (bindSwitch s a t c) := by
  unfold bindSwitch
  dsimp only
  split
  · split
    · rfl
    · split <;> rfl
  · rfl

theorem bindSwitch_pending (s : BindState) (a : Argument) (t : Token) (c : TokenCursor) :
    (bindSwitch s a t c).1.pending = s.pending := by
  unfold bindSwitch
  dsimp only
  split
  · split
    · rfl
    · split <;> rfl
  · rfl

theorem bindFollowing_mirrors (env : BindEnv) (s : BindState) (a : Argument) (t : Token)
    (origin : BindOrigin) (c : TokenCursor) : Mirrors SameBound StopsBound
      ((env.inMode .complete).bindFollowing s.settle a t origin c)
      ((env.inMode .partialLine).bindFollowing s a t origin c) := by
  unfold bindFollowing
  cases hc : c.tokens with
  | broken start failure => exact .fails
  | finished stop =>
    refine .stops ⟨⟨env.commandName, a.id, rfl⟩, rfl, ?_⟩
    rw [hc]
    rfl
  | more next rest =>
    dsimp only
    cases next.kind with
    | separator => exact .fails
    | named name assigned => exact .fails
    | value v =>
      dsimp only
      rw [takeValue_complete]
      cases hk : (env.inMode .partialLine).takeValue s a v (.past next rest) with
      | error f => exact .fails
      | ok k => exact .agrees ⟨rfl, takeValue_pending hk⟩

theorem bindNamed_mirrors (env : BindEnv) {s : BindState} (hs : s.pending.isValue = false)
    (t : Token) (name : String) (assigned : Option Literal) (c : TokenCursor) :
    Mirrors SameBound StopsBound
      ((env.inMode .complete).bindNamed s.settle t name assigned c)
      ((env.inMode .partialLine).bindNamed s t name assigned c) := by
  have hfind : ∀ mode, (env.inMode mode).findNamed? ((env.inMode mode).remaining s) name =
      env.findNamed? (env.remaining s) name := fun _ => rfl
  have hsettle : (env.inMode .complete).findNamed? ((env.inMode .complete).remaining s.settle) name =
      env.findNamed? (env.remaining s) name := rfl
  have htake : ∀ mode a v, (env.inMode mode).takeAssigned a v = env.takeAssigned a v := by
    intro mode a v
    unfold takeAssigned
    simp only [convertEach_inMode]
    rfl
  unfold bindNamed
  simp only [hfind, hsettle, htake]
  cases env.findNamed? (env.remaining s) name with
  | none => exact .fails
  | some a =>
    dsimp only
    split
    · exact .fails
    · rename_i v _
      cases env.takeAssigned a v with
      | error f => exact .fails
      | ok r => exact .agrees ⟨rfl, hs⟩
    · split
      · refine .agrees ⟨bindSwitch_settle s a t c, ?_⟩
        rw [bindSwitch_pending]
        exact hs
      · exact bindFollowing_mirrors env s a t .named c

/-- Behind the end of a partial line the flags of a bundle change nothing of what is open. -/
theorem bindFlags_hangs (hm : env.mode = .partialLine) {t : Token} :
    ∀ {as : List Argument} {s : BindState} {c : TokenCursor}, Hangs (s, c) →
      ∃ r, env.bindFlags t s as c = .ok r ∧ Hangs r
  | [], s, c, h => ⟨(s, c), rfl, h⟩
  | a :: as, s, c, h => by
    unfold bindFlags
    split
    · exact bindFlags_hangs hm ⟨h.1, h.2⟩
    · obtain ⟨stop, hc⟩ : ∃ stop, c.tokens = .finished stop := by
        cases hc : c.tokens <;> simp_all [Hangs, Tokens.isFinished]
      have hf : env.bindFollowing s a t .flag c = .ok ({ s with pending := .value a }, c) := by
        simp [bindFollowing, hc, hm]
      rw [hf]
      exact bindFlags_hangs hm ⟨rfl, h.2⟩

theorem bindFlags_mirrors (env : BindEnv) (t : Token) : ∀ (as : List Argument) {s : BindState}
    {c : TokenCursor}, s.pending.isValue = false → Mirrors SameBound StopsBound
      ((env.inMode .complete).bindFlags t s.settle as c)
      ((env.inMode .partialLine).bindFlags t s as c)
  | [], s, c, hs => .agrees ⟨rfl, hs⟩
  | a :: as, s, c, hs => by
    unfold bindFlags
    split
    · exact bindFlags_mirrors env t as (s := s.push ⟨a.id, .empty t.span, .bool true, .flag⟩) hs
    · have hfollow := bindFollowing_mirrors env s a t .flag c
      cases hx : (env.inMode .complete).bindFollowing s.settle a t .flag c with
      | error f =>
        cases hy : (env.inMode .partialLine).bindFollowing s a t .flag c with
        | error g =>
          rw [hx, hy] at hfollow
          cases hfollow
          exact .fails
        | ok y =>
          rw [hx, hy] at hfollow
          cases hfollow with
          | stops h =>
            have hm : (env.inMode .partialLine).mode = .partialLine := rfl
            obtain ⟨r, hr, hh⟩ := bindFlags_hangs hm h.2
            dsimp only
            rw [hr]
            exact .stops ⟨h.1, hh⟩
      | ok x =>
        cases hy : (env.inMode .partialLine).bindFollowing s a t .flag c with
        | error g => rw [hx, hy] at hfollow; cases hfollow
        | ok y =>
          rw [hx, hy] at hfollow
          cases hfollow with
          | agrees h =>
            obtain ⟨rfl, hp⟩ := h
            exact bindFlags_mirrors env t as hp

/-! ### A token -/

def SameToken (x y : Option Bound) : Prop :=
  x = y.map settled ∧ ∀ r ∈ y, r.1.pending.isValue = false

def StopsToken (f : ParseFail) (y : Option Bound) : Prop := ∃ r, y = some r ∧ StopsBound f r

theorem bindToken_mirrors (env : BindEnv) {s : BindState} (hs : s.pending.isValue = false)
    (t : Token) (c : TokenCursor) : Mirrors SameToken StopsToken
      ((env.inMode .complete).bindToken s.settle t c)
      ((env.inMode .partialLine).bindToken s t c) := by
  have hsome : ∀ {x y : Except ParseFail Bound}, Mirrors SameBound StopsBound x y →
      Mirrors SameToken StopsToken (x.map some) (y.map some) := by
    intro x y h
    refine h.map (fun a b hab => ?_) fun f b hb => ⟨b, rfl, hb⟩
    obtain ⟨rfl, hp⟩ := hab
    exact ⟨rfl, fun r hr => by cases hr; exact hp⟩
  unfold bindToken
  split
  · exact .agrees ⟨rfl, by simp⟩
  · rename_i name assigned _
    exact hsome (bindNamed_mirrors env hs t name assigned c)
  · rename_i v _
    have hbundle : ∀ mode, flagBundle? (env.inMode mode).policy ((env.inMode mode).remaining s) t =
        flagBundle? env.policy (env.remaining s) t := fun _ => rfl
    have hsettle : flagBundle? (env.inMode .complete).policy
        ((env.inMode .complete).remaining s.settle) t =
          flagBundle? env.policy (env.remaining s) t := rfl
    simp only [hbundle, hsettle]
    cases flagBundle? env.policy (env.remaining s) t with
    | some bundle => exact hsome (bindFlags_mirrors env t bundle hs)
    | none =>
      dsimp only
      rw [bindUnnamed_complete]
      cases hy : (env.inMode .partialLine).bindUnnamed s v c with
      | error f => exact .fails
      | ok y =>
        refine .agrees ⟨rfl, fun r hr => ?_⟩
        have hy' : (env.inMode .partialLine).bindUnnamed s v c = .ok (some r) := hr ▸ hy
        exact bindUnnamed_pending hy'

/-! ### A command -/

def SameBinding (x y : Binding) : Prop :=
  x = { y with state := y.state.settle } ∧ y.state.pending.isValue = false

def StopsBinding (f : ParseFail) (y : Binding) : Prop :=
  f.LacksValue ∧ y.cursor.tokens.isFinished = true ∧ y.bySeparator = false

theorem bindTokens_mirrors (env : BindEnv) (s : BindState) (c : TokenCursor) :
    s.pending.isValue = false → Mirrors SameBinding StopsBinding
      ((env.inMode .complete).bindTokens s.settle c)
      ((env.inMode .partialLine).bindTokens s c) := by
  fun_induction (env.inMode .partialLine).bindTokens s c with
  | case1 s c stop hc =>
    intro hs
    rw [bindTokens_finished hc]
    exact .agrees ⟨rfl, hs⟩
  | case2 s c start failure hc =>
    intro hs
    rw [bindTokens_broken hc]
    exact .fails
  | case3 s c t rest hc ht =>
    intro hs
    rw [bindTokens_separator hc ht]
    exact .agrees ⟨rfl, hs⟩
  | case4 s c t rest hc ht f hf =>
    intro hs
    have h := bindToken_mirrors env hs t (.past t rest)
    rw [hf] at h
    generalize hx : (env.inMode .complete).bindToken s.settle t (.past t rest) = x at h
    cases h
    rw [bindTokens_error hc (by simpa using ht) hx]
    exact .fails
  | case5 s c t rest hc ht hn =>
    intro hs
    have h := bindToken_mirrors env hs t (.past t rest)
    rw [hn] at h
    generalize hx : (env.inMode .complete).bindToken s.settle t (.past t rest) = x at h
    cases h with
    | agrees h =>
      obtain ⟨rfl, -⟩ := h
      rw [bindTokens_none hc (by simpa using ht) hx]
      exact .agrees ⟨rfl, hs⟩
    | stops h =>
      obtain ⟨r, hr, -⟩ := h
      cases hr
  | case6 s c t rest hc ht s' c' hb ih =>
    intro hs
    have h := bindToken_mirrors env hs t (.past t rest)
    rw [hb] at h
    generalize hx : (env.inMode .complete).bindToken s.settle t (.past t rest) = x at h
    cases h with
    | agrees h =>
      obtain ⟨rfl, hp⟩ := h
      rw [bindTokens_some hc (by simpa using ht) hx]
      exact ih (hp _ rfl)
    | stops h =>
      obtain ⟨r, hr, hf, hh⟩ := h
      cases hr
      obtain ⟨stop, hc'⟩ : ∃ stop, c'.tokens = .finished stop := by
        cases hc' : c'.tokens <;> simp_all [Hangs, Tokens.isFinished]
      rw [bindTokens_error hc (by simpa using ht) hx, bindTokens_finished hc']
      exact .stops ⟨hf, hh.2, rfl⟩

/-- Both lines have bound the same, and nothing waits for a value; what the whole line has on
top of it are defaults. -/
def Completes (x y : Binding) : Prop :=
  (∃ unbound, x.state = bindDefaults y.state.settle unbound) ∧ x.cursor = y.cursor ∧
    x.bySeparator = y.bySeparator ∧ y.state.pending.isValue = false

/-- The whole line lacks a required argument, or a value where the partial line ends. -/
def StopsCommand (f : ParseFail) (y : Binding) : Prop := f.LacksArgument ∨ StopsBinding f y

/-- **A command in a partial line is bound like one in a whole line.** -/
theorem bind_mirrors (env : BindEnv) (c : TokenCursor) : Mirrors Completes StopsCommand
    ((env.inMode .complete).bind c) ((env.inMode .partialLine).bind c) := by
  have h := bindTokens_mirrors env (.start c.position) c rfl
  unfold bind
  rw [show (BindState.start c.position).settle = .start c.position from rfl] at h
  generalize (env.inMode .complete).bindTokens (.start c.position) c = x at h
  generalize (env.inMode .partialLine).bindTokens (.start c.position) c = y at h
  cases h with
  | fails => exact .fails
  | stops h => exact .stops (.inr h)
  | agrees h =>
    rename_i b
    obtain ⟨rfl, hp⟩ := h
    dsimp only
    simp only [finish, inMode]
    split
    · exact .stops (.inl ⟨_, _, rfl⟩)
    · exact .agrees ⟨⟨_, rfl⟩, rfl, rfl, hp⟩

end BindEnv
end CommandConsole
