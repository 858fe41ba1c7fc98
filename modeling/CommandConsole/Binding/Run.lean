/-
# Values and runs of values

An argument for one value takes one literal. An argument for several values
takes a run: the values that follow each other in the line, up to a name, a
bundle of flags or a separator.

Key definitions: `collectRun`, `listOfRun`, `BindEnv.convertEach`, `Taken`,
`BindEnv.takeValue`, `BindEnv.takeAssigned`.
Key theorem: `BindEnv.takeValue_remaining_le`.
-/
import CommandConsole.Binding.Basic

namespace CommandConsole

/-- The list literal that a run of values stands for: its span covers them all. -/
def listOfRun (items : List Literal) : Literal := .list items (.coverAll (items.map Literal.span))

/-- A run of values and the place behind it. -/
structure Run where
  items : List Literal
  cursor : TokenCursor
  /-- The run stopped because the line does. -/
  atEnd : Bool

/-- The values at a place of the line, up to a token that is none or for which `stops` holds. -/
def collectRun (stops : Token → Bool) (position : Nat) :
    Tokens → Except LiteralFailure Run
  | .finished stop => .ok ⟨[], ⟨stop, .finished stop⟩, true⟩
  | .broken _ failure => .error failure
  | .more t rest =>
    match t.kind with
    | .value v =>
      if stops t then .ok ⟨[], ⟨position, .more t rest⟩, false⟩
      else (collectRun stops t.span.stop rest).map fun r => { r with items := v :: r.items }
    | _ => .ok ⟨[], ⟨position, .more t rest⟩, false⟩

/-- What an argument takes from the line. -/
structure Taken where
  input : Literal
  value : Value
  /-- What is open if the line ends behind it. -/
  pending : Pending
  cursor : TokenCursor

namespace BindEnv

/-- The run that begins with the value `first`. A bundle of flags ends it. -/
def runFrom (env : BindEnv) (s : BindState) (first : Literal) (c : TokenCursor) :
    Except ParseFail Run :=
  match collectRun (fun t => (flagBundle? env.policy (env.remaining s) t).isSome) c.position
      c.tokens with
  | .error failure => .error (env.failLiteral failure)
  | .ok r => .ok { r with items := first :: r.items }

/-- A run of a partial line that reaches its end may go on. -/
def pendingAfter (env : BindEnv) (a : Argument) (offset : Nat) (r : Run) : Pending :=
  if env.mode = .partialLine ∧ r.atEnd then .run a (offset + r.items.length) else .none

/-- Converts the items of a run from the one with index `i` on, each to the argument's type. -/
def convertEach (env : BindEnv) (a : Argument) (i : Nat) :
    List Literal → Except ParseFail (List Value)
  | [] => .ok []
  | item :: items =>
    match a.type.convert item with
    | .error m => .error (env.mismatch a (m.under (.index i)))
    | .ok v => (env.convertEach a (i + 1) items).map (v :: ·)

/-- Whether the value `first` begins a run that is a list for the argument. -/
def startsListRun (a : Argument) (first : Literal) : Bool :=
  first.kind == .scalar && a.type.kind == .list

/-- Converts the value `first`, and the run behind it if the argument takes one. -/
def takeValue (env : BindEnv) (s : BindState) (a : Argument) (first : Literal) (c : TokenCursor) :
    Except ParseFail Taken :=
  match a.multiplicity with
  | .single => (env.convert a first).map fun v => ⟨first, v, .none, c⟩
  | .multiple =>
    if startsListRun a first then
      match env.runFrom s first c with
      | .error f => .error f
      | .ok r =>
        (env.convert a (listOfRun r.items)).map fun v =>
          ⟨listOfRun r.items, v, env.pendingAfter a 0 r, r.cursor⟩
    else (env.convert a first).map fun v => ⟨first, v, .none, c⟩
  | .vararg =>
    match env.runFrom s first c with
    | .error f => .error f
    | .ok r =>
      (env.convertEach a 0 r.items).map fun vs =>
        ⟨listOfRun r.items, .list vs, env.pendingAfter a 0 r, r.cursor⟩

/-- The items of a run that is given as one literal. -/
def itemsOf : Literal → List Literal
  | .list items _ => items
  | other => [other]

/-- Converts the value of `--name=value`: one literal, and never a run. -/
def takeAssigned (env : BindEnv) (a : Argument) (input : Literal) :
    Except ParseFail (Literal × Value) :=
  match a.multiplicity with
  | .single => (env.convert a input).map fun v => (input, v)
  | .multiple =>
    let input := if startsListRun a input then listOfRun [input] else input
    (env.convert a input).map fun v => (input, v)
  | .vararg =>
    (env.convertEach a 0 (itemsOf input)).map fun vs => (listOfRun (itemsOf input), .list vs)

end BindEnv

theorem exists_of_map_eq_ok {ε α β : Type} {e : Except ε α} {f : α → β} {b : β}
    (h : e.map f = .ok b) : ∃ a, e = .ok a ∧ f a = b := by
  cases e with
  | error x => cases h
  | ok a => cases h; exact ⟨a, rfl, rfl⟩

theorem error_of_map_eq_error {ε α β : Type} {e : Except ε α} {f : α → β} {x : ε}
    (h : e.map f = .error x) : e = .error x := by
  cases e with
  | error y => exact congrArg _ (Except.error.inj h)
  | ok a => cases h

theorem collectRun_remaining_le (stops : Token → Bool) : ∀ (position : Nat) (ts : Tokens) (r : Run),
    collectRun stops position ts = .ok r → r.cursor.remaining ≤ ts.length
  | _, .finished _, r, h => by cases h; exact Nat.le_refl _
  | _, .broken _ _, _, h => by cases h
  | position, .more t rest, r, h => by
    unfold collectRun at h
    split at h
    · split at h
      · cases h
        exact Nat.le_refl _
      · cases hr : collectRun stops t.span.stop rest with
        | error f => rw [hr] at h; cases h
        | ok q =>
          rw [hr] at h
          cases h
          have := collectRun_remaining_le stops _ rest q hr
          simp only [Tokens.length_more]
          omega
    · cases h
      exact Nat.le_refl _

theorem BindEnv.runFrom_remaining_le {env : BindEnv} {s : BindState} {first : Literal}
    {c : TokenCursor} {r : Run} (h : env.runFrom s first c = .ok r) :
    r.cursor.remaining ≤ c.remaining := by
  unfold runFrom at h
  split at h
  · cases h
  · rename_i q hq
    cases h
    exact collectRun_remaining_le _ _ _ q hq

/-- Taking a value does not go back in the line. -/
theorem BindEnv.takeValue_remaining_le {env : BindEnv} {s : BindState} {a : Argument}
    {first : Literal} {c : TokenCursor} {t : Taken} (h : env.takeValue s a first c = .ok t) :
    t.cursor.remaining ≤ c.remaining := by
  unfold takeValue at h
  split at h
  · obtain ⟨v, _, rfl⟩ := exists_of_map_eq_ok h
    exact Nat.le_refl _
  · split at h
    · split at h
      · cases h
      · rename_i r hr
        obtain ⟨v, _, rfl⟩ := exists_of_map_eq_ok h
        exact runFrom_remaining_le hr
    · obtain ⟨v, _, rfl⟩ := exists_of_map_eq_ok h
      exact Nat.le_refl _
  · split at h
    · cases h
    · rename_i r hr
      obtain ⟨v, _, rfl⟩ := exists_of_map_eq_ok h
      exact runFrom_remaining_le hr

end CommandConsole
