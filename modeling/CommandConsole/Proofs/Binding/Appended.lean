/-
# Values of a line that goes on

A partial line ends somewhere, and then one more token is put at its end, or a
literal that cannot be read. An argument that has taken a value takes it also
in the longer line: its run stops in front of the new token, or takes it too.
And an optional argument that has refused a value refuses it again.

Key definitions: `Tokens.onto`, `Tokens.Yields`, `Pending.Welcomes`, `Pending.PassesBy`,
`Argument.Steady`, `Run.Resumed`, `Taken.Resumed`.
Key theorems: `BindEnv.runFrom_onto`, `BindEnv.takeValue_onto`, `BindEnv.takeValue_refused_onto`.
-/
import CommandConsole.Completion.Candidates
import CommandConsole.Proofs.ArgType.Conversion
import CommandConsole.Proofs.Binding.Named
import CommandConsole.Proofs.Binding.PartialLine

namespace CommandConsole

/-! ### Another end -/

namespace Tokens

/-- The tokens with `e` in place of their end. -/
def onto : Tokens → Tokens → Tokens
  | .finished _, e => e
  | .broken start f, _ => .broken start f
  | .more t rest, e => .more t (rest.onto e)

/-- What is put at the end of a line: one token that is no bundle of flags, or a literal that
cannot be read. -/
inductive Appended : Tokens → Prop
  | token {t : Token} {stop : Nat} (h : t.shortFlags? = none) : Appended (.more t (.finished stop))
  | broken {start : Nat} {f : LiteralFailure} : Appended (.broken start f)

/-- A value comes next. -/
def BeginsValue (e : Tokens) : Prop := ∃ t rest, e = .more t rest ∧ t.isValue = true

/-- An answer to a line with `e` at its end: a result with the property `P`, or the failure of
the literal that cannot be read there. -/
inductive Yields {α : Type} (e : Tokens) (text : String) (P : α → Prop) :
    Except ParseFail α → Prop
  | ok {x : α} (h : P x) : Yields e text P (.ok x)
  | broken {start : Nat} {f : LiteralFailure} (he : e = .broken start f) :
      Yields e text P (.error (.ofLiteral f text))

theorem onto_prepend (ts : List Token) (stop : Nat) (e : Tokens) :
    (prepend ts (.finished stop)).onto e = prepend ts e := by
  induction ts with
  | nil => rfl
  | cons t ts ih => rw [prepend_cons, onto, ih, prepend_cons]

theorem exists_of_isFinished {ts : Tokens} (h : ts.isFinished = true) :
    ∃ stop, ts = .finished stop := by
  cases ts with
  | finished stop => exact ⟨stop, rfl⟩
  | broken start f => cases h
  | more t rest => cases h

theorem Yields.map {α β : Type} {e : Tokens} {text : String} {P : α → Prop} {Q : β → Prop}
    {x : Except ParseFail α} (h : e.Yields text P x) {g : α → β} (hg : ∀ y, P y → Q (g y)) :
    e.Yields text Q (x.map g) := by
  cases h with
  | ok h => exact .ok (hg _ h)
  | broken he => exact .broken he

theorem Yields.mono {α : Type} {e : Tokens} {text : String} {P Q : α → Prop}
    {x : Except ParseFail α} (h : e.Yields text P x) (hPQ : ∀ y, P y → Q y) :
    e.Yields text Q x := by
  cases h with
  | ok h => exact .ok (hPQ _ h)
  | broken he => exact .broken he

end Tokens

namespace Pending

/-- What is open takes the token that `e` consists of. -/
def Welcomes (e : Tokens) : Pending → Prop
  | .none => True
  | .value a => ∀ t stop, e = .more t (.finished stop) →
      ∃ v, t.kind = .value v ∧ a.type.takes v = true
  | .run a count => ∀ t stop v, e = .more t (.finished stop) → t.kind = .value v →
      ∃ type, runType? a count = some type ∧ type.takes v = true

/-- What is open leaves the token that `e` begins with to whoever comes next. -/
def PassesBy (e : Tokens) : Pending → Prop
  | .none => True
  | .value _ => False
  | .run _ _ => ¬e.BeginsValue

end Pending

/-- What the argument refuses of a run does not depend on how long the run is, or else the
argument has to be given. -/
def Argument.Steady (a : Argument) : Prop :=
  a.isOptional = true → a.multiplicity = .multiple → a.type.kind = .list →
    ∃ element, a.type = .list element

/-- The state as a longer line leaves it, with nothing open. -/
def BindState.resumed (s : BindState) (stop : Nat) : BindState :=
  { s with pending := .none, stop := stop }

/-! ### Conversion -/

namespace ArgType

theorem takes_iff {t : ArgType} {v : Literal} :
    t.takes v = true ↔ ∃ value, t.convert v = .ok value := by
  unfold takes
  cases t.convert v <;> simp [Except.toOption]

theorem convertItems_append {element : ArgType} {v : Literal} {value : Value}
    (hv : element.convert v = .ok value) : ∀ {i : Nat} {items : List Literal} {vs : List Value},
      convertItems element i items = .ok vs →
        convertItems element i (items ++ [v]) = .ok (vs ++ [value])
  | i, [], vs, h => by
    rw [convertItems] at h
    cases h
    rw [List.nil_append, convertItems, hv]
    simp only [convertItems, Except.map, List.nil_append]
  | i, item :: items, vs, h => by
    rw [convertItems] at h
    rw [List.cons_append, convertItems]
    cases hi : element.convert item with
    | error m => rw [hi] at h; cases h
    | ok w =>
      rw [hi] at h
      obtain ⟨ws, hws, rfl⟩ := exists_of_map_eq_ok h
      simp only [convertItems_append hv hws]
      rfl

/-- A mismatch among some items has the index of one of them at the head of its path. -/
theorem convertItems_error {element : ArgType} {m : TypeMismatch} :
    ∀ {i : Nat} {items : List Literal}, convertItems element i items = .error m →
      ∃ j, i ≤ j ∧ m.path.head? = some (.index j)
  | i, [], h => by
    rw [convertItems] at h
    cases h
  | i, item :: items, h => by
    rw [convertItems] at h
    cases hi : element.convert item with
    | error m' =>
      rw [hi] at h
      cases h
      exact ⟨i, Nat.le_refl i, rfl⟩
    | ok w =>
      rw [hi] at h
      cases hr : convertItems element (i + 1) items with
      | ok vs => rw [hr] at h; cases h
      | error m' =>
        rw [hr] at h
        cases h
        obtain ⟨j, hj, hp⟩ := convertItems_error hr
        exact ⟨j, Nat.le_of_succ_le hj, hp⟩

/-- A run that is a list goes on with a value that the next place takes. -/
theorem convert_listOfRun_append {t type : ArgType} {items : List Literal} {v : Literal}
    {value : Value} (h : t.convert (listOfRun items) = .ok value)
    (hn : t.elementType? items.length = some type) (hv : type.takes v = true) :
    ∃ value', t.convert (listOfRun (items ++ [v])) = .ok value' := by
  obtain ⟨w, hw⟩ := takes_iff.mp hv
  cases t with
  | any => exact ⟨_, convert_any _⟩
  | list element =>
    cases hn
    rw [listOfRun, convert_list] at h
    obtain ⟨vs, hvs, -⟩ := exists_of_map_eq_ok h
    refine ⟨.list (vs ++ [w]), ?_⟩
    rw [listOfRun, convert_list, convertItems_append hw hvs]
    rfl
  | exactList elements =>
    -- the list is full already
    have hlen : elements.length = items.length := length_of_convert_exactList h
    have hnone : elements[items.length]? = none := List.getElem?_eq_none (Nat.le_of_eq hlen)
    rw [elementType?, hnone] at hn
    cases hn
  | _ => cases hn

end ArgType

/-! ### Runs -/

/-- The run `r` in the longer line: it stops in front of `e`, or takes the value there. -/
inductive Run.Resumed (e : Tokens) (r : Run) : Run → Prop
  | on (p : Nat) (h : r.atEnd = true → ¬e.BeginsValue) :
      Run.Resumed e r ⟨r.items, ⟨p, r.cursor.tokens.onto e⟩, false⟩
  | longer {t : Token} {v : Literal} {stop : Nat} (h : r.atEnd = true)
      (hf : r.cursor.tokens.isFinished = true) (he : e = .more t (.finished stop))
      (hk : t.kind = .value v) : Run.Resumed e r ⟨r.items ++ [v], ⟨stop, .finished stop⟩, true⟩

variable {e : Tokens}

theorem Run.Resumed.cons {r q : Run} (h : r.Resumed e q) (v : Literal) :
    Run.Resumed e { r with items := v :: r.items } { q with items := v :: q.items } := by
  cases h with
  | on p h => exact .on p h
  | longer h hf he hk => exact .longer h hf he hk

theorem collectRun_onto (he : e.Appended) {stops : Token → Bool}
    (hstops : ∀ t, t.shortFlags? = none → stops t = false) :
    ∀ {p : Nat} {ts : Tokens} {r : Run} (p' : Nat), collectRun stops p ts = .ok r →
      (∃ q, collectRun stops p' (ts.onto e) = .ok q ∧ r.Resumed e q) ∨
        ∃ start f, e = .broken start f ∧ collectRun stops p' (ts.onto e) = .error f
  | p, .finished stop, r, p', h => by
    cases h
    rw [Tokens.onto]
    cases he with
    | @token t stop' ht =>
      refine .inl ?_
      rw [collectRun]
      have hnone : t.isValue = false →
          Run.Resumed (.more t (.finished stop')) ⟨[], ⟨stop, .finished stop⟩, true⟩
            ⟨[], ⟨p', .more t (.finished stop')⟩, false⟩ := by
        intro hv
        refine .on p' fun _ hb => ?_
        obtain ⟨u, rest, hu, hvalue⟩ := hb
        cases hu
        rw [hv] at hvalue
        cases hvalue
      cases hk : t.kind with
      | separator => exact ⟨_, rfl, hnone (by simp [Token.isValue, Token.value?, hk])⟩
      | named name assigned => exact ⟨_, rfl, hnone (Token.isValue_of_named hk)⟩
      | value v =>
        dsimp only
        rw [hstops t ht, collectRun]
        exact ⟨_, rfl, .longer rfl rfl rfl hk⟩
    | broken => exact .inr ⟨_, _, rfl, rfl⟩
  | _, .broken _ _, _, _, h => by cases h
  | p, .more t rest, r, p', h => by
    rw [collectRun] at h
    rw [Tokens.onto, collectRun]
    cases hk : t.kind with
    | separator =>
      rw [hk] at h
      cases h
      exact .inl ⟨_, rfl, .on p' (fun h => by cases h)⟩
    | named name assigned =>
      rw [hk] at h
      cases h
      exact .inl ⟨_, rfl, .on p' (fun h => by cases h)⟩
    | value v =>
      rw [hk] at h
      dsimp only at h ⊢
      by_cases hs : stops t = true
      · rw [if_pos hs] at h ⊢
        cases h
        exact .inl ⟨_, rfl, .on p' (fun h => by cases h)⟩
      · rw [if_neg hs] at h ⊢
        obtain ⟨r, hr, rfl⟩ := exists_of_map_eq_ok h
        rcases collectRun_onto he hstops t.span.stop hr with ⟨q, hq, hrq⟩ | ⟨start, f, hef, hf⟩
        · exact .inl ⟨_, by rw [hq]; rfl, hrq.cons v⟩
        · exact .inr ⟨start, f, hef, by rw [hf]; rfl⟩

/-- What an argument takes in the longer line, where it has taken `k`. -/
inductive Taken.Resumed (e : Tokens) (k : Taken) : Taken → Prop
  | on (p : Nat) (h : k.pending.PassesBy e) :
      Taken.Resumed e k ⟨k.input, k.value, .none, ⟨p, k.cursor.tokens.onto e⟩⟩
  | done {k' : Taken} (h : k'.cursor.tokens.isFinished = true) : Taken.Resumed e k k'

theorem flagBundle?_of_shortFlags? {policy : ShortFlagPolicy} {remaining : List Argument}
    {t : Token} (h : t.shortFlags? = none) : flagBundle? policy remaining t = none := by
  rw [flagBundle?, h]

namespace BindEnv

/-- The same place of another line. -/
def inText (env : BindEnv) (text : String) : BindEnv := { env with text := text }

variable {env : BindEnv} {text : String} {s : BindState} {a : Argument} {t : Token}
  {c : TokenCursor} {v : Literal}

theorem runFrom_onto (text : String) (he : e.Appended) {r : Run} (h : env.runFrom s v c = .ok r) (n p : Nat) :
    e.Yields text (r.Resumed e)
      ((env.inText text).runFrom (s.resumed n) v ⟨p, c.tokens.onto e⟩) := by
  unfold runFrom at h
  split at h
  · cases h
  · rename_i q hq
    cases h
    have hstops : ∀ t, t.shortFlags? = none →
        (flagBundle? env.policy (env.remaining s) t).isSome = false := by
      intro t ht
      rw [flagBundle?_of_shortFlags? ht]
      rfl
    unfold runFrom
    rcases collectRun_onto he hstops p hq with ⟨q', hq', hqq⟩ | ⟨start, f, hef, hf⟩
    · have hq'' : collectRun (fun t => (flagBundle? (env.inText text).policy
          ((env.inText text).remaining (s.resumed n)) t).isSome) p (c.tokens.onto e) = .ok q' := hq'
      rw [hq'']
      exact .ok (hqq.cons v)
    · have hf' : collectRun (fun t => (flagBundle? (env.inText text).policy
          ((env.inText text).remaining (s.resumed n)) t).isSome) p (c.tokens.onto e) = .error f := hf
      rw [hf']
      exact .broken hef

/-- A run that does not take the new token leaves it to whoever comes next. -/
theorem pendingAfter_passesBy {r : Run} (h : r.atEnd = true → ¬e.BeginsValue) (a : Argument)
    (offset : Nat) : (env.pendingAfter a offset r).PassesBy e := by
  unfold pendingAfter
  split
  · rename_i hend
    exact h hend.2
  · trivial

theorem pendingAfter_on (env : BindEnv) (a : Argument) (offset : Nat) (items : List Literal)
    (c : TokenCursor) : env.pendingAfter a offset ⟨items, c, false⟩ = .none :=
  if_neg fun h => by cases h.2

theorem pendingAfter_end (hm : env.mode = .partialLine) {r : Run} (h : r.atEnd = true)
    (a : Argument) (offset : Nat) :
    env.pendingAfter a offset r = .run a (offset + r.items.length) :=
  if_pos ⟨hm, h⟩

/-! ### Values -/

/-- An argument that takes a run takes it also in the longer line. `conv` and `conv'` convert
the items of the run, in the one line and in the other. -/
theorem takeRun_onto {α : Type} (val : α → Value) (he : e.Appended) (hm : env.mode = .partialLine)
    {conv conv' : List Literal → Except ParseFail α}
    (hsame : ∀ items w, conv items = .ok w → conv' items = .ok w)
    (hmore : ∀ items w u type, conv items = .ok w → runType? a items.length = some type →
      type.takes u = true → ∃ w', conv' (items ++ [u]) = .ok w')
    {r : Run} (hr : env.runFrom s v c = .ok r) {w : α} (hv : conv r.items = .ok w)
    (hw : r.cursor.tokens.isFinished = true → (env.pendingAfter a 0 r).Welcomes e) (n p : Nat) :
    e.Yields text (Taken.Resumed e ⟨listOfRun r.items, val w, env.pendingAfter a 0 r, r.cursor⟩)
      (match (env.inText text).runFrom (s.resumed n) v ⟨p, c.tokens.onto e⟩ with
        | .error f => .error f
        | .ok r => (conv' r.items).map fun w =>
          ⟨listOfRun r.items, val w, (env.inText text).pendingAfter a 0 r, r.cursor⟩) := by
  have hr' := runFrom_onto text he hr n p
  generalize (env.inText text).runFrom (s.resumed n) v ⟨p, c.tokens.onto e⟩ = x at hr'
  cases hr' with
  | broken hb => exact .broken hb
  | ok hq =>
    cases hq with
    | on p' hpass =>
      dsimp only
      rw [hsame _ _ hv, pendingAfter_on]
      exact .ok (.on p' (pendingAfter_passesBy hpass a 0))
    | longer hend hf hnext hk =>
      rw [pendingAfter_end hm hend] at hw
      obtain ⟨type, hn, ht⟩ := hw hf _ _ _ hnext hk
      rw [Nat.zero_add] at hn
      obtain ⟨w', hw'⟩ := hmore _ _ _ _ hv hn ht
      dsimp only
      rw [hw']
      exact .ok (.done rfl)

theorem convert_inText {w : Value} (h : env.convert a v = .ok w) :
    (env.inText text).convert a v = .ok w :=
  convert_of_eq_ok (convert_eq_ok h)

theorem convertEach_inText {i : Nat} {items : List Literal} {ws : List Value}
    (h : env.convertEach a i items = .ok ws) : (env.inText text).convertEach a i items = .ok ws :=
  convertEach_of_forall₂ i (convertEach_eq_ok h)

theorem convertEach_append (text : String) {i : Nat} {items : List Literal} {ws : List Value}
    (h : env.convertEach a i items = .ok ws) (hv : a.type.takes v = true) :
    ∃ ws', (env.inText text).convertEach a i (items ++ [v]) = .ok ws' := by
  obtain ⟨w, hw⟩ := ArgType.takes_iff.mp hv
  exact ⟨_, convertEach_of_forall₂ i (List.rel_append (convertEach_eq_ok h) (.cons hw .nil))⟩

/-- An argument that takes a value takes it also in the longer line. -/
theorem takeValue_onto (text : String) (he : e.Appended) (hm : env.mode = .partialLine) {k : Taken}
    (h : env.takeValue s a v c = .ok k)
    (hw : k.cursor.tokens.isFinished = true → k.pending.Welcomes e) (n p : Nat) :
    e.Yields text (Taken.Resumed e k)
      ((env.inText text).takeValue (s.resumed n) a v ⟨p, c.tokens.onto e⟩) := by
  have hone : ∀ {w : Value}, env.convert a v = .ok w →
      e.Yields text (Taken.Resumed e ⟨v, w, .none, c⟩)
        (((env.inText text).convert a v).map fun w =>
          (⟨v, w, .none, ⟨p, c.tokens.onto e⟩⟩ : Taken)) := by
    intro w hw
    rw [convert_inText hw]
    exact .ok (.on p trivial)
  unfold takeValue at h ⊢
  cases hmul : a.multiplicity with
  | single =>
    rw [hmul] at h
    obtain ⟨w, hv, rfl⟩ := exists_of_map_eq_ok h
    exact hone hv
  | multiple =>
    rw [hmul] at h
    dsimp only at h ⊢
    by_cases hl : startsListRun a v = true
    · rw [if_pos hl] at h ⊢
      split at h
      · cases h
      · rename_i r hr
        obtain ⟨w, hv, rfl⟩ := exists_of_map_eq_ok h
        refine takeRun_onto id he hm (fun items w => convert_inText)
          (fun items w u type hv hn ht => ?_) hr hv hw n p
        rw [runType?, hmul] at hn
        obtain ⟨w', hw'⟩ := ArgType.convert_listOfRun_append (convert_eq_ok hv) hn ht
        exact ⟨w', convert_of_eq_ok hw'⟩
    · rw [if_neg hl] at h ⊢
      obtain ⟨w, hv, rfl⟩ := exists_of_map_eq_ok h
      exact hone hv
  | vararg =>
    rw [hmul] at h
    dsimp only at h ⊢
    split at h
    · cases h
    · rename_i r hr
      obtain ⟨ws, hv, rfl⟩ := exists_of_map_eq_ok h
      have hsame : ∀ items ws, env.convertEach a 0 items = .ok ws →
          (env.inText text).convertEach a 0 items = .ok ws := fun items ws => convertEach_inText
      refine takeRun_onto .list he hm hsame (fun items ws u type hv hn ht => ?_) hr hv hw n p
      rw [runType?, hmul] at hn
      cases hn
      exact convertEach_append text hv ht

/-- Of a value that is typed where it is waited for, nothing is left over. -/
theorem takeValue_alone (env : BindEnv) (s : BindState) (ht : a.type.takes v = true) {stop : Nat}
    (hc : c.tokens = .finished stop) :
    ∃ k, env.takeValue s a v c = .ok k ∧ k.cursor.tokens.isFinished = true := by
  obtain ⟨w, hw⟩ := ArgType.takes_iff.mp ht
  have hone : env.convert a v = .ok w := convert_of_eq_ok hw
  have hend : c.tokens.isFinished = true := by
    rw [hc]
    rfl
  unfold takeValue
  cases a.multiplicity with
  | single => exact ⟨_, by rw [hone]; rfl, hend⟩
  | multiple =>
    dsimp only
    rw [startsListRun_of_convert hw, if_neg (by simp), hone]
    exact ⟨_, rfl, hend⟩
  | vararg =>
    have heach : env.convertEach a 0 [v] = .ok [w] :=
      convertEach_of_forall₂ 0 (.cons hw .nil)
    simp only [runFrom, hc, collectRun, heach]
    exact ⟨_, rfl, rfl⟩

/-! ### Values that are refused -/

theorem rejectsFirst_ofLiteral (a : Argument) (f : LiteralFailure) (text : String) :
    rejectsFirst a (.ofLiteral f text) = false := by
  unfold rejectsFirst ParseFail.ofLiteral
  cases f.kind <;> rfl

theorem rejectsFirst_congr {f f' : ParseFail} (h : f'.kind = f.kind) :
    rejectsFirst a f' = rejectsFirst a f := by
  rw [rejectsFirst, rejectsFirst, h]

theorem rejectsFirst_mismatch (env : BindEnv) (a : Argument) (m : TypeMismatch) :
    rejectsFirst a (env.mismatch a m) = true ↔
      a.multiplicity.isMulti = false ∨ m.path.head? = none ∨ m.path.head? = some (.index 0) := by
  simp only [rejectsFirst, mismatch, fail]
  cases m.path.head? with
  | none => simp
  | some segment => simp

/-- A mismatch is the same in every text. -/
theorem convert_error_inText (text : String) {f : ParseFail} (h : env.convert a v = .error f) :
    ∃ f', (env.inText text).convert a v = .error f' ∧ f'.kind = f.kind := by
  unfold convert at h ⊢
  cases hm : a.type.convert v with
  | ok w => rw [hm] at h; cases h
  | error m =>
    rw [hm] at h
    cases h
    exact ⟨_, rfl, rfl⟩

theorem convertEach_error {f : ParseFail} : ∀ {i : Nat} {items : List Literal},
    env.convertEach a i items = .error f →
      ∃ m j, i ≤ j ∧ m.path.head? = some (.index j) ∧ f = env.mismatch a m
  | i, [], h => by cases h
  | i, item :: items, h => by
    rw [convertEach] at h
    cases hi : a.type.convert item with
    | error m =>
      rw [hi] at h
      cases h
      exact ⟨m.under (.index i), i, Nat.le_refl i, rfl, rfl⟩
    | ok w =>
      rw [hi] at h
      cases hr : env.convertEach a (i + 1) items with
      | ok ws => rw [hr] at h; cases h
      | error g =>
        rw [hr] at h
        cases h
        obtain ⟨m, j, hj, hp, hf⟩ := convertEach_error hr
        exact ⟨m, j, Nat.le_of_succ_le hj, hp, hf⟩

/-- Only the first value of a run is refused with the index 0. -/
theorem not_rejects_later (env : BindEnv) (hm : a.multiplicity.isMulti = true) {m : TypeMismatch}
    {j : Nat} (hj : 1 ≤ j) (hp : m.path.head? = some (.index j)) :
    rejectsFirst a (env.mismatch a m) = false := by
  have hne : ¬rejectsFirst a (env.mismatch a m) = true := by
    rw [rejectsFirst_mismatch, hp, hm]
    simp only [Option.some.injEq, PathSegment.index.injEq]
    rintro (h | h | h)
    · cases h
    · cases h
    · omega
  simpa using hne

/-- A run is refused for its first value whatever comes behind it. -/
theorem convertEach_rejects {first : Literal} {items : List Literal} {f : ParseFail}
    (hm : a.multiplicity.isMulti = true) (h : env.convertEach a 0 (first :: items) = .error f)
    (hr : rejectsFirst a f = true) (env' : BindEnv) (items' : List Literal) :
    ∃ f', env'.convertEach a 0 (first :: items') = .error f' ∧ rejectsFirst a f' = true := by
  rw [convertEach] at h
  cases hc : a.type.convert first with
  | error m =>
    refine ⟨env'.mismatch a (m.under (.index 0)), ?_, ?_⟩
    · rw [convertEach, hc]
    · exact (rejectsFirst_mismatch env' a _).mpr (.inr (.inr rfl))
  | ok w =>
    rw [hc] at h
    cases hrest : env.convertEach a 1 items with
    | ok ws => rw [hrest] at h; cases h
    | error g =>
      rw [hrest] at h
      cases h
      obtain ⟨m, j, hj, hp, rfl⟩ := convertEach_error hrest
      rw [not_rejects_later env hm hj hp] at hr
      cases hr

/-- So is a run that is a list with one type for its items. -/
theorem convert_list_rejects {element : ArgType} {first : Literal} {items : List Literal}
    {f : ParseFail} (hm : a.multiplicity.isMulti = true) (ht : a.type = .list element)
    (h : env.convert a (listOfRun (first :: items)) = .error f) (hr : rejectsFirst a f = true)
    (env' : BindEnv) (items' : List Literal) :
    ∃ f', env'.convert a (listOfRun (first :: items')) = .error f' ∧
      rejectsFirst a f' = true := by
  rw [convert, ht, listOfRun, ArgType.convert_list, ArgType.convertItems] at h
  cases hc : element.convert first with
  | error m =>
    refine ⟨env'.mismatch a (m.under (.index 0)), ?_, ?_⟩
    · rw [convert, ht, listOfRun, ArgType.convert_list, ArgType.convertItems, hc]
      rfl
    · exact (rejectsFirst_mismatch env' a _).mpr (.inr (.inr rfl))
  | ok w =>
    rw [hc] at h
    cases hrest : ArgType.convertItems element 1 items with
    | ok ws => rw [hrest] at h; cases h
    | error m =>
      rw [hrest] at h
      cases h
      obtain ⟨j, hj, hp⟩ := ArgType.convertItems_error hrest
      rw [not_rejects_later env hm hj hp] at hr
      cases hr

theorem runFrom_error {f : ParseFail} (h : env.runFrom s v c = .error f) :
    ∃ g, f = .ofLiteral g env.text := by
  unfold runFrom at h
  split at h
  · cases h
    exact ⟨_, rfl⟩
  · cases h

/-- A run that is refused for its first value is refused in the longer line. `conv` and `conv'`
convert the items of the run, in the one line and in the other. -/
theorem refuseRun_onto {α : Type} {mk mk' : Run → α → Taken} (he : e.Appended)
    (conv conv' : List Literal → Except ParseFail α) {f : ParseFail}
    (hrefuse : ∀ rest rest', rest' = rest ∨ e.BeginsValue → conv (v :: rest) = .error f →
      ∃ f', conv' (v :: rest') = .error f' ∧ rejectsFirst a f' = true)
    (h : (match env.runFrom s v c with
      | .error f => Except.error f
      | .ok r => (conv r.items).map (mk r)) = .error f) (hr : rejectsFirst a f = true) (n p : Nat) :
    ∃ f', (match (env.inText text).runFrom (s.resumed n) v ⟨p, c.tokens.onto e⟩ with
      | .error f => Except.error f
      | .ok r => (conv' r.items).map (mk' r)) = .error f' ∧
        (rejectsFirst a f' = true ∨ ∃ start g, e = .broken start g ∧ f' = .ofLiteral g text) := by
  cases hrun : env.runFrom s v c with
  | error g =>
    rw [hrun] at h
    cases h
    obtain ⟨g', rfl⟩ := runFrom_error hrun
    rw [rejectsFirst_ofLiteral] at hr
    cases hr
  | ok r =>
    rw [hrun] at h
    obtain ⟨rest, -, hitems, -⟩ := runFrom_used hrun
    have hconv : conv (v :: rest) = .error f := by
      cases hc : conv r.items with
      | ok w => simp only [hc] at h; cases h
      | error g =>
        simp only [hc] at h
        cases h
        rw [← hitems, hc]
    have hrun' := runFrom_onto text he hrun n p
    generalize (env.inText text).runFrom (s.resumed n) v ⟨p, c.tokens.onto e⟩ = x at hrun'
    cases hrun' with
    | broken hb => exact ⟨_, rfl, .inr ⟨_, _, hb, rfl⟩⟩
    | ok hq =>
      cases hq with
      | on p' hpass =>
        obtain ⟨f', hf', hr'⟩ := hrefuse rest rest (.inl rfl) hconv
        dsimp only
        rw [hitems, hf']
        exact ⟨f', rfl, .inl hr'⟩
      | @longer t u stop hend hf hnext hk =>
        have hvalue : e.BeginsValue := ⟨t, _, hnext, Token.isValue_of_kind hk⟩
        obtain ⟨f', hf', hr'⟩ := hrefuse rest (rest ++ [u]) (.inr hvalue) hconv
        dsimp only
        rw [hitems, List.cons_append, hf']
        exact ⟨f', rfl, .inl hr'⟩

/-- An optional argument that refuses a value refuses it in the longer line. -/
theorem takeValue_refused_onto (text : String) (he : e.Appended) (hst : e.BeginsValue → a.Steady)
    (ho : a.isOptional = true) {f : ParseFail} (h : env.takeValue s a v c = .error f)
    (hr : rejectsFirst a f = true) (n p : Nat) :
    ∃ f', (env.inText text).takeValue (s.resumed n) a v ⟨p, c.tokens.onto e⟩ = .error f' ∧
      (rejectsFirst a f' = true ∨ ∃ start g, e = .broken start g ∧ f' = .ofLiteral g text) := by
  have hone : env.convert a v = .error f → ∃ f', (env.inText text).convert a v = .error f' ∧
      rejectsFirst a f' = true := by
    intro hc
    obtain ⟨f', hf', hk⟩ := convert_error_inText text hc
    exact ⟨f', hf', by rw [rejectsFirst_congr hk, hr]⟩
  unfold takeValue at h ⊢
  cases hmul : a.multiplicity with
  | single =>
    rw [hmul] at h
    cases hc : env.convert a v with
    | ok w => rw [hc] at h; cases h
    | error g =>
      rw [hc] at h
      cases h
      obtain ⟨f', hf', hr'⟩ := hone hc
      exact ⟨f', by rw [hf']; rfl, .inl hr'⟩
  | multiple =>
    rw [hmul] at h
    dsimp only at h ⊢
    by_cases hl : startsListRun a v = true
    · rw [if_pos hl] at h ⊢
      refine refuseRun_onto he (fun items => env.convert a (listOfRun items))
        (fun items => (env.inText text).convert a (listOfRun items))
        (fun rest rest' hrest hc => ?_) h hr n p
      rcases hrest with rfl | hvalue
      · obtain ⟨f', hf', hk⟩ := convert_error_inText text hc
        exact ⟨f', hf', by rw [rejectsFirst_congr hk, hr]⟩
      · have hkind : a.type.kind = .list := by
          simpa using (Bool.and_eq_true_iff.mp hl).2
        obtain ⟨element, ht⟩ := hst hvalue ho hmul hkind
        exact convert_list_rejects (by rw [hmul]; rfl) ht hc hr _ rest'
    · rw [if_neg hl] at h ⊢
      cases hc : env.convert a v with
      | ok w => rw [hc] at h; cases h
      | error g =>
        rw [hc] at h
        cases h
        obtain ⟨f', hf', hr'⟩ := hone hc
        exact ⟨f', by rw [hf']; rfl, .inl hr'⟩
  | vararg =>
    rw [hmul] at h
    dsimp only at h ⊢
    have hmulti : a.multiplicity.isMulti = true := by
      rw [hmul]
      rfl
    exact refuseRun_onto he (env.convertEach a 0) ((env.inText text).convertEach a 0)
      (fun rest rest' _ hc => convertEach_rejects hmulti hc hr (env.inText text) rest') h hr n p

end BindEnv
end CommandConsole
