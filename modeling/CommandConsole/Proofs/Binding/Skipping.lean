/-
# Arguments that are passed over

An unnamed value is offered to the arguments in order. An optional argument that
refuses it is passed over; one that has begun to bind a run, and then refuses a
later value of it, fails the line. Which of the two a failure is, the binder
reads off the path of the mismatch. So a literal that several values are given
in is taken for a run that has begun, if what is refused is not its first item.

Key definitions: `ParseFail.Mismatches`, `BreaksAt`, `Argument.StartsRun`, `Argument.Misreads`,
`BindEnv.RunBreaks`, `BindEnv.Refuses`, `BindEnv.Skips`, `BindEnv.FailsFor`.
Key theorems: `BindEnv.takeValue_skips`, `BindEnv.takeValue_fails`, `BindEnv.bindToken_skips`,
`BindEnv.bindToken_mismatch`.
-/
import CommandConsole.Proofs.Binding.LastToken

namespace CommandConsole

namespace ParseFail

/-- The failure is about what was given to the argument `id`. -/
def Mismatches (f : ParseFail) (id : String) : Prop :=
  ∃ type input path reason, f.kind = .invalidInputForType id type input path reason

/-- A literal that cannot be read is no mismatch. -/
theorem not_mismatches_ofLiteral {g : LiteralFailure} {text id : String} :
    ¬(ofLiteral g text).Mismatches id := by
  rintro ⟨type, input, path, reason, h⟩
  unfold ofLiteral at h
  cases hk : g.kind <;> rw [hk] at h <;> cases h

end ParseFail

/-! ### The first item that is refused -/

/-- Of some items, each put to the type of its place, the first that is refused is the one with
the index `n`. -/
structure BreaksAt (type? : Nat → Option ArgType) (items : List Literal) (n : Nat) : Prop where
  refused : ∃ item type, items[n]? = some item ∧ type? n = some type ∧ type.takes item = false
  taken : ∀ k < n, ∃ item type, items[k]? = some item ∧ type? k = some type ∧
    type.takes item = true

namespace BreaksAt

variable {type? : Nat → Option ArgType} {type : ArgType} {item : Literal} {items : List Literal}
  {n : Nat}

theorem zero (ht : type? 0 = some type) (h : type.takes item = false) :
    BreaksAt type? (item :: items) 0 :=
  ⟨⟨item, type, rfl, ht, h⟩, fun k hk => absurd hk (Nat.not_lt_zero k)⟩

theorem succ (ht : type? 0 = some type) (h : type.takes item = true)
    (hn : BreaksAt (fun k => type? (k + 1)) items n) : BreaksAt type? (item :: items) (n + 1) := by
  refine ⟨hn.refused, fun k hk => ?_⟩
  cases k with
  | zero => exact ⟨item, type, rfl, ht, h⟩
  | succ k => exact hn.taken k (Nat.lt_of_succ_lt_succ hk)

/-- If the first item is taken, it is a later one that is refused. -/
theorem pos (hn : BreaksAt type? (item :: items) n) (ht : type? 0 = some type)
    (h : type.takes item = true) : 0 < n := by
  cases n with
  | succ n => exact Nat.succ_pos n
  | zero =>
    obtain ⟨x, u, hx, hu, hrefused⟩ := hn.refused
    cases hx
    rw [ht] at hu
    cases hu
    rw [h] at hrefused
    cases hrefused

theorem eq_zero (hn : BreaksAt type? (item :: items) n) (ht : type? 0 = some type)
    (h : type.takes item = false) : n = 0 := by
  cases n with
  | zero => rfl
  | succ n =>
    obtain ⟨x, u, hx, hu, htaken⟩ := hn.taken 0 (Nat.succ_pos n)
    cases hx
    rw [ht] at hu
    cases hu
    rw [h] at htaken
    cases htaken

end BreaksAt

namespace ArgType

theorem takes_of_convert {t : ArgType} {v : Literal} {w : Value} (h : t.convert v = .ok w) :
    t.takes v = true :=
  takes_iff.mpr ⟨w, h⟩

theorem takes_eq_false {t : ArgType} {v : Literal} :
    t.takes v = false ↔ ∃ m, t.convert v = .error m := by
  unfold takes
  cases t.convert v <;> simp [Except.toOption]

/-- The items of a list fail for the first that the type does not take. -/
theorem convertItems_breaks {element : ArgType} {m : TypeMismatch} :
    ∀ {i : Nat} {items : List Literal}, convertItems element i items = .error m →
      ∃ n, BreaksAt (fun _ => some element) items n ∧ m.path.head? = some (.index (i + n))
  | i, [], h => by
    rw [convertItems] at h
    cases h
  | i, item :: items, h => by
    rw [convertItems] at h
    cases hi : element.convert item with
    | error m' =>
      rw [hi] at h
      cases h
      exact ⟨0, .zero rfl (takes_eq_false.mpr ⟨m', hi⟩), rfl⟩
    | ok w =>
      rw [hi] at h
      obtain ⟨n, hn, hp⟩ := convertItems_breaks (error_of_map_eq_error h)
      exact ⟨n + 1, .succ rfl (takes_of_convert hi) hn, by rw [hp, Nat.add_right_comm, Nat.add_assoc]⟩

theorem convertPlaces_breaks {m : TypeMismatch} :
    ∀ {elements : List ArgType} {i : Nat} {items : List Literal}, elements.length = items.length →
      convertPlaces elements i items = .error m →
        ∃ n, BreaksAt (elements[·]?) items n ∧ m.path.head? = some (.index (i + n))
  | elements, i, [], _, h => by
    rw [convertPlaces] at h
    cases h
  | [], i, item :: items, hlen, _ => by cases hlen
  | element :: elements, i, item :: items, hlen, h => by
    rw [convertPlaces, List.headD_cons, List.tail_cons] at h
    cases hi : element.convert item with
    | error m' =>
      rw [hi] at h
      cases h
      exact ⟨0, .zero rfl (takes_eq_false.mpr ⟨m', hi⟩), rfl⟩
    | ok w =>
      rw [hi] at h
      obtain ⟨n, hn, hp⟩ := convertPlaces_breaks (Nat.succ.inj hlen) (error_of_map_eq_error h)
      exact ⟨n + 1, .succ rfl (takes_of_convert hi) hn, by rw [hp, Nat.add_right_comm, Nat.add_assoc]⟩

/-- A run that is one list fails as a whole, or for the first item that its place does not take. -/
theorem convert_listOfRun_breaks {t : ArgType} {items : List Literal} {m : TypeMismatch}
    (h : t.convert (listOfRun items) = .error m) :
    m.path = [] ∨ ∃ n, BreaksAt t.elementType? items n ∧ m.path.head? = some (.index n) := by
  by_cases hk : t.kind.accepts LiteralKind.list = true
  · cases t with
    | any => rw [convert_any] at h; cases h
    | list element =>
      rw [listOfRun, convert_list] at h
      obtain ⟨n, hn, hp⟩ := convertItems_breaks (error_of_map_eq_error h)
      exact .inr ⟨n, hn, by rw [hp, Nat.zero_add]⟩
    | exactList elements =>
      rw [listOfRun, convert_exactList] at h
      split at h
      · rename_i hlen
        obtain ⟨n, hn, hp⟩ := convertPlaces_breaks hlen (error_of_map_eq_error h)
        exact .inr ⟨n, hn, by rw [hp, Nat.zero_add]⟩
      · cases h
        exact .inl rfl
    | custom d =>
      have hd : d.kind.accepts (listOfRun items).kind = true := hk
      rw [convert_custom d hd] at h
      cases hc : d.convert (listOfRun items) with
      | ok w => rw [hc] at h; cases h
      | error reason =>
        rw [hc] at h
        cases h
        exact .inl rfl
    | _ => simp [kind, TypeKind.accepts] at hk
  · rw [convert_refused (by simpa [listOfRun, Literal.kind] using hk)] at h
    cases h
    exact .inl rfl

/-- A run that is one list begins with a value that its first place takes. -/
theorem takes_first {t type : ArgType} {v : Literal} {items : List Literal} {w : Value}
    (h : t.convert (listOfRun (v :: items)) = .ok w) (ht : t.elementType? 0 = some type) :
    type.takes v = true := by
  cases t with
  | any =>
    cases ht
    exact takes_of_convert (convert_any v)
  | list element =>
    cases ht
    rw [listOfRun, convert_list] at h
    obtain ⟨vs, hvs, -⟩ := exists_of_map_eq_ok h
    rw [convertItems] at hvs
    cases hv : type.convert v with
    | error m => rw [hv] at hvs; cases hvs
    | ok y => exact takes_of_convert hv
  | exactList elements =>
    obtain ⟨rest, rfl⟩ : ∃ rest, elements = type :: rest :=
      List.head?_eq_some_iff.mp (by rw [List.head?_eq_getElem?]; exact ht)
    rw [listOfRun, convert_exactList] at h
    split at h
    · obtain ⟨vs, hvs, -⟩ := exists_of_map_eq_ok h
      rw [convertPlaces, List.headD_cons] at hvs
      cases hv : type.convert v with
      | error m => rw [hv] at hvs; cases hvs
      | ok y => exact takes_of_convert hv
    · cases h
  | _ => cases ht

end ArgType

/-! ### Why an argument refuses a value -/

/-- The value begins a run: the argument takes the values behind it too. -/
def Argument.StartsRun (a : Argument) (v : Literal) : Prop :=
  a.multiplicity = .vararg ∨ a.multiplicity = .multiple ∧ BindEnv.startsListRun a v = true

theorem Argument.StartsRun.isMulti {a : Argument} {v : Literal} (hs : a.StartsRun v) :
    a.multiplicity.isMulti = true := by
  rcases hs with hm | ⟨hm, -⟩ <;> rw [hm] <;> rfl

/-- Where a list may come as a run, the run begins with a scalar. -/
theorem Argument.StartsRun.kind {a : Argument} {v : Literal} (hs : a.StartsRun v)
    (hm : a.multiplicity = .multiple) : v.kind = .scalar := by
  rcases hs with hvararg | ⟨-, h⟩
  · rw [hm] at hvararg
    cases hvararg
  · simpa using (Bool.and_eq_true_iff.mp h).1

/-- The literal has all the values of the argument in it, and what is refused is not its first
item: to the binder that is a run that has begun. -/
def Argument.Misreads (a : Argument) (v : Literal) : Prop :=
  a.multiplicity = .multiple ∧ v.kind ≠ .scalar ∧
    ∃ m segment, a.type.convert v = .error m ∧ m.path.head? = some segment ∧ segment ≠ .index 0

namespace BindEnv

variable {env : BindEnv} {s : BindState} {a : Argument} {t : Token} {c : TokenCursor} {v : Literal}
  {f : ParseFail}

/-- The run that begins with the value is taken at first, and a later value of it is refused. -/
def RunBreaks (env : BindEnv) (s : BindState) (v : Literal) (c : TokenCursor) (a : Argument) :
    Prop :=
  a.StartsRun v ∧ ∃ r n, env.runFrom s v c = .ok r ∧ 0 < n ∧ BreaksAt (runType? a) r.items n

/-- The argument does not take the value itself. Where the value begins a run, the run can be
read, and its first place refuses the value; or the argument refuses the list that the run is,
whatever its items are. -/
inductive Refuses (env : BindEnv) (s : BindState) (v : Literal) (c : TokenCursor) (a : Argument) :
    Prop
  | literal (hs : ¬a.StartsRun v) (h : a.type.takes v = false)
  | first {r : Run} {type : ArgType} (hs : a.StartsRun v) (hr : env.runFrom s v c = .ok r)
      (ht : runType? a 0 = some type) (h : type.takes v = false)
  | whole {r : Run} {m : TypeMismatch} (hs : a.StartsRun v) (hm : a.multiplicity = .multiple)
      (hr : env.runFrom s v c = .ok r) (h : a.type.convert (listOfRun r.items) = .error m)
      (hp : m.path = [])

/-! ### What an argument takes -/

/-- Converts a run: to a list of values, or to one value of a list type. -/
def convertRun (env : BindEnv) (a : Argument) (items : List Literal) : Except ParseFail Value :=
  if a.multiplicity = .vararg then (env.convertEach a 0 items).map .list
  else env.convert a (listOfRun items)

theorem takeValue_literal (env : BindEnv) (s : BindState) (c : TokenCursor)
    (hs : ¬a.StartsRun v) :
    env.takeValue s a v c = (env.convert a v).map fun w => ⟨v, w, .none, c⟩ := by
  unfold takeValue
  cases hm : a.multiplicity with
  | single => rfl
  | multiple => exact if_neg fun h => hs (.inr ⟨hm, h⟩)
  | vararg => exact absurd (.inl hm) hs

theorem takeValue_run (env : BindEnv) (s : BindState) (c : TokenCursor) (hs : a.StartsRun v) :
    env.takeValue s a v c =
      match env.runFrom s v c with
      | .error f => .error f
      | .ok r => (env.convertRun a r.items).map fun w =>
          ⟨listOfRun r.items, w, env.pendingAfter a 0 r, r.cursor⟩ := by
  unfold takeValue convertRun
  rcases hs with hm | ⟨hm, h⟩
  · rw [hm]
    cases env.runFrom s v c with
    | error f => rfl
    | ok r => dsimp only; rw [if_pos rfl]; cases env.convertEach a 0 r.items <;> rfl
  · rw [hm]
    dsimp only
    rw [if_pos h]
    rfl

theorem convert_error (h : env.convert a v = .error f) :
    ∃ m, a.type.convert v = .error m ∧ f = env.mismatch a m := by
  unfold convert at h
  cases hc : a.type.convert v with
  | ok w => rw [hc] at h; cases h
  | error m =>
    rw [hc] at h
    cases h
    exact ⟨m, rfl, rfl⟩

/-- The values of a vararg are converted as the items of a list are. -/
theorem convertEach_eq (env : BindEnv) (a : Argument) : ∀ (i : Nat) (items : List Literal),
    env.convertEach a i items = (a.type.convertItems i items).mapError (env.mismatch a)
  | i, [] => by rw [convertEach, ArgType.convertItems]; rfl
  | i, item :: items => by
    rw [convertEach, ArgType.convertItems, convertEach_eq env a (i + 1) items]
    cases a.type.convert item with
    | error m => rfl
    | ok w => cases ArgType.convertItems a.type (i + 1) items <;> rfl

theorem convertEach_breaks {i : Nat} {items : List Literal}
    (h : env.convertEach a i items = .error f) :
    ∃ m n, f = env.mismatch a m ∧ BreaksAt (fun _ => some a.type) items n ∧
      m.path.head? = some (.index (i + n)) := by
  rw [convertEach_eq] at h
  cases hc : a.type.convertItems i items with
  | ok ws => rw [hc] at h; cases h
  | error m =>
    rw [hc] at h
    cases h
    obtain ⟨n, hn, hp⟩ := ArgType.convertItems_breaks hc
    exact ⟨m, n, rfl, hn, hp⟩

theorem runType?_vararg (hm : a.multiplicity = .vararg) : runType? a = fun _ => some a.type := by
  funext n
  rw [runType?, hm]

theorem runType?_multiple (hm : a.multiplicity = .multiple) : runType? a = a.type.elementType? := by
  funext n
  rw [runType?, hm]

/-- A run is refused as one list, or for the first item that its place does not take. -/
theorem convertRun_breaks {items : List Literal} (hm : a.multiplicity.isMulti = true)
    (h : env.convertRun a items = .error f) :
    ∃ m, f = env.mismatch a m ∧
      ((a.multiplicity = .multiple ∧ a.type.convert (listOfRun items) = .error m ∧ m.path = []) ∨
        ∃ n, BreaksAt (runType? a) items n ∧ m.path.head? = some (.index n)) := by
  unfold convertRun at h
  split at h
  · rename_i hvararg
    obtain ⟨m, n, hf, hn, hp⟩ := convertEach_breaks (error_of_map_eq_error h)
    exact ⟨m, hf, .inr ⟨n, runType?_vararg hvararg ▸ hn, by rw [hp, Nat.zero_add]⟩⟩
  · rename_i hvararg
    have hmultiple : a.multiplicity = .multiple := by
      cases hmul : a.multiplicity with
      | single => rw [hmul] at hm; cases hm
      | multiple => rfl
      | vararg => exact absurd hmul hvararg
    obtain ⟨m, hc, hf⟩ := convert_error h
    refine ⟨m, hf, ?_⟩
    rcases ArgType.convert_listOfRun_breaks hc with hp | ⟨n, hn, hp⟩
    · exact .inl ⟨hmultiple, hc, hp⟩
    · exact .inr ⟨n, runType?_multiple hmultiple ▸ hn, hp⟩

/-- A run is not taken if its first place refuses the value that it begins with. -/
theorem convertRun_refuses {items : List Literal} {type : ArgType} (ht : runType? a 0 = some type)
    (h : type.takes v = false) : ∃ f, env.convertRun a (v :: items) = .error f := by
  cases hc : env.convertRun a (v :: items) with
  | error f => exact ⟨f, rfl⟩
  | ok w =>
    exfalso
    have htakes : type.takes v = true := by
      unfold convertRun at hc
      split at hc
      · rename_i hvararg
        rw [runType?_vararg hvararg] at ht
        cases ht
        obtain ⟨ws, hws, -⟩ := exists_of_map_eq_ok hc
        cases convertEach_eq_ok hws with
        | cons hv _ => exact ArgType.takes_of_convert hv
      · unfold runType? at ht
        split at ht
        · contradiction
        · exact ArgType.takes_first (convert_eq_ok hc) ht
        · cases ht
    rw [h] at htakes
    cases htakes

/-- The items of a run begin with the value that it begins with. -/
theorem items_of_runFrom {r : Run} (hr : env.runFrom s v c = .ok r) :
    ∃ items, r.items = v :: items := by
  obtain ⟨items, -, hitems, -⟩ := runFrom_used hr
  exact ⟨items, hitems⟩

/-- The path of a mismatch says that the first value is refused, except where the literal is
misread. -/
theorem rejectsFirst_literal {m : TypeMismatch} (hs : ¬a.StartsRun v)
    (h : a.type.convert v = .error m) :
    rejectsFirst a (env.mismatch a m) = true ↔ ¬a.Misreads v := by
  rw [rejectsFirst_mismatch]
  constructor
  · rintro hr ⟨hm, -, m', segment, hm', hp, hne⟩
    rw [h] at hm'
    cases hm'
    rw [hm, hp] at hr
    rcases hr with hr | hr | hr
    · cases hr
    · cases hr
    · exact hne (Option.some.inj hr)
  · intro hm
    cases hmul : a.multiplicity with
    | single => exact .inl rfl
    | vararg => exact absurd (.inl hmul) hs
    | multiple =>
      cases hp : m.path.head? with
      | none => exact .inr (.inl rfl)
      | some segment =>
        have hscalar : v.kind ≠ .scalar := by
          intro hk
          cases v with
          | scalar text span =>
            rw [ArgType.path_convert_scalar h] at hp
            cases hp
          | _ => cases hk
        have hzero : segment = .index 0 := by
          by_contra hne
          exact hm ⟨hmul, hscalar, m, segment, h, hp, hne⟩
        exact .inr (.inr (by rw [hzero]))

theorem takeRun_error (hs : a.StartsRun v) (h : env.takeValue s a v c = .error f) :
    env.runFrom s v c = .error f ∨
      ∃ r, env.runFrom s v c = .ok r ∧ env.convertRun a r.items = .error f := by
  rw [takeValue_run env s c hs] at h
  cases hr : env.runFrom s v c with
  | error g =>
    rw [hr] at h
    cases h
    exact .inl rfl
  | ok r =>
    rw [hr] at h
    exact .inr ⟨r, rfl, error_of_map_eq_error h⟩

theorem takeRun_of_error {r : Run} (hs : a.StartsRun v) (hr : env.runFrom s v c = .ok r)
    (h : env.convertRun a r.items = .error f) : env.takeValue s a v c = .error f := by
  rw [takeValue_run env s c hs, hr]
  dsimp only
  rw [h]
  rfl

/-- An argument fails for a mismatch, or the run cannot be read. -/
theorem takeValue_error (h : env.takeValue s a v c = .error f) :
    env.runFrom s v c = .error f ∨ ∃ m, f = env.mismatch a m := by
  by_cases hs : a.StartsRun v
  · refine (takeRun_error hs h).imp_right ?_
    rintro ⟨r, -, hc⟩
    obtain ⟨m, hf, -⟩ := convertRun_breaks hs.isMulti hc
    exact ⟨m, hf⟩
  · rw [takeValue_literal env s c hs] at h
    obtain ⟨m, -, hf⟩ := convert_error (error_of_map_eq_error h)
    exact .inr ⟨m, hf⟩

/-- A run is passed over if its argument takes nothing of it. -/
theorem takeRun_skips (hs : a.StartsRun v) :
    (∃ f, env.takeValue s a v c = .error f ∧ rejectsFirst a f = true) ↔ env.Refuses s v c a := by
  have hmulti : ¬a.multiplicity.isMulti = false := by simp [hs.isMulti]
  constructor
  · rintro ⟨f, h, hreject⟩
    rcases takeRun_error hs h with hr | ⟨r, hr, hc⟩
    · obtain ⟨g, rfl⟩ := runFrom_error hr
      rw [rejectsFirst_ofLiteral] at hreject
      cases hreject
    · obtain ⟨m, rfl, ⟨hm, hconv, hp⟩ | ⟨n, hn, hp⟩⟩ := convertRun_breaks hs.isMulti hc
      · exact .whole hs hm hr hconv hp
      · obtain rfl : n = 0 := by
          rw [rejectsFirst_mismatch, hp] at hreject
          simpa [hmulti] using hreject
        obtain ⟨items, hitems⟩ := items_of_runFrom hr
        obtain ⟨item, type, hitem, ht, hrefused⟩ := hn.refused
        rw [hitems] at hitem
        cases hitem
        exact .first hs hr ht hrefused
  · intro hrefuses
    cases hrefuses with
    | literal hn => exact absurd hs hn
    | @first r type _ hr ht h =>
      obtain ⟨items, hitems⟩ := items_of_runFrom hr
      obtain ⟨f, hf⟩ : ∃ f, env.convertRun a (v :: items) = .error f := convertRun_refuses ht h
      refine ⟨f, takeRun_of_error hs hr (hitems ▸ hf), ?_⟩
      obtain ⟨m, rfl, ⟨-, -, hp⟩ | ⟨n, hn, hp⟩⟩ := convertRun_breaks hs.isMulti hf
      · exact (rejectsFirst_mismatch env a m).mpr (.inr (.inl (by rw [hp]; rfl)))
      · rw [hn.eq_zero ht h] at hp
        exact (rejectsFirst_mismatch env a m).mpr (.inr (.inr hp))
    | @whole r m _ hm hr h hp =>
      have hc : env.convertRun a r.items = .error (env.mismatch a m) := by
        rw [convertRun, if_neg (by simp [hm]), convert, h]
        rfl
      exact ⟨_, takeRun_of_error hs hr hc,
        (rejectsFirst_mismatch env a m).mpr (.inr (.inl (by rw [hp]; rfl)))⟩

/-- A literal that begins no run is passed over if it is refused, and not misread. -/
theorem takeLiteral_skips (hs : ¬a.StartsRun v) :
    (∃ f, env.takeValue s a v c = .error f ∧ rejectsFirst a f = true) ↔
      a.type.takes v = false ∧ ¬a.Misreads v := by
  rw [takeValue_literal env s c hs]
  constructor
  · rintro ⟨f, h, hreject⟩
    obtain ⟨m, hc, rfl⟩ := convert_error (error_of_map_eq_error h)
    exact ⟨ArgType.takes_eq_false.mpr ⟨m, hc⟩, (rejectsFirst_literal hs hc).mp hreject⟩
  · rintro ⟨h, hm⟩
    obtain ⟨m, hc⟩ := ArgType.takes_eq_false.mp h
    exact ⟨env.mismatch a m, by rw [convert, hc]; rfl, (rejectsFirst_literal hs hc).mpr hm⟩

/-- An optional argument is passed over if it takes nothing of what it is offered: it does not
take the value itself, and the value is not a literal that is misread. -/
theorem takeValue_skips : (∃ f, env.takeValue s a v c = .error f ∧ rejectsFirst a f = true) ↔
    env.Refuses s v c a ∧ ¬a.Misreads v := by
  by_cases hs : a.StartsRun v
  · rw [takeRun_skips hs]
    exact (and_iff_left fun hm => hm.2.1 (hs.kind hm.1)).symm
  · rw [takeLiteral_skips hs]
    refine and_congr_left fun _ => ⟨.literal hs, fun hrefuses => ?_⟩
    cases hrefuses with
    | literal _ h => exact h
    | first h => exact absurd h hs
    | whole h => exact absurd h hs

/-- An argument that fails otherwise has begun to bind a run, or misreads the literal. Or else
the run cannot be read. -/
theorem takeValue_fails (h : env.takeValue s a v c = .error f) (hreject : rejectsFirst a f = false) :
    env.runFrom s v c = .error f ∨
      ∃ m, f = env.mismatch a m ∧ (env.RunBreaks s v c a ∨ a.Misreads v) := by
  by_cases hs : a.StartsRun v
  · refine (takeRun_error hs h).imp_right ?_
    rintro ⟨r, hr, hc⟩
    obtain ⟨m, rfl, ⟨-, -, hp⟩ | ⟨n, hn, hp⟩⟩ := convertRun_breaks hs.isMulti hc
    · have hwhole : rejectsFirst a (env.mismatch a m) = true :=
        (rejectsFirst_mismatch env a m).mpr (.inr (.inl (by rw [hp]; rfl)))
      rw [hwhole] at hreject
      cases hreject
    · have hpos : 0 < n := by
        by_contra hzero
        obtain rfl : n = 0 := by omega
        have hfirst : rejectsFirst a (env.mismatch a m) = true :=
          (rejectsFirst_mismatch env a m).mpr (.inr (.inr hp))
        rw [hfirst] at hreject
        cases hreject
      exact ⟨m, rfl, .inl ⟨hs, r, n, hr, hpos, hn⟩⟩
  · rw [takeValue_literal env s c hs] at h
    obtain ⟨m, hc, rfl⟩ := convert_error (error_of_map_eq_error h)
    have hmisreads : a.Misreads v := by
      by_contra hm
      rw [(rejectsFirst_literal hs hc).mpr hm] at hreject
      cases hreject
    exact .inr ⟨m, rfl, .inr hmisreads⟩

/-! ### The arguments in order -/

/-- The argument is passed over. -/
structure Skips (env : BindEnv) (s : BindState) (v : Literal) (c : TokenCursor) (a : Argument) :
    Prop where
  optional : a.isOptional = true
  refuses : env.Refuses s v c a
  reads : ¬a.Misreads v

/-- The arguments in front that are passed over are as if they were not there. -/
theorem offer_skips : ∀ {before after : List Argument}, (∀ b ∈ before, env.Skips s v c b) →
    env.offer s v c (before ++ after) = env.offer s v c after
  | [], _, _ => rfl
  | b :: before, after, h => by
    have hb := h b List.mem_cons_self
    obtain ⟨f, hf, hreject⟩ := takeValue_skips.mpr ⟨hb.refuses, hb.reads⟩
    rw [List.cons_append, offer, hf]
    dsimp only
    rw [hb.optional, hreject, Bool.and_self, if_pos rfl]
    exact offer_skips fun b' hb' => h b' (List.mem_cons_of_mem b hb')

/-- A value fails an argument behind others that are passed over. -/
theorem offer_eq_error : ∀ {as : List Argument}, env.offer s v c as = .error f →
    ∃ before a after, as = before ++ a :: after ∧ (∀ b ∈ before, env.Skips s v c b) ∧
      env.takeValue s a v c = .error f ∧ (a.isOptional = true → rejectsFirst a f = false)
  | [], h => by cases h
  | a :: as, h => by
    rw [offer] at h
    cases hk : env.takeValue s a v c with
    | ok k => rw [hk] at h; cases h
    | error g =>
      rw [hk] at h
      dsimp only at h
      split at h
      · rename_i hskip
        obtain ⟨ho, hreject⟩ := Bool.and_eq_true_iff.mp hskip
        obtain ⟨hrefuses, hreads⟩ := takeValue_skips.mp ⟨g, hk, hreject⟩
        obtain ⟨before, b, after, rfl, hbefore, hb⟩ := offer_eq_error h
        refine ⟨a :: before, b, after, rfl, ?_, hb⟩
        exact List.forall_mem_cons.mpr ⟨⟨ho, hrefuses, hreads⟩, hbefore⟩
      · rename_i hskip
        cases h
        refine ⟨[], a, as, rfl, List.forall_mem_nil _, hk, fun ho => ?_⟩
        simpa [ho] using hskip

/-- A value that nobody takes has been passed over by all. -/
theorem offer_eq_none : ∀ {as : List Argument}, env.offer s v c as = .ok none →
    ∀ a ∈ as, env.Skips s v c a
  | [], _ => fun a ha => by cases ha
  | a :: as, h => by
    rw [offer] at h
    cases hk : env.takeValue s a v c with
    | ok k => rw [hk] at h; cases h
    | error g =>
      rw [hk] at h
      dsimp only at h
      split at h
      · rename_i hskip
        obtain ⟨ho, hreject⟩ := Bool.and_eq_true_iff.mp hskip
        obtain ⟨hrefuses, hreads⟩ := takeValue_skips.mp ⟨g, hk, hreject⟩
        exact List.forall_mem_cons.mpr ⟨⟨ho, hrefuses, hreads⟩, offer_eq_none h⟩
      · cases h

/-- An open run that goes on with a value fails for a later one. -/
theorem extendRun_eq_error (hrun : s.RunsVararg) (h : env.extendRun s v c = .error f) :
    env.runFrom s v c = .error f ∨
      ∃ a m, s.openRun = some a ∧ f = env.mismatch a m ∧ env.RunBreaks s v c a := by
  unfold extendRun at h
  split at h
  · cases h
  · rename_i a ha
    split at h
    · cases h
    · rename_i b _
      split at h
      · rename_i htakes
        split at h
        · rename_i g hg
          cases h
          exact .inl hg
        · rename_i r hr
          obtain ⟨m, n, hf, hn, -⟩ := convertEach_breaks (error_of_map_eq_error h)
          obtain ⟨items, hitems⟩ := items_of_runFrom hr
          have hpos : 0 < n := BreaksAt.pos (hitems ▸ hn) rfl htakes
          rw [← runType?_vararg (hrun a ha).1] at hn
          exact .inr ⟨a, m, ha, hf, .inl (hrun a ha).1, r, n, hr, hpos, hn⟩
      · cases h

theorem extendRun_refused (h : ∀ a ∈ s.openRun, a.type.takes v = false) :
    env.extendRun s v c = .ok none := by
  unfold extendRun
  cases ha : s.openRun with
  | none => rfl
  | some a =>
    dsimp only
    cases s.bound.find? fun b => b.id == a.id with
    | none => rfl
    | some b => exact if_neg (by simp [h a ha])

theorem bindToken_unnamed (hk : t.kind = .value v)
    (hb : flagBundle? env.policy (env.remaining s) t = none) :
    env.bindToken s t c = env.bindUnnamed s v c := by
  rw [bindToken, hk]
  dsimp only
  rw [hb]

/-- A value behind arguments that are passed over is offered to the others, and to the open run
if none of them takes it. -/
theorem bindToken_skips (hk : t.kind = .value v)
    (hb : flagBundle? env.policy (env.remaining s) t = none) {before after : List Argument}
    (has : env.remaining s = before ++ after) (h : ∀ b ∈ before, env.Skips s v c b) :
    env.bindToken s t c =
      match env.offer s v c after with
      | .error f => .error f
      | .ok (some r) => .ok (some r)
      | .ok none => env.extendRun s v c := by
  rw [bindToken_unnamed hk hb, bindUnnamed, has]
  cases hr : env.offer s v c after with
  | error f => simp only [offer_skips h, hr]
  | ok o => cases o <;> simp only [offer_skips h, hr]

/-- A value that nobody takes is left over. -/
theorem bindToken_left (hk : t.kind = .value v)
    (hb : flagBundle? env.policy (env.remaining s) t = none)
    (h : ∀ a ∈ env.remaining s, env.Skips s v c a) (hrun : ∀ a ∈ s.openRun, a.type.takes v = false) :
    env.bindToken s t c = .ok none := by
  rw [bindToken_skips hk hb (List.append_nil _).symm h, offer, extendRun_refused hrun]

/-- The arguments that an unnamed value may fail, and why. The arguments in front have been passed
over. -/
inductive FailsFor (env : BindEnv) (s : BindState) (v : Literal) (c : TokenCursor) (id : String) :
    Prop
  /-- The argument has to be given, and cannot be passed over. -/
  | required {before after : List Argument} {a : Argument}
      (has : env.remaining s = before ++ a :: after) (hbefore : ∀ b ∈ before, env.Skips s v c b)
      (hid : a.id = id) (ho : a.isOptional = false)
  /-- A later value of the run is refused. -/
  | run {before after : List Argument} {a : Argument}
      (has : env.remaining s = before ++ a :: after) (hbefore : ∀ b ∈ before, env.Skips s v c b)
      (hid : a.id = id) (h : env.RunBreaks s v c a)
  /-- A literal is taken for a run. -/
  | misread {before after : List Argument} {a : Argument}
      (has : env.remaining s = before ++ a :: after) (hbefore : ∀ b ∈ before, env.Skips s v c b)
      (hid : a.id = id) (h : a.Misreads v)
  /-- The open run has gone on, and a later value is refused. -/
  | openRun {a : Argument} (ha : s.openRun = some a)
      (hbefore : ∀ b ∈ env.remaining s, env.Skips s v c b) (hid : a.id = id)
      (h : env.RunBreaks s v c a)

/-- **An unnamed value is a mismatch for a required argument, or for one that has begun to bind a
run, or that misreads it.** -/
theorem bindToken_mismatch (hk : t.kind = .value v)
    (hb : flagBundle? env.policy (env.remaining s) t = none) (hrun : s.RunsVararg)
    (h : env.bindToken s t c = .error f) {id : String} (hf : f.Mismatches id) :
    env.FailsFor s v c id := by
  have hread : env.runFrom s v c ≠ .error f := by
    intro hr
    obtain ⟨g, rfl⟩ := runFrom_error hr
    exact ParseFail.not_mismatches_ofLiteral hf
  have hid : ∀ {a : Argument} {m : TypeMismatch}, f = env.mismatch a m → a.id = id := by
    rintro a m rfl
    obtain ⟨type, input, path, reason, hkind⟩ := hf
    cases hkind
    rfl
  rw [bindToken_unnamed hk hb, bindUnnamed] at h
  split at h
  · rename_i g hg
    cases h
    obtain ⟨before, a, after, has, hbefore, ha, hreject⟩ := offer_eq_error hg
    obtain ⟨m, hf'⟩ := (takeValue_error ha).resolve_left hread
    cases ho : a.isOptional with
    | false => exact .required has hbefore (hid hf') ho
    | true =>
      obtain ⟨m', -, hbreaks | hmisreads⟩ :=
        (takeValue_fails ha (hreject ho)).resolve_left hread
      · exact .run has hbefore (hid hf') hbreaks
      · exact .misread has hbefore (hid hf') hmisreads
  · cases h
  · rename_i hnone
    obtain ⟨a, m, ha, hf', hbreaks⟩ := (extendRun_eq_error hrun h).resolve_left hread
    exact .openRun ha (offer_eq_none hnone) (hid hf') hbreaks

end BindEnv
end CommandConsole
