/-
# Binding a line that is cut off

The tokens of a line are bound in every beginning of it as they are in the
whole line, up to the place where it is cut off. There a name or a flag may
wait for its value, a switch has none, and a run is shorter. A shorter run
converts if the longer one does, and is refused for its first value if the
longer one is, unless it is a list with a fixed number of places: only the whole
list converts.

Key definitions: `Argument.Gradual`, `Run.CutsTo`, `BindEnv.CutsTo`.
Key theorems: `BindEnv.takeValue_cut`, `BindEnv.takeValue_refused_cut`, `BindEnv.bindToken_cut`,
`BindEnv.bindTokens_cut`.
-/
import CommandConsole.Proofs.Binding.Resumption

namespace CommandConsole

/-- If the argument takes a run as one list, a run of one value is enough for the list. -/
def Argument.Gradual (a : Argument) : Prop :=
  a.multiplicity = .multiple → a.type.kind = .list →
    (∃ element, a.type = .list element) ∨
      ∃ elements, a.type = .exactList elements ∧ elements.length ≤ 1

/-- The place in the line that goes on with `e`. -/
def TokenCursor.onto (c : TokenCursor) (e : Tokens) : TokenCursor := ⟨c.position, c.tokens.onto e⟩

/-! ### Beginnings of runs -/

/-- The run `r` of a line that goes on with `e` is `q` where the line is cut off: the same run, or
the beginning of it up to the cut. -/
inductive Run.CutsTo (e : Tokens) : Run → Run → Prop
  | same (q : Run) : Run.CutsTo e { q with cursor := q.cursor.onto e } q
  | ended {r q : Run} (h : q.items <+: r.items) (hf : q.cursor.tokens.isFinished = true) :
      Run.CutsTo e r q

theorem Run.CutsTo.cons {e : Tokens} {r q : Run} (h : r.CutsTo e q) (v : Literal) :
    Run.CutsTo e { r with items := v :: r.items } { q with items := v :: q.items } := by
  cases h with
  | same => exact .same { q with items := v :: q.items }
  | ended h hf => exact .ended ((List.prefix_cons_inj v).mpr h) hf

theorem collectRun_cut {e : Tokens} {stops : Token → Bool} : ∀ {p : Nat} {ts : Tokens} {r : Run},
    collectRun stops p (ts.onto e) = .ok r → ∃ q, collectRun stops p ts = .ok q ∧ r.CutsTo e q
  | p, .finished stop, r, _ => ⟨_, rfl, .ended List.nil_prefix rfl⟩
  | p, .broken start f, r, h => by cases h
  | p, .more t rest, r, h => by
    rw [Tokens.onto, collectRun] at h
    rw [collectRun]
    cases hk : t.kind with
    | separator =>
      rw [hk] at h
      cases h
      exact ⟨_, rfl, .same ⟨[], ⟨p, .more t rest⟩, false⟩⟩
    | named name assigned =>
      rw [hk] at h
      cases h
      exact ⟨_, rfl, .same ⟨[], ⟨p, .more t rest⟩, false⟩⟩
    | value v =>
      rw [hk] at h
      dsimp only at h ⊢
      by_cases hs : stops t = true
      · rw [if_pos hs] at h ⊢
        cases h
        exact ⟨_, rfl, .same ⟨[], ⟨p, .more t rest⟩, false⟩⟩
      · rw [if_neg hs] at h ⊢
        obtain ⟨r, hr, rfl⟩ := exists_of_map_eq_ok h
        obtain ⟨q, hq, hcut⟩ := collectRun_cut hr
        exact ⟨_, by rw [hq]; rfl, hcut.cons v⟩

namespace ArgType

theorem convertItems_of_append {element : ArgType} : ∀ {i : Nat} {items more : List Literal}
    {vs : List Value}, convertItems element i (items ++ more) = .ok vs →
      ∃ ws, convertItems element i items = .ok ws
  | i, [], more, vs, _ => ⟨[], by rw [convertItems]⟩
  | i, item :: items, more, vs, h => by
    rw [List.cons_append, convertItems] at h
    rw [convertItems]
    cases hi : element.convert item with
    | error m => rw [hi] at h; cases h
    | ok w =>
      rw [hi] at h
      obtain ⟨ws, hws, rfl⟩ := exists_of_map_eq_ok h
      obtain ⟨us, hus⟩ := convertItems_of_append hws
      exact ⟨w :: us, by rw [hus]; rfl⟩

/-- A list is refused as a whole if it has another length, and one with one place for its first
value otherwise. -/
theorem convert_exactList_error {elements : List ArgType} (hlen : elements.length ≤ 1)
    {item : Literal} {items : List Literal} {span : Span} {m : TypeMismatch}
    (h : (exactList elements).convert (.list (item :: items) span) = .error m) :
    m.path.head? = none ∨ m.path.head? = some (.index 0) := by
  rw [convert_exactList] at h
  split at h
  · rename_i hplaces
    rw [List.length_cons] at hplaces
    obtain ⟨element, rfl⟩ := List.length_eq_one_iff.mp (show elements.length = 1 by omega)
    obtain rfl : items = [] := List.length_eq_zero_iff.mp (by simpa using hplaces)
    rw [convertPlaces, List.headD_cons] at h
    cases hc : element.convert item with
    | error m' =>
      rw [hc] at h
      cases h
      exact .inr rfl
    | ok w =>
      rw [hc, convertPlaces] at h
      cases h
  · cases h
    exact .inl rfl

end ArgType

namespace BindEnv

variable {env : BindEnv} {text : String} {s : BindState} {a : Argument} {t : Token}
  {c : TokenCursor} {v : Literal} {e : Tokens}

/-- A run that is one list converts if a longer one does. -/
theorem convert_listOfRun_cut (hg : a.Gradual) (hmul : a.multiplicity = .multiple)
    (hkind : a.type.kind = .list) {items more : List Literal} {w : Value}
    (h : env.convert a (listOfRun (v :: (items ++ more))) = .ok w) :
    ∃ w', (env.inText text).convert a (listOfRun (v :: items)) = .ok w' := by
  have h' := convert_eq_ok h
  rcases hg hmul hkind with ⟨element, ht⟩ | ⟨elements, ht, hlen⟩
  · rw [ht, listOfRun, ArgType.convert_list, ← List.cons_append] at h'
    obtain ⟨vs, hvs, -⟩ := exists_of_map_eq_ok h'
    obtain ⟨ws, hws⟩ := ArgType.convertItems_of_append hvs
    refine ⟨.list ws, convert_of_eq_ok ?_⟩
    rw [ht, listOfRun, ArgType.convert_list, hws]
    rfl
  · -- there is one place, and the longer run fills it
    rw [ht, listOfRun] at h'
    have hplaces := ArgType.length_of_convert_exactList h'
    rw [List.length_cons, List.length_append] at hplaces
    obtain rfl : items = [] := List.length_eq_zero_iff.mp (by omega)
    obtain rfl : more = [] := List.length_eq_zero_iff.mp (by omega)
    exact ⟨w, convert_inText h⟩

/-- A run that is one list is refused for its first value if a longer one is, or it is converted. -/
theorem convert_listOfRun_refused_cut (hg : a.Gradual) (hmul : a.multiplicity = .multiple)
    (hkind : a.type.kind = .list) {items more : List Literal} {f : ParseFail}
    (h : env.convert a (listOfRun (v :: (items ++ more))) = .error f)
    (hr : rejectsFirst a f = true) :
    (∃ w, (env.inText text).convert a (listOfRun (v :: items)) = .ok w) ∨
      ∃ f', (env.inText text).convert a (listOfRun (v :: items)) = .error f' ∧
        rejectsFirst a f' = true := by
  have hmulti : a.multiplicity.isMulti = true := by
    rw [hmul]
    rfl
  rcases hg hmul hkind with ⟨element, ht⟩ | ⟨elements, ht, hlen⟩
  · exact .inr (convert_list_rejects hmulti ht h hr _ items)
  · cases hc : (ArgType.exactList elements).convert (listOfRun (v :: items)) with
    | ok w => exact .inl ⟨w, convert_of_eq_ok (ht ▸ hc)⟩
    | error m =>
      refine .inr ⟨(env.inText text).mismatch a m, ?_, (rejectsFirst_mismatch _ a m).mpr (.inr ?_)⟩
      · rw [convert, ht, hc]
        rfl
      · exact ArgType.convert_exactList_error hlen hc

/-! ### Values -/

/-- What is left behind by a part of the binder in the line that is cut off, beside what it leaves
behind in the line that goes on with `e`: the same, or nothing of the line. -/
def CutsTo (e : Tokens) (r q : Bound) : Prop :=
  r = (q.1, q.2.onto e) ∨ q.2.tokens.isFinished = true

theorem runFrom_cut (text : String) {r : Run} (h : env.runFrom s v (c.onto e) = .ok r) :
    ∃ q, (env.inText text).runFrom s v c = .ok q ∧ r.CutsTo e q := by
  unfold runFrom at h
  split at h
  · cases h
  · rename_i r hr
    cases h
    obtain ⟨q, hq, hcut⟩ := collectRun_cut hr
    refine ⟨{ q with items := v :: q.items }, ?_, hcut.cons v⟩
    have hq' : collectRun (fun t => (flagBundle? (env.inText text).policy
        ((env.inText text).remaining s) t).isSome) c.position c.tokens = .ok q := hq
    unfold runFrom
    rw [hq']

/-- A run and the shorter run where the line is cut off begin with the same value. -/
theorem items_of_cut {r q : Run} (hq : (env.inText text).runFrom s v c = .ok q)
    (hp : q.items <+: r.items) :
    ∃ items more, q.items = v :: items ∧ r.items = v :: (items ++ more) := by
  obtain ⟨items, -, hitems, -⟩ := runFrom_used hq
  obtain ⟨more, hmore⟩ := hp
  exact ⟨items, more, hitems, by rw [← hmore, hitems, List.cons_append]⟩

/-- What an argument takes where the line is cut off, beside what it takes in the whole line. -/
def TakesCut (e : Tokens) (k k' : Taken) : Prop :=
  k = { k' with cursor := k'.cursor.onto e } ∨ k'.cursor.tokens.isFinished = true

/-- An argument that takes a run takes the beginning of it. `conv` and `conv'` convert the items of
the run, in the one line and in the other. -/
theorem takeRun_cut {α : Type} (val : α → Value) {conv conv' : List Literal → Except ParseFail α}
    (hsame : ∀ items w, conv items = .ok w → conv' items = .ok w)
    (hless : ∀ items more w, conv (v :: (items ++ more)) = .ok w →
      ∃ w', conv' (v :: items) = .ok w')
    {r : Run} (hr : env.runFrom s v (c.onto e) = .ok r) {w : α} (hv : conv r.items = .ok w) :
    ∃ k', (match (env.inText text).runFrom s v c with
        | .error f => Except.error f
        | .ok q => (conv' q.items).map fun w =>
          (⟨listOfRun q.items, val w, (env.inText text).pendingAfter a 0 q, q.cursor⟩ : Taken)) =
            .ok k' ∧
      TakesCut e ⟨listOfRun r.items, val w, env.pendingAfter a 0 r, r.cursor⟩ k' := by
  obtain ⟨q, hq, hcut⟩ := runFrom_cut text hr
  rw [hq]
  dsimp only
  cases hcut with
  | same =>
    rw [hsame _ _ hv]
    exact ⟨_, rfl, .inl rfl⟩
  | ended hp hf =>
    obtain ⟨items, more, hitems, hmore⟩ := items_of_cut hq hp
    rw [hmore] at hv
    obtain ⟨w', hw'⟩ := hless _ _ _ hv
    rw [hitems, hw']
    exact ⟨_, rfl, .inr hf⟩

theorem convertEach_of_append (text : String) : ∀ {i : Nat} {items more : List Literal}
    {ws : List Value}, env.convertEach a i (items ++ more) = .ok ws →
      ∃ ws', (env.inText text).convertEach a i items = .ok ws'
  | i, [], more, ws, _ => ⟨[], rfl⟩
  | i, item :: items, more, ws, h => by
    rw [List.cons_append, convertEach] at h
    rw [convertEach]
    cases hi : a.type.convert item with
    | error m => rw [hi] at h; cases h
    | ok w =>
      rw [hi] at h
      obtain ⟨ws, hws, rfl⟩ := exists_of_map_eq_ok h
      obtain ⟨us, hus⟩ := convertEach_of_append text hws
      exact ⟨w :: us, by rw [hus]; rfl⟩

/-- An argument that takes a value takes it where the line is cut off. -/
theorem takeValue_cut (text : String) (hg : a.Gradual) {k : Taken}
    (h : env.takeValue s a v (c.onto e) = .ok k) :
    ∃ k', (env.inText text).takeValue s a v c = .ok k' ∧ TakesCut e k k' := by
  have hone : ∀ {w : Value}, env.convert a v = .ok w →
      ∃ k', ((env.inText text).convert a v).map (fun w => (⟨v, w, .none, c⟩ : Taken)) = .ok k' ∧
        TakesCut e ⟨v, w, .none, c.onto e⟩ k' := by
    intro w hw
    rw [convert_inText hw]
    exact ⟨_, rfl, .inl rfl⟩
  unfold takeValue at h ⊢
  cases hmul : a.multiplicity with
  | single =>
    rw [hmul] at h
    obtain ⟨w, hv, rfl⟩ := exists_of_map_eq_ok h
    exact hone hv
  | multiple =>
    rw [hmul] at h
    dsimp only at h ⊢
    by_cases hl : startsListRun a v = true
    · rw [if_pos hl] at h ⊢
      have hkind : a.type.kind = .list := by
        simpa using (Bool.and_eq_true_iff.mp hl).2
      split at h
      · cases h
      · rename_i r hr
        obtain ⟨w, hv, rfl⟩ := exists_of_map_eq_ok h
        exact takeRun_cut id (fun items w => convert_inText)
          (fun items more w => convert_listOfRun_cut hg hmul hkind) hr hv
    · rw [if_neg hl] at h ⊢
      obtain ⟨w, hv, rfl⟩ := exists_of_map_eq_ok h
      exact hone hv
  | vararg =>
    rw [hmul] at h
    dsimp only at h ⊢
    split at h
    · cases h
    · rename_i r hr
      obtain ⟨ws, hv, rfl⟩ := exists_of_map_eq_ok h
      have hsame : ∀ items ws, env.convertEach a 0 items = .ok ws →
          (env.inText text).convertEach a 0 items = .ok ws := fun items ws => convertEach_inText
      exact takeRun_cut .list hsame
        (fun items more ws h => convertEach_of_append text (List.cons_append ▸ h)) hr hv

/-- A run that is refused for its first value is refused where the line is cut off, or it is taken
there up to the end. -/
theorem refuseRun_cut {α : Type} {mk mk' : Run → α → Taken}
    (hmk : ∀ r w, (mk' r w).cursor = r.cursor)
    (conv conv' : List Literal → Except ParseFail α) {f : ParseFail}
    (hsame : ∀ items, conv items = .error f →
      ∃ f', conv' items = .error f' ∧ rejectsFirst a f' = true)
    (hless : ∀ items more, conv (v :: (items ++ more)) = .error f →
      (∃ w, conv' (v :: items) = .ok w) ∨
        ∃ f', conv' (v :: items) = .error f' ∧ rejectsFirst a f' = true)
    (h : (match env.runFrom s v (c.onto e) with
      | .error f => Except.error f
      | .ok r => (conv r.items).map (mk r)) = .error f) (hr : rejectsFirst a f = true) :
    (∃ k', (match (env.inText text).runFrom s v c with
      | .error f => Except.error f
      | .ok r => (conv' r.items).map (mk' r)) = .ok k' ∧ k'.cursor.tokens.isFinished = true) ∨
    ∃ f', (match (env.inText text).runFrom s v c with
      | .error f => Except.error f
      | .ok r => (conv' r.items).map (mk' r)) = .error f' ∧ rejectsFirst a f' = true := by
  cases hrun : env.runFrom s v (c.onto e) with
  | error g =>
    rw [hrun] at h
    cases h
    obtain ⟨g', rfl⟩ := runFrom_error hrun
    rw [rejectsFirst_ofLiteral] at hr
    cases hr
  | ok r =>
    rw [hrun] at h
    have hconv : conv r.items = .error f := by
      cases hc : conv r.items with
      | ok w => simp only [hc] at h; cases h
      | error g => simp only [hc] at h; cases h; rfl
    obtain ⟨q, hq, hcut⟩ := runFrom_cut text hrun
    rw [hq]
    dsimp only
    cases hcut with
    | same =>
      obtain ⟨f', hf', hr'⟩ := hsame _ hconv
      rw [hf']
      exact .inr ⟨f', rfl, hr'⟩
    | ended hp hf =>
      obtain ⟨items, more, hitems, hmore⟩ := items_of_cut hq hp
      rw [hmore] at hconv
      rw [hitems]
      rcases hless _ _ hconv with ⟨w, hw⟩ | ⟨f', hf', hr'⟩
      · rw [hw]
        exact .inl ⟨_, rfl, by rw [hmk]; exact hf⟩
      · rw [hf']
        exact .inr ⟨f', rfl, hr'⟩

/-- An optional argument that refuses a value refuses it where the line is cut off, or takes all
that is left there. -/
theorem takeValue_refused_cut (text : String) (hg : a.Gradual) {f : ParseFail}
    (h : env.takeValue s a v (c.onto e) = .error f) (hr : rejectsFirst a f = true) :
    (∃ k', (env.inText text).takeValue s a v c = .ok k' ∧ k'.cursor.tokens.isFinished = true) ∨
      ∃ f', (env.inText text).takeValue s a v c = .error f' ∧ rejectsFirst a f' = true := by
  have hconvert : ∀ {input : Literal}, env.convert a input = .error f →
      ∃ f', (env.inText text).convert a input = .error f' ∧ rejectsFirst a f' = true := by
    intro input hc
    obtain ⟨f', hf', hk⟩ := convert_error_inText text hc
    exact ⟨f', hf', by rw [rejectsFirst_congr hk, hr]⟩
  have hone : (env.convert a v).map (fun w => (⟨v, w, .none, c.onto e⟩ : Taken)) = .error f →
      ∃ f', ((env.inText text).convert a v).map (fun w => (⟨v, w, .none, c⟩ : Taken)) = .error f' ∧
        rejectsFirst a f' = true := by
    intro hmap
    cases hc : env.convert a v with
    | ok w => rw [hc] at hmap; cases hmap
    | error g =>
      rw [hc] at hmap
      cases hmap
      obtain ⟨f', hf', hr'⟩ := hconvert hc
      exact ⟨f', by rw [hf']; rfl, hr'⟩
  unfold takeValue at h ⊢
  cases hmul : a.multiplicity with
  | single =>
    rw [hmul] at h
    exact .inr (hone h)
  | multiple =>
    rw [hmul] at h
    dsimp only at h ⊢
    by_cases hl : startsListRun a v = true
    · rw [if_pos hl] at h ⊢
      have hkind : a.type.kind = .list := by
        simpa using (Bool.and_eq_true_iff.mp hl).2
      exact refuseRun_cut (fun _ _ => rfl) (fun items => env.convert a (listOfRun items))
        (fun items => (env.inText text).convert a (listOfRun items)) (fun items => hconvert)
        (fun items more hc => convert_listOfRun_refused_cut hg hmul hkind hc hr) h hr
    · rw [if_neg hl] at h ⊢
      exact .inr (hone h)
  | vararg =>
    rw [hmul] at h
    dsimp only at h ⊢
    have hmulti : a.multiplicity.isMulti = true := by
      rw [hmul]
      rfl
    refine refuseRun_cut (fun _ _ => rfl) (env.convertEach a 0) ((env.inText text).convertEach a 0)
      (fun items hc => ?_)
      (fun items more hc => .inr (convertEach_rejects hmulti hc hr (env.inText text) items)) h hr
    cases items with
    | nil => cases hc
    | cons first rest => exact convertEach_rejects hmulti hc hr (env.inText text) rest

/-! ### Tokens -/

variable {r : Bound} {o : Option Bound}

/-- So it is if there may be no result: there is none in both lines, or some in both, unless the
line that is cut off ends. -/
def CutsToToken (e : Tokens) (o o' : Option Bound) : Prop :=
  o = o'.map (fun q => (q.1, q.2.onto e)) ∨ ∃ q ∈ o', q.2.tokens.isFinished = true

theorem CutsTo.of_taken {k k' : Taken} {origin : BindOrigin} (h : TakesCut e k k') :
    CutsTo e (record s a origin k, k.cursor) (record s a origin k', k'.cursor) := by
  rcases h with rfl | hf
  · exact .inl rfl
  · exact .inr hf

theorem CutsTo.some {q : Bound} (h : CutsTo e r q) : CutsToToken e (some r) (some q) := by
  rcases h with rfl | hf
  · exact .inl rfl
  · exact .inr ⟨q, rfl, hf⟩

theorem offer_cut (text : String) : ∀ {as : List Argument} {o : Option Bound},
    (∀ a ∈ as, a.Gradual) → env.offer s v (c.onto e) as = .ok o →
      ∃ o', (env.inText text).offer s v c as = .ok o' ∧ CutsToToken e o o'
  | [], o, _, h => by
    cases h
    exact ⟨none, rfl, .inl rfl⟩
  | a :: as, o, hg, h => by
    obtain ⟨ha, has⟩ := List.forall_mem_cons.mp hg
    rw [offer] at h
    rw [offer]
    cases hk : env.takeValue s a v (c.onto e) with
    | ok k =>
      rw [hk] at h
      cases h
      obtain ⟨k', hk', hcut⟩ := takeValue_cut text ha hk
      rw [hk']
      exact ⟨_, rfl, (CutsTo.of_taken hcut).some⟩
    | error f =>
      rw [hk] at h
      dsimp only at h
      by_cases hr : a.isOptional && rejectsFirst a f
      · rw [if_pos hr] at h
        obtain ⟨ho, hr⟩ := Bool.and_eq_true_iff.mp hr
        rcases takeValue_refused_cut text ha hk hr with ⟨k', hk', hf⟩ | ⟨f', hf', hr'⟩
        · rw [hk']
          exact ⟨_, rfl, .inr ⟨_, rfl, hf⟩⟩
        · rw [hf']
          dsimp only
          rw [ho, hr', Bool.and_self, if_pos rfl]
          exact offer_cut text has h
      · rw [if_neg hr] at h
        cases h

theorem extendRun_cut (text : String) (h : env.extendRun s v (c.onto e) = .ok o) :
    ∃ o', (env.inText text).extendRun s v c = .ok o' ∧ CutsToToken e o o' := by
  unfold extendRun at h ⊢
  cases ha : s.openRun with
  | none =>
    rw [ha] at h
    cases h
    exact ⟨none, rfl, .inl rfl⟩
  | some a =>
    rw [ha] at h
    dsimp only at h ⊢
    cases hb : s.bound.find? fun b => b.id == a.id with
    | none =>
      rw [hb] at h
      cases h
      exact ⟨none, rfl, .inl rfl⟩
    | some b =>
      rw [hb] at h
      dsimp only at h ⊢
      by_cases ht : a.type.takes v = true
      · rw [if_pos ht] at h ⊢
        cases hr : env.runFrom s v (c.onto e) with
        | error f => rw [hr] at h; cases h
        | ok r =>
          rw [hr] at h
          obtain ⟨ws, hws, rfl⟩ := exists_of_map_eq_ok h
          obtain ⟨q, hq, hcut⟩ := runFrom_cut text hr
          rw [hq]
          dsimp only
          cases hcut with
          | same =>
            rw [convertEach_inText hws]
            exact ⟨_, rfl, .inl rfl⟩
          | ended hp hf =>
            obtain ⟨more, hmore⟩ := hp
            rw [← hmore] at hws
            obtain ⟨ws', hws'⟩ := convertEach_of_append text hws
            rw [hws']
            exact ⟨_, rfl, .inr ⟨_, rfl, hf⟩⟩
      · rw [if_neg ht] at h ⊢
        cases h
        exact ⟨none, rfl, .inl rfl⟩

theorem bindUnnamed_cut (text : String) (hg : env.Offers Argument.Gradual)
    (h : env.bindUnnamed s v (c.onto e) = .ok o) :
    ∃ o', (env.inText text).bindUnnamed s v c = .ok o' ∧ CutsToToken e o o' := by
  have hrem : (env.inText text).remaining s = env.remaining s := rfl
  unfold bindUnnamed at h ⊢
  rw [hrem]
  cases ho : env.offer s v (c.onto e) (env.remaining s) with
  | error f => rw [ho] at h; cases h
  | ok q =>
    rw [ho] at h
    obtain ⟨q', hq', hcut⟩ := offer_cut text (hg s) ho
    rw [hq']
    cases q with
    | some r =>
      cases h
      cases q' with
      | some r' => exact ⟨some r', rfl, hcut⟩
      | none =>
        rcases hcut with hcut | ⟨_, hmem, _⟩
        · cases hcut
        · cases hmem
    | none =>
      cases q' with
      | some r' =>
        rcases hcut with hcut | hend
        · cases hcut
        · exact ⟨some r', rfl, .inr hend⟩
      | none => exact extendRun_cut text h

/-- A switch takes the truth value behind it if that is not cut off. -/
theorem bindSwitch_cut (s : BindState) (a : Argument) (t : Token) (c : TokenCursor) (e : Tokens) :
    CutsTo e (bindSwitch s a t (c.onto e)) (bindSwitch s a t c) := by
  unfold bindSwitch
  cases hc : c.tokens with
  | finished stop => exact .inr (by rw [hc]; rfl)
  | broken start f =>
    have honto : (c.onto e).tokens = .broken start f := by rw [TokenCursor.onto, hc]; rfl
    simp only [honto]
    exact .inl rfl
  | more next rest =>
    have honto : (c.onto e).tokens = .more next (rest.onto e) := by rw [TokenCursor.onto, hc]; rfl
    simp only [honto]
    split
    · exact .inl rfl
    · split
      · exact .inl rfl
      · exact .inl rfl

theorem bindFollowing_cut (text : String) (hm : env.mode = .partialLine) (hg : a.Gradual)
    {origin : BindOrigin} (h : env.bindFollowing s a t origin (c.onto e) = .ok r) :
    ∃ q, (env.inText text).bindFollowing s a t origin c = .ok q ∧ CutsTo e r q := by
  unfold bindFollowing at h ⊢
  cases hc : c.tokens with
  | finished stop => exact ⟨_, if_pos hm, .inr (by rw [hc]; rfl)⟩
  | broken start f =>
    have honto : (c.onto e).tokens = .broken start f := by rw [TokenCursor.onto, hc]; rfl
    rw [honto] at h
    cases h
  | more next rest =>
    have honto : (c.onto e).tokens = .more next (rest.onto e) := by rw [TokenCursor.onto, hc]; rfl
    rw [honto] at h
    dsimp only at h ⊢
    cases hk : next.kind with
    | separator => rw [hk] at h; cases h
    | named name assigned => rw [hk] at h; cases h
    | value v =>
      rw [hk] at h
      obtain ⟨k, htake, rfl⟩ := exists_of_map_eq_ok h
      obtain ⟨k', hk', hcut⟩ := takeValue_cut (c := .past next rest) text hg htake
      dsimp only
      rw [hk']
      exact ⟨_, rfl, .of_taken hcut⟩

theorem bindNamed_cut (text : String) (hm : env.mode = .partialLine)
    (hg : env.Offers Argument.Gradual) {name : String} {assigned : Option Literal}
    (h : env.bindNamed s t name assigned (c.onto e) = .ok r) :
    ∃ q, (env.inText text).bindNamed s t name assigned c = .ok q ∧ CutsTo e r q := by
  have hfind : (env.inText text).findNamed? ((env.inText text).remaining s) name =
      env.findNamed? (env.remaining s) name := rfl
  unfold bindNamed at h ⊢
  rw [hfind]
  cases ha : env.findNamed? (env.remaining s) name with
  | none => rw [ha] at h; cases h
  | some a =>
    rw [ha] at h
    dsimp only at h ⊢
    split at h
    · cases h
    · obtain ⟨q, hq, rfl⟩ := exists_of_map_eq_ok h
      rw [takeAssigned_inText hq]
      exact ⟨_, rfl, .inl rfl⟩
    · split at h
      · rename_i hs
        cases h
        rw [if_pos hs]
        exact ⟨_, rfl, bindSwitch_cut s a t c e⟩
      · rename_i hs
        rw [if_neg hs]
        exact bindFollowing_cut text hm (hg s a (findNamed?_mem ha)) h

/-- All flags of a bundle but the last are switches, so that only the last may be cut off from its
value. -/
theorem bindFlags_cut (text : String) (hm : env.mode = .partialLine) :
    ∀ {s : BindState} {as : List Argument}, (∀ a ∈ as, a.Gradual) →
      as.dropLast.all Argument.isSwitch = true → env.bindFlags t s as (c.onto e) = .ok r →
        ∃ q, (env.inText text).bindFlags t s as c = .ok q ∧ CutsTo e r q
  | s, [], _, _, h => by
    cases h
    exact ⟨_, rfl, .inl rfl⟩
  | s, a :: as, hg, hsw, h => by
    obtain ⟨ha, has⟩ := List.forall_mem_cons.mp hg
    rw [bindFlags] at h
    rw [bindFlags]
    by_cases hswitch : a.isSwitch = true
    · rw [if_pos hswitch] at h ⊢
      have hsw' : as.dropLast.all Argument.isSwitch = true := by
        cases as with
        | nil => rfl
        | cons b bs => simpa [hswitch] using hsw
      exact bindFlags_cut text hm has hsw' h
    · rw [if_neg hswitch] at h ⊢
      have hlast : as = [] := by
        cases as with
        | nil => rfl
        | cons b bs => simp [hswitch] at hsw
      subst hlast
      cases hf : env.bindFollowing s a t .flag (c.onto e) with
      | error f => rw [hf] at h; cases h
      | ok q =>
        rw [hf] at h
        cases h
        obtain ⟨q', hq', hcut⟩ := bindFollowing_cut text hm ha hf
        rw [hq']
        exact ⟨q', rfl, hcut⟩

/-- **A token is bound where the line is cut off behind it as it is in the whole line**, up to what
reaches over the cut. -/
theorem bindToken_cut (text : String) (hm : env.mode = .partialLine)
    (hg : env.Offers Argument.Gradual) (h : env.bindToken s t (c.onto e) = .ok o) :
    ∃ o', (env.inText text).bindToken s t c = .ok o' ∧ CutsToToken e o o' := by
  have hbundle : flagBundle? (env.inText text).policy ((env.inText text).remaining s) t =
      flagBundle? env.policy (env.remaining s) t := rfl
  unfold bindToken at h ⊢
  rw [hbundle]
  cases hk : t.kind with
  | separator =>
    rw [hk] at h
    cases h
    exact ⟨none, rfl, .inl rfl⟩
  | named name assigned =>
    rw [hk] at h
    obtain ⟨r, hr, rfl⟩ := exists_of_map_eq_ok h
    obtain ⟨q, hq, hcut⟩ := bindNamed_cut text hm hg hr
    dsimp only
    rw [hq]
    exact ⟨_, rfl, hcut.some⟩
  | value v =>
    rw [hk] at h
    dsimp only at h ⊢
    cases hb : flagBundle? env.policy (env.remaining s) t with
    | some bundle =>
      rw [hb] at h
      obtain ⟨r, hr, rfl⟩ := exists_of_map_eq_ok h
      obtain ⟨-, -, hmem, -, -⟩ := flagBundle?_spec hb
      have hflags : ∀ a ∈ bundle, a.Gradual := fun a ha => hg s a (hmem a ha)
      obtain ⟨q, hq, hcut⟩ := bindFlags_cut text hm hflags (dropLast_flagBundle? hb) hr
      dsimp only
      rw [hq]
      exact ⟨_, rfl, hcut.some⟩
    | none =>
      rw [hb] at h
      exact bindUnnamed_cut text hg h

/-- **A command is bound where the line is cut off as it is in the whole line**, if it ends before
the cut, and up to the cut otherwise. -/
theorem bindTokens_cut (text : String) (hm : env.mode = .partialLine)
    (hg : env.Offers Argument.Gradual) {b : Binding} (s : BindState) (c : TokenCursor) :
    env.bindTokens s (c.onto e) = .ok b → ∃ b', (env.inText text).bindTokens s c = .ok b' ∧
      (b.cursor = b'.cursor.onto e ∨ b'.cursor.tokens.isFinished = true) := by
  have honto : ∀ {c : TokenCursor} {t : Token} {rest : Tokens}, c.tokens = .more t rest →
      (c.onto e).tokens = .more t (rest.onto e) := by
    intro c t rest hc
    rw [TokenCursor.onto, hc]
    rfl
  fun_induction (env.inText text).bindTokens s c with
  | case1 s c stop hc => exact fun _ => ⟨_, rfl, .inr (by rw [hc]; rfl)⟩
  | case2 s c start f hc =>
    intro h
    have hbroken : (c.onto e).tokens = .broken start f := by
      rw [TokenCursor.onto, hc]
      rfl
    rw [bindTokens_broken hbroken] at h
    cases h
  | case3 s c t rest hc ht =>
    intro h
    rw [bindTokens_separator (honto hc) ht] at h
    cases h
    exact ⟨_, rfl, .inl rfl⟩
  | case4 s c t rest hc ht f hf =>
    intro h
    cases ho : env.bindToken s t ((TokenCursor.past t rest).onto e) with
    | error g =>
      rw [bindTokens_error (honto hc) (by simpa using ht) ho] at h
      cases h
    | ok o =>
      obtain ⟨o', ho', -⟩ := bindToken_cut text hm hg ho
      rw [hf] at ho'
      cases ho'
  | case5 s c t rest hc ht hn =>
    intro h
    cases ho : env.bindToken s t ((TokenCursor.past t rest).onto e) with
    | error g =>
      rw [bindTokens_error (honto hc) (by simpa using ht) ho] at h
      cases h
    | ok o =>
      obtain ⟨o', ho', hcut⟩ := bindToken_cut text hm hg ho
      obtain rfl : none = o' := Except.ok.inj (hn.symm.trans ho')
      rcases hcut with rfl | ⟨_, hmem, _⟩
      · rw [bindTokens_none (honto hc) (by simpa using ht) ho] at h
        cases h
        exact ⟨_, rfl, .inl rfl⟩
      · cases hmem
  | case6 s c t rest hc ht s' c' hb ih =>
    intro h
    cases ho : env.bindToken s t ((TokenCursor.past t rest).onto e) with
    | error g =>
      rw [bindTokens_error (honto hc) (by simpa using ht) ho] at h
      cases h
    | ok o =>
      obtain ⟨o', ho', hcut⟩ := bindToken_cut text hm hg ho
      obtain rfl : some (s', c') = o' := Except.ok.inj (hb.symm.trans ho')
      rcases hcut with rfl | ⟨q, hmem, hf⟩
      · rw [bindTokens_some (honto hc) (by simpa using ht) ho] at h
        exact ih h
      · -- nothing is left behind the token
        cases hmem
        obtain ⟨stop, hstop⟩ := Tokens.exists_of_isFinished hf
        rw [bindTokens_finished hstop]
        exact ⟨_, rfl, .inr hf⟩

end BindEnv
end CommandConsole
