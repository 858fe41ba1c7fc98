/-
# Binding tokens that stand elsewhere

Tokens that are alike are bound alike, whether the line ends behind them or a
separator follows: every look ahead takes a separator for the end. What the
arguments and their types make of a literal may depend on its place. So the
tokens have to be seen as the command sees them, exactly if need be.

Key definitions: `FailKind.moved`, `BoundArgument.Alike`, `BindState.Alike`, `ArgType.Heeds`,
`BindEnv.Heeds`, `BindEnv.Binding.Follows`.
Key theorems: `BindEnv.takeValue_alike`, `BindEnv.bindToken_alike`, `BindEnv.bindTokens_alike`,
`BindEnv.bind_alike`.
-/
import CommandConsole.Proofs.Binding.Appended
import CommandConsole.Proofs.Token.Alike

namespace CommandConsole

/-- The kind of a failure of tokens that stand `n` bytes further on. Only a literal that cannot be
read is reported with its position. -/
def FailKind.moved (n : Nat) : FailKind → FailKind
  | .tokenExpected expected position => .tokenExpected expected (position + n)
  | kind => kind

theorem FailKind.moved_zero (k : FailKind) : k.moved 0 = k := by
  cases k <;> rfl

/-- The failure `g` is of the kind of `f`, `n` bytes further on. -/
def ParseFail.Moved (n : Nat) (f g : ParseFail) : Prop := g.kind = f.kind.moved n

theorem LiteralFailure.Moved.ofLiteral {n : Nat} {f g : LiteralFailure} (h : f.Moved n g)
    (text text' : String) : (ParseFail.ofLiteral f text).Moved n (.ofLiteral g text') := by
  unfold ParseFail.Moved ParseFail.ofLiteral
  dsimp only
  rw [h.kind, h.position]
  cases f.kind <;> rfl

/-- The literals that `σ` takes for the same are converted to the same. -/
def ArgType.Heeds (σ : Sight) (t : ArgType) : Prop :=
  ∀ v w : Literal, v.Alike σ w → Agree TypeMismatch.Alike Eq (t.convert v) (t.convert w)

theorem ArgType.heeds_exact (t : ArgType) : t.Heeds .exact := by
  intro v w h
  obtain rfl : w = v := h
  cases t.convert w with
  | error m => exact .error ⟨rfl, rfl, rfl, rfl⟩
  | ok w => exact .ok rfl

theorem ArgType.Blind.heeds {t : ArgType} (h : t.Blind) : t.Heeds .unplaced :=
  fun _ _ hvw => convert_alike h hvw.symm

theorem ArgType.Heeds.takes_eq {σ : Sight} {t : ArgType} (ht : t.Heeds σ) {v w : Literal}
    (h : v.Alike σ w) : t.takes w = t.takes v := by
  rw [takes, takes, (ht v w h).toOption_eq]

/-! ### What is bound -/

structure BoundArgument.Alike (σ : Sight) (b d : BoundArgument) : Prop where
  id : d.id = b.id
  input : b.input.Alike σ d.input
  value : d.value = b.value
  origin : d.origin = b.origin

theorem BoundArgument.Alike.eq {b d : BoundArgument} (h : b.Alike .exact d) : d = b := by
  obtain ⟨hid, hinput, hvalue, horigin⟩ := h
  obtain ⟨id, input, value, origin⟩ := d
  obtain rfl : id = b.id := hid
  obtain rfl : input = b.input := hinput
  obtain rfl : value = b.value := hvalue
  obtain rfl : origin = b.origin := horigin
  rfl

theorem BoundArgument.Alike.unplaced {σ : Sight} {b d : BoundArgument} (h : b.Alike σ d) :
    b.Alike .unplaced d := ⟨h.id, h.input.unplaced, h.value, h.origin⟩

namespace BoundArgument

variable {σ : Sight} {bound bound' : List BoundArgument}

theorem any_id_alike (h : List.Forall₂ (Alike σ) bound bound') (id : String) :
    (bound'.any fun b => b.id == id) = bound.any fun b => b.id == id := by
  induction h with
  | nil => rfl
  | cons h _ ih => rw [List.any_cons, List.any_cons, ih, h.id]

theorem find?_id_alike (h : List.Forall₂ (Alike σ) bound bound') (id : String) :
    Option.Rel (Alike σ) (bound.find? fun b => b.id == id) (bound'.find? fun b => b.id == id) := by
  induction h with
  | nil => exact .none
  | @cons b d bs ds h _ ih =>
    rw [List.find?_cons, List.find?_cons, h.id]
    split
    · exact .some h
    · exact ih

end BoundArgument

structure BindState.Alike (σ : Sight) (s s' : BindState) : Prop where
  bound : List.Forall₂ (BoundArgument.Alike σ) s.bound s'.bound
  openRun : s'.openRun = s.openRun
  heeds : ∀ a ∈ s.openRun, a.type.Heeds σ

theorem BindState.Alike.push {σ : Sight} {s s' : BindState} (h : s.Alike σ s')
    {b d : BoundArgument} (hb : b.Alike σ d) : (s.push b).Alike σ (s'.push d) :=
  ⟨List.rel_append h.bound (.cons hb .nil), h.openRun, h.heeds⟩

structure Run.Alike (σ : Sight) (n : Nat) (e : Tokens) (r r' : Run) : Prop where
  items : List.Forall₂ (Literal.Alike σ) r.items r'.items
  tokens : Tokens.Alike σ n e r.cursor.tokens r'.cursor.tokens

structure Taken.Alike (σ : Sight) (n : Nat) (e : Tokens) (k k' : Taken) : Prop where
  input : k.input.Alike σ k'.input
  value : k'.value = k.value
  tokens : Tokens.Alike σ n e k.cursor.tokens k'.cursor.tokens

/-- A run stops alike, at the end of the line and in front of a separator. -/
theorem collectRun_alike {σ : Sight} {n : Nat} {e : Tokens} (he : e.Ends)
    {stops stops' : Token → Bool} (hstops : ∀ t u : Token, t.Alike σ u → stops' u = stops t)
    {ts us : Tokens} (h : Tokens.Alike σ n e ts us) (p q : Nat) :
    Agree (LiteralFailure.Moved n) (Run.Alike σ n e) (collectRun stops p ts)
      (collectRun stops' q us) := by
  induction h generalizing p q with
  | finished stop =>
    cases he with
    | finished stop' => exact .ok ⟨.nil, .finished stop⟩
    | separator rest ht =>
      rw [collectRun, collectRun, ht]
      exact .ok ⟨.nil, .finished stop⟩
  | broken start start' hm => exact .error hm
  | @more t u ts us ht hs ih =>
    have hmore : Tokens.Alike σ n e (.more t ts) (.more u us) := .more ht hs
    have hk := ht.kind
    rw [collectRun, collectRun]
    cases htk : t.kind with
    | value v =>
      rw [htk] at hk
      cases huk : u.kind with
      | value w =>
        rw [huk] at hk
        dsimp only
        rw [hstops t u ht]
        split
        · exact .ok ⟨.nil, hmore⟩
        · cases hk with
          | value hvw => exact (ih _ _).map fun r r' hr => ⟨.cons hvw hr.items, hr.tokens⟩
      | _ => rw [huk] at hk; cases hk
    | _ =>
      rw [htk] at hk
      cases huk : u.kind with
      | value w => rw [huk] at hk; cases hk
      | _ => exact .ok ⟨.nil, hmore⟩

namespace BindEnv

/-- The arguments of the command see the literals of a line as `σ` does. -/
structure Heeds (σ : Sight) (env : BindEnv) : Prop where
  remaining : ∀ bound bound', List.Forall₂ (BoundArgument.Alike σ) bound bound' →
    env.source.remaining bound' = env.source.remaining bound
  types : env.Offers fun a => a.type.Heeds σ

variable {σ : Sight} {n : Nat} {e : Tokens} {env : BindEnv} {text : String} {s s' : BindState}
  {a : Argument} {v w : Literal} {t u : Token} {c c' : TokenCursor}

theorem Heeds.remaining_eq (henv : env.Heeds σ) (hs : s.Alike σ s') (text : String) :
    (env.inText text).remaining s' = env.remaining s :=
  henv.remaining _ _ hs.bound

/-! ### Values -/

theorem convert_alike (ha : a.type.Heeds σ) (h : v.Alike σ w) :
    Agree (ParseFail.Moved n) Eq (env.convert a v) ((env.inText text).convert a w) := by
  refine (ha v w h).mapError fun m m' hm => ?_
  unfold ParseFail.Moved mismatch fail
  dsimp only
  rw [hm.expected, hm.input, hm.path, hm.reason]
  rfl

theorem convertEach_alike (ha : a.type.Heeds σ) {items items' : List Literal}
    (h : List.Forall₂ (Literal.Alike σ) items items') (i : Nat) :
    Agree (ParseFail.Moved n) Eq (env.convertEach a i items)
      ((env.inText text).convertEach a i items') := by
  induction h generalizing i with
  | nil => exact .ok rfl
  | @cons v w items items' hvw _ ih =>
    rw [convertEach, convertEach]
    rcases (ha v w hvw).cases with ⟨m, m', hm, hm', hsame⟩ | ⟨x, y, hx, hy, rfl⟩
    · rw [hm, hm']
      refine .error ?_
      unfold ParseFail.Moved mismatch fail TypeMismatch.under
      dsimp only
      rw [hsame.expected, hsame.input, hsame.path, hsame.reason]
      rfl
    · rw [hx, hy]
      exact (ih (i + 1)).map fun _ _ he => congrArg _ he

theorem flagBundle?_alike (h : t.Alike σ u) (policy : ShortFlagPolicy) (args : List Argument) :
    flagBundle? policy args u = flagBundle? policy args t := by
  rw [flagBundle?, flagBundle?, h.shortFlags?_eq]

theorem runFrom_alike (he : e.Ends) (henv : env.Heeds σ) (text : String) (hs : s.Alike σ s')
    (h : v.Alike σ w) (hc : Tokens.Alike σ n e c.tokens c'.tokens) :
    Agree (ParseFail.Moved n) (Run.Alike σ n e) (env.runFrom s v c)
      ((env.inText text).runFrom s' w c') := by
  have hstops : ∀ t u : Token, t.Alike σ u →
      (flagBundle? (env.inText text).policy ((env.inText text).remaining s') u).isSome =
        (flagBundle? env.policy (env.remaining s) t).isSome := by
    intro t u htu
    rw [henv.remaining_eq hs, flagBundle?_alike htu]
    rfl
  have hrun := collectRun_alike he hstops hc c.position c'.position
  unfold runFrom
  rcases hrun.cases with ⟨f, g, hf, hg, hfg⟩ | ⟨r, r', hr, hr', hrr⟩
  · rw [hf, hg]
    exact .error (hfg.ofLiteral _ _)
  · rw [hr, hr']
    exact .ok ⟨.cons h hrr.items, hrr.tokens⟩

theorem startsListRun_alike (h : v.Alike σ w) : startsListRun a w = startsListRun a v := by
  rw [startsListRun, startsListRun, h.kind_eq]

/-- **An argument takes the same of tokens that are alike.** -/
theorem takeValue_alike (he : e.Ends) (henv : env.Heeds σ) (text : String) (hs : s.Alike σ s')
    (ha : a.type.Heeds σ) (h : v.Alike σ w) (hc : Tokens.Alike σ n e c.tokens c'.tokens) :
    Agree (ParseFail.Moved n) (Taken.Alike σ n e) (env.takeValue s a v c)
      ((env.inText text).takeValue s' a w c') := by
  have hone : Agree (ParseFail.Moved n) (Taken.Alike σ n e)
      ((env.convert a v).map fun x => (⟨v, x, .none, c⟩ : Taken))
      (((env.inText text).convert a w).map fun x => ⟨w, x, .none, c'⟩) :=
    (convert_alike ha h).map fun _ _ hxy => ⟨h, hxy.symm, hc⟩
  have hrun := runFrom_alike he henv text hs h hc
  unfold takeValue
  cases a.multiplicity with
  | single => exact hone
  | multiple =>
    dsimp only
    rw [startsListRun_alike h]
    split
    · rcases hrun.cases with ⟨f, g, hf, hg, hfg⟩ | ⟨r, r', hr, hr', hrr⟩
      · rw [hf, hg]
        exact .error hfg
      · rw [hr, hr']
        have hlist := Literal.Alike.listOfRun hrr.items
        exact (convert_alike ha hlist).map fun _ _ hxy => ⟨hlist, hxy.symm, hrr.tokens⟩
    · exact hone
  | vararg =>
    dsimp only
    rcases hrun.cases with ⟨f, g, hf, hg, hfg⟩ | ⟨r, r', hr, hr', hrr⟩
    · rw [hf, hg]
      exact .error hfg
    · rw [hr, hr']
      refine (convertEach_alike ha hrr.items 0).map fun _ _ hxy => ?_
      exact ⟨.listOfRun hrr.items, by rw [hxy], hrr.tokens⟩

theorem takeAssigned_alike (ha : a.type.Heeds σ) (h : v.Alike σ w) :
    Agree (ParseFail.Moved n) (fun x y => x.1.Alike σ y.1 ∧ y.2 = x.2) (env.takeAssigned a v)
      ((env.inText text).takeAssigned a w) := by
  unfold takeAssigned
  cases a.multiplicity with
  | single => exact (convert_alike ha h).map fun _ _ hxy => ⟨h, hxy.symm⟩
  | multiple =>
    dsimp only
    rw [startsListRun_alike h]
    split
    · have hlist : (listOfRun [v]).Alike σ (listOfRun [w]) := .listOfRun (.cons h .nil)
      exact (convert_alike ha hlist).map fun _ _ hxy => ⟨hlist, hxy.symm⟩
    · exact (convert_alike ha h).map fun _ _ hxy => ⟨h, hxy.symm⟩
  | vararg =>
    refine (convertEach_alike ha h.itemsOf 0).map fun _ _ hxy => ?_
    exact ⟨.listOfRun h.itemsOf, by rw [hxy]⟩

/-! ### Arguments -/

/-- A token has left alike behind. -/
def Bound.Alike (σ : Sight) (n : Nat) (e : Tokens) (x y : Bound) : Prop :=
  x.1.Alike σ y.1 ∧ Tokens.Alike σ n e x.2.tokens y.2.tokens

theorem record_alike (hs : s.Alike σ s') (ha : a.type.Heeds σ) (origin : BindOrigin)
    {k k' : Taken} (hk : k.Alike σ n e k') :
    (record s a origin k).Alike σ (record s' a origin k') := by
  have hpush := hs.push (b := ⟨a.id, k.input, k.value, origin⟩)
    (d := ⟨a.id, k'.input, k'.value, origin⟩) ⟨rfl, hk.input, hk.value, rfl⟩
  refine ⟨hpush.bound, ?_, ?_⟩
  · unfold record
    dsimp only
    rw [hs.openRun]
  · unfold record
    dsimp only
    intro d hd
    split at hd
    · cases hd
      exact ha
    · split at hd
      · cases hd
      · exact hs.heeds d hd

theorem rejectsFirst_moved {f g : ParseFail} (h : f.Moved n g) :
    rejectsFirst a g = rejectsFirst a f := by
  rw [rejectsFirst, rejectsFirst, h]
  cases f.kind <;> rfl

theorem offer_alike (he : e.Ends) (henv : env.Heeds σ) (text : String) (hs : s.Alike σ s')
    (h : v.Alike σ w) (hc : Tokens.Alike σ n e c.tokens c'.tokens) :
    ∀ {as : List Argument}, (∀ a ∈ as, a.type.Heeds σ) →
      Agree (ParseFail.Moved n) (Option.Rel (Bound.Alike σ n e)) (env.offer s v c as)
        ((env.inText text).offer s' w c' as)
  | [], _ => .ok .none
  | a :: as, has => by
    obtain ⟨ha, has⟩ := List.forall_mem_cons.mp has
    rw [offer, offer]
    have htake := takeValue_alike he henv text hs ha h hc
    rcases htake.cases with ⟨f, g, hf, hg, hfg⟩ | ⟨k, k', hk, hk', hkk⟩
    · rw [hf, hg]
      dsimp only
      rw [rejectsFirst_moved hfg]
      split
      · exact offer_alike he henv text hs h hc has
      · exact .error hfg
    · rw [hk, hk']
      exact .ok (.some ⟨record_alike hs ha _ hkk, hkk.tokens⟩)

theorem appendRun_alike {items items' : List Literal} (values : List Value)
    (h : List.Forall₂ (Literal.Alike σ) items items') {b d : BoundArgument} (hb : b.Alike σ d) :
    (appendRun items values b).Alike σ (appendRun items' values d) := by
  obtain ⟨hid, hinput, hvalue, horigin⟩ := hb
  refine ⟨hid, ?_, ?_, horigin⟩
  · cases σ with
    | exact =>
      obtain rfl := Literal.Alike.forall₂_eq h
      unfold appendRun
      rw [show d.input = b.input from hinput]
      exact .refl .exact _
    | unplaced =>
      have hsame : d.input.unspanned = b.input.unspanned := hinput
      unfold appendRun
      dsimp only
      cases hbi : b.input with
      | list old span =>
        rw [hbi] at hsame
        cases hdi : d.input with
        | list old' span' =>
          rw [hdi] at hsame
          simp only [Literal.unspanned, Literal.list.injEq, and_true] at hsame
          have hold := Literal.unspannedItems_eq_iff.mp hsame
          show Literal.unspanned _ = Literal.unspanned _
          simp only [Literal.unspanned, Literal.list.injEq, and_true]
          exact Literal.unspannedItems_eq_iff.mpr (List.rel_append hold h)
        | _ => rw [hdi] at hsame; simp [Literal.unspanned] at hsame
      | _ =>
        rw [hbi] at hsame
        cases hdi : d.input with
        | list => rw [hdi] at hsame; simp [Literal.unspanned] at hsame
        | _ => rw [hdi] at hsame; exact hsame
  · unfold appendRun
    dsimp only
    rw [hvalue]

theorem runLength_alike {b d : BoundArgument} (h : b.Alike σ d) : runLength d = runLength b := by
  rw [runLength, runLength, h.input.itemsOf.length_eq]

theorem extendRun_alike (he : e.Ends) (henv : env.Heeds σ) (text : String) (hs : s.Alike σ s')
    (h : v.Alike σ w) (hc : Tokens.Alike σ n e c.tokens c'.tokens) :
    Agree (ParseFail.Moved n) (Option.Rel (Bound.Alike σ n e)) (env.extendRun s v c)
      ((env.inText text).extendRun s' w c') := by
  unfold extendRun
  rw [hs.openRun]
  cases ho : s.openRun with
  | none => exact .ok .none
  | some a =>
    have ha : a.type.Heeds σ := hs.heeds a ho
    have hfind := BoundArgument.find?_id_alike hs.bound a.id
    dsimp only
    generalize s.bound.find? (fun b => b.id == a.id) = x at hfind
    generalize s'.bound.find? (fun b => b.id == a.id) = y at hfind
    cases hfind with
    | none => exact .ok .none
    | @some b d hbd =>
      dsimp only
      rw [ha.takes_eq h]
      split
      · have hrun := runFrom_alike he henv text hs h hc
        rcases hrun.cases with ⟨f, g, hf, hg, hfg⟩ | ⟨r, r', hr, hr', hrr⟩
        · rw [hf, hg]
          exact .error hfg
        · rw [hr, hr']
          dsimp only
          rw [runLength_alike hbd]
          refine (convertEach_alike ha hrr.items _).map fun vs vs' hvs => .some ⟨⟨?_, ?_, ?_⟩, ?_⟩
          · subst hvs
            refine List.rel_map (fun x y hxy => ?_) hs.bound
            rw [hxy.id]
            split
            · exact appendRun_alike vs hrr.items hxy
            · exact hxy
          · rfl
          · intro d hd
            obtain rfl : a = d := Option.some.inj hd
            exact ha
          · exact hrr.tokens
      · exact .ok .none

theorem bindUnnamed_alike (he : e.Ends) (henv : env.Heeds σ) (text : String) (hs : s.Alike σ s')
    (h : v.Alike σ w) (hc : Tokens.Alike σ n e c.tokens c'.tokens) :
    Agree (ParseFail.Moved n) (Option.Rel (Bound.Alike σ n e)) (env.bindUnnamed s v c)
      ((env.inText text).bindUnnamed s' w c') := by
  unfold bindUnnamed
  rw [henv.remaining_eq hs]
  have hoffer := offer_alike he henv text hs h hc (henv.types s)
  rcases hoffer.cases with ⟨f, g, hf, hg, hfg⟩ | ⟨x, y, hx, hy, hxy⟩
  · rw [hf, hg]
    exact .error hfg
  · rw [hx, hy]
    cases hxy with
    | none => exact extendRun_alike he henv text hs h hc
    | some hxy => exact .ok (.some hxy)

/-! ### Names and flags -/

theorem bindSwitch_alike (he : e.Ends) (hs : s.Alike σ s') (ht : t.Alike σ u)
    (hc : Tokens.Alike σ n e c.tokens c'.tokens) :
    Bound.Alike σ n e (bindSwitch s a t c) (bindSwitch s' a u c') := by
  have habsent : Bound.Alike σ n e (s.push ⟨a.id, .empty t.span, .bool true, .named⟩, c)
      (s'.push ⟨a.id, .empty u.span, .bool true, .named⟩, c') :=
    ⟨hs.push ⟨rfl, ht.empty, rfl, rfl⟩, hc⟩
  unfold bindSwitch
  dsimp only
  generalize c.tokens = ts at hc ⊢
  generalize c'.tokens = us at hc ⊢
  cases hc with
  | finished stop =>
    cases he with
    | finished => exact habsent
    | @separator next rest hk =>
      have hword : next.word? = none := by rw [Token.word?, hk]
      dsimp only
      rw [hword]
      exact habsent
  | broken start start' hm => exact habsent
  | more hnext hrest =>
    dsimp only
    rw [hnext.word?_eq]
    split
    · exact habsent
    · rename_i word hw
      split
      · exact habsent
      · exact ⟨hs.push ⟨rfl, hnext.scalar word, rfl, rfl⟩, hrest⟩

theorem bindFollowing_alike (he : e.Ends) (hm : env.mode = .complete) (henv : env.Heeds σ)
    (text : String) (hs : s.Alike σ s') (ha : a.type.Heeds σ) (origin : BindOrigin)
    (hc : Tokens.Alike σ n e c.tokens c'.tokens) :
    Agree (ParseFail.Moved n) (Bound.Alike σ n e) (env.bindFollowing s a t origin c)
      ((env.inText text).bindFollowing s' a u origin c') := by
  have hnone : ∀ span span', ParseFail.Moved n (env.noInput a span)
      ((env.inText text).noInput a span') := fun _ _ => rfl
  have hcomplete : ¬env.mode = .partialLine := by rw [hm]; decide
  have hcomplete' : ¬(env.inText text).mode = .partialLine := hcomplete
  unfold bindFollowing
  generalize c.tokens = ts at hc ⊢
  generalize c'.tokens = us at hc ⊢
  cases hc with
  | finished stop =>
    dsimp only
    rw [if_neg hcomplete]
    cases he with
    | finished =>
      dsimp only
      rw [if_neg hcomplete']
      exact .error (hnone _ _)
    | separator rest hk =>
      dsimp only
      rw [hk]
      exact .error (hnone _ _)
  | broken start start' hmoved => exact .error (hmoved.ofLiteral _ _)
  | @more next next' rest rest' hnext hrest =>
    have hk := hnext.kind
    dsimp only
    generalize next.kind = k at hk ⊢
    generalize next'.kind = k' at hk ⊢
    cases hk with
    | value h =>
      exact (takeValue_alike he henv text hs ha h hrest).map fun _ _ hkk =>
        ⟨record_alike hs ha origin hkk, hkk.tokens⟩
    | _ => exact .error (hnone _ _)

theorem bindNamed_alike (he : e.Ends) (hm : env.mode = .complete) (henv : env.Heeds σ)
    (text : String) (hs : s.Alike σ s') (ht : t.Alike σ u) (name : String)
    {assigned assigned' : Option Literal}
    (hassigned : Option.Rel (Literal.Alike σ) assigned assigned')
    (hc : Tokens.Alike σ n e c.tokens c'.tokens) :
    Agree (ParseFail.Moved n) (Bound.Alike σ n e) (env.bindNamed s t name assigned c)
      ((env.inText text).bindNamed s' u name assigned' c') := by
  unfold bindNamed
  rw [henv.remaining_eq hs, show (env.inText text).findNamed? = env.findNamed? from rfl]
  cases hfind : env.findNamed? (env.remaining s) name with
  | none => exact .error rfl
  | some a =>
    have ha : a.type.Heeds σ := henv.types s a (findNamed?_mem hfind)
    cases hassigned with
    | none =>
      dsimp only
      split
      · exact .ok (bindSwitch_alike he hs ht hc)
      · exact bindFollowing_alike he hm henv text hs ha .named hc
    | @some v w h =>
      have hassign : Agree (ParseFail.Moved n) (Bound.Alike σ n e)
          ((env.takeAssigned a v).map fun r => (s.push ⟨a.id, r.1, r.2, .named⟩, c))
          (((env.inText text).takeAssigned a w).map fun r =>
            (s'.push ⟨a.id, r.1, r.2, .named⟩, c')) :=
        (takeAssigned_alike ha h).map fun _ _ hxy => ⟨hs.push ⟨rfl, hxy.1, hxy.2, rfl⟩, hc⟩
      have hkind := h.kind_eq
      cases v with
      | empty span =>
        cases w with
        | empty span' => exact .error rfl
        | _ => cases hkind
      | _ =>
        cases w with
        | empty span' => cases hkind
        | _ => exact hassign

theorem bindFlags_alike (he : e.Ends) (hm : env.mode = .complete) (henv : env.Heeds σ)
    (text : String) (ht : t.Alike σ u) :
    ∀ {as : List Argument} {s s' : BindState} {c c' : TokenCursor},
      (∀ a ∈ as, a.type.Heeds σ) → s.Alike σ s' → Tokens.Alike σ n e c.tokens c'.tokens →
        Agree (ParseFail.Moved n) (Bound.Alike σ n e) (env.bindFlags t s as c)
          ((env.inText text).bindFlags u s' as c')
  | [], _, _, _, _, _, hs, hc => .ok ⟨hs, hc⟩
  | a :: as, s, s', c, c', has, hs, hc => by
    obtain ⟨ha, has⟩ := List.forall_mem_cons.mp has
    rw [bindFlags, bindFlags]
    split
    · exact bindFlags_alike he hm henv text ht has (hs.push ⟨rfl, ht.empty, rfl, rfl⟩) hc
    · have hfollow := bindFollowing_alike (t := t) (u := u) he hm henv text hs ha .flag hc
      rcases hfollow.cases with ⟨f, g, hf, hg, hfg⟩ | ⟨x, y, hx, hy, hxy⟩
      · rw [hf, hg]
        exact .error hfg
      · rw [hx, hy]
        exact bindFlags_alike he hm henv text ht has hxy.1 hxy.2

/-! ### Tokens -/

/-- **A token is bound alike.** -/
theorem bindToken_alike (he : e.Ends) (hm : env.mode = .complete) (henv : env.Heeds σ)
    (text : String) (hs : s.Alike σ s') (ht : t.Alike σ u)
    (hc : Tokens.Alike σ n e c.tokens c'.tokens) :
    Agree (ParseFail.Moved n) (Option.Rel (Bound.Alike σ n e)) (env.bindToken s t c)
      ((env.inText text).bindToken s' u c') := by
  have hbundle : flagBundle? (env.inText text).policy ((env.inText text).remaining s') u =
      flagBundle? env.policy (env.remaining s) t := by
    rw [henv.remaining_eq hs, flagBundle?_alike ht]
    rfl
  have hk := ht.kind
  unfold bindToken
  rw [hbundle]
  generalize t.kind = k at hk ⊢
  generalize u.kind = k' at hk ⊢
  cases hk with
  | separator => exact .ok .none
  | name name =>
    exact (bindNamed_alike he hm henv text hs ht name .none hc).map fun _ _ hxy => .some hxy
  | assigned name h =>
    exact (bindNamed_alike he hm henv text hs ht name (.some h) hc).map fun _ _ hxy => .some hxy
  | value h =>
    dsimp only
    split
    · rename_i bundle hflags
      have has : ∀ a ∈ bundle, a.type.Heeds σ := by
        obtain ⟨letters, -, hmem, -⟩ := flagBundle?_spec hflags
        exact fun a ha => henv.types s a (hmem a ha)
      exact (bindFlags_alike he hm henv text ht has hs hc).map fun _ _ hxy => .some hxy
    · exact bindUnnamed_alike he henv text hs h hc

/-- The second binding goes on where the first does, or behind the separator that ended it. -/
def Binding.Follows (σ : Sight) (n : Nat) (e : Tokens) (b b' : Binding) : Prop :=
  Tokens.Alike σ n e b.cursor.tokens b'.cursor.tokens ∨
    b.cursor.tokens.isFinished = true ∧ ∃ t, t.kind = .separator ∧ e = .more t b'.cursor.tokens

/-- **The tokens of a command are bound alike**: a separator in place of the end of the line is used
up. -/
theorem bindTokens_alike (he : e.Ends) (hm : env.mode = .complete) (henv : env.Heeds σ)
    (text : String) (s : BindState) (c : TokenCursor) : ∀ {s' : BindState} {c' : TokenCursor},
      s.Alike σ s' → Tokens.Alike σ n e c.tokens c'.tokens →
        Agree (ParseFail.Moved n) (fun b b' => b.state.Alike σ b'.state ∧ b.Follows σ n e b')
          (env.bindTokens s c) ((env.inText text).bindTokens s' c') := by
  have hstep : ∀ {s s' : BindState} {t u : Token} {rest rest' : Tokens}, s.Alike σ s' →
      t.Alike σ u → Tokens.Alike σ n e rest rest' →
        Agree (ParseFail.Moved n) (Option.Rel (Bound.Alike σ n e))
          (env.bindToken s t (.past t rest))
          ((env.inText text).bindToken s' u (.past u rest')) :=
    fun hs ht hrest => bindToken_alike he hm henv text hs ht hrest
  fun_induction env.bindTokens s c with
  | case1 s c stop hfinished =>
    intro s' c' hs hc
    rw [hfinished] at hc
    generalize hus : c'.tokens = us at hc
    cases hc with
    | finished =>
      cases he with
      | finished stop' =>
        rw [bindTokens_finished hus]
        refine .ok ⟨hs, .inl ?_⟩
        dsimp only
        rw [hfinished, hus]
        exact .finished stop
      | @separator t rest hk =>
        rw [bindTokens_separator hus (by rw [Token.isSeparator, hk])]
        exact .ok ⟨hs, .inr ⟨by dsimp only; rw [hfinished]; rfl, t, hk, rfl⟩⟩
  | case2 s c start f hbroken =>
    intro s' c' hs hc
    rw [hbroken] at hc
    generalize hus : c'.tokens = us at hc
    cases hc with
    | broken start start' hmoved =>
      rw [bindTokens_broken hus]
      exact .error (hmoved.ofLiteral _ _)
  | case3 s c t rest hmore ht =>
    intro s' c' hs hc
    obtain ⟨u, rest', hus, h, hrest⟩ := (hmore ▸ hc).of_more
    rw [bindTokens_separator hus (by rw [h.isSeparator_eq, ht])]
    exact .ok ⟨hs, .inl hrest⟩
  | case4 s c t rest hmore ht f hbind =>
    intro s' c' hs hc
    obtain ⟨u, rest', hus, h, hrest⟩ := (hmore ▸ hc).of_more
    obtain ⟨g, hg, hfg⟩ := (hstep hs h hrest).of_error hbind
    rw [bindTokens_error hus (by rw [h.isSeparator_eq]; simpa using ht) hg]
    exact .error hfg
  | case5 s c t rest hmore ht hbind =>
    intro s' c' hs hc
    obtain ⟨u, rest', hus, h, hrest⟩ := (hmore ▸ hc).of_more
    obtain ⟨y, hy, hxy⟩ := (hstep hs h hrest).of_ok hbind
    cases hxy
    rw [bindTokens_none hus (by rw [h.isSeparator_eq]; simpa using ht) hy]
    exact .ok ⟨hs, .inl hc⟩
  | case6 s c t rest hmore ht s1 c1 hbind ih =>
    intro s' c' hs hc
    obtain ⟨u, rest', hus, h, hrest⟩ := (hmore ▸ hc).of_more
    obtain ⟨y, hy, hxy⟩ := (hstep hs h hrest).of_ok hbind
    cases hxy with
    | @some _ y hxy =>
      obtain ⟨s1', c1'⟩ := y
      rw [bindTokens_some hus (by rw [h.isSeparator_eq]; simpa using ht) hy]
      exact ih ⟨hxy.1.bound, hxy.1.openRun, hxy.1.heeds⟩ hxy.2

/-- The defaults are the same, at the end of the command. -/
theorem bindDefaults_alike (hs : s.Alike σ s') (unbound : List Argument) :
    List.Forall₂ (BoundArgument.Alike .unplaced) (bindDefaults s unbound).bound
      (bindDefaults s' unbound).bound := by
  refine List.rel_append (hs.bound.imp fun _ _ h => h.unplaced) ?_
  refine List.rel_filterMap (R := Eq) (fun a d had => ?_) (List.forall₂_same.mpr fun _ _ => rfl)
  subst had
  cases a.fallback? with
  | none => exact .none
  | some v => exact .some ⟨rfl, by simp only [Literal.Alike, Literal.unspanned], rfl, rfl⟩

/-- **A command is bound alike**, wherever it stands. -/
theorem bind_alike (he : e.Ends) (hm : env.mode = .complete) (henv : env.Heeds σ) (text : String)
    (hc : Tokens.Alike σ n e c.tokens c'.tokens) :
    Agree (ParseFail.Moved n) (fun b b' =>
        List.Forall₂ (BoundArgument.Alike .unplaced) b.state.bound b'.state.bound ∧
          b.Follows σ n e b') (env.bind c) ((env.inText text).bind c') := by
  have hstart : (BindState.start c.position).Alike σ (.start c'.position) :=
    ⟨.nil, rfl, fun a ha => by cases ha⟩
  have htokens := bindTokens_alike he hm henv text _ _ hstart hc
  unfold bind
  rcases htokens.cases with ⟨f, g, hf, hg, hfg⟩ | ⟨b, b', hb, hb', hs, hfollows⟩
  · rw [hf, hg]
    exact .error hfg
  · rw [hb, hb']
    dsimp only
    unfold finish
    rw [henv.remaining_eq hs, show (env.inText text).mode = env.mode from rfl, hm]
    dsimp only
    split
    · exact .error rfl
    · exact .ok ⟨bindDefaults_alike hs _, hfollows⟩

end BindEnv
end CommandConsole
