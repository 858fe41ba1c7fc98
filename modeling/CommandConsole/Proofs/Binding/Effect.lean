/-
# What a token does to the bound arguments

A token that belongs to a command binds an argument that was unbound, or puts
values to the open run. The cases are read off the binder once, and say which
tokens each one takes; every invariant of binding is checked on them.

Key definitions: `Pending.Of`, `Argument.FreeIn`, `BindEnv.Effect`, `BindEnv.FlagEffects`,
`BindEnv.TokenEffect`.
Key theorems: `BindEnv.bindToken_effect`, `BindEnv.bindTokens_openOf`.
-/
import CommandConsole.Proofs.Binding.Taking

namespace CommandConsole

/-- What is open belongs to an argument with the property `P`. -/
def Pending.Of (P : Argument → Prop) : Pending → Prop
  | .none => True
  | .value a | .run a _ => P a

theorem Pending.Of.mono {P Q : Argument → Prop} {pending : Pending} (h : pending.Of P)
    (hPQ : ∀ a, P a → Q a) : pending.Of Q := by
  cases pending with
  | none => trivial
  | value a => exact hPQ a h
  | run a count => exact hPQ a h

/-- What is open in a state belongs to an argument with the property `P`. -/
def BindState.OpenOf (P : Argument → Prop) (s : BindState) : Prop :=
  s.pending.Of P ∧ ∀ a, s.openRun = some a → P a

/-- No argument with the id of `a` is bound. -/
def Argument.FreeIn (a : Argument) (s : BindState) : Prop := ∀ b ∈ s.bound, b.id ≠ a.id

theorem BindState.mem_bound_push {s : BindState} {b d : BoundArgument} :
    b ∈ (s.push d).bound ↔ b ∈ s.bound ∨ b = d := by
  simp [push]

namespace BindEnv

theorem record_bound (s : BindState) (a : Argument) (origin : BindOrigin) (k : Taken) :
    (record s a origin k).bound = (s.push ⟨a.id, k.input, k.value, origin⟩).bound := rfl

/-- Every argument that is ever offered satisfies `P`. -/
def Offers (env : BindEnv) (P : Argument → Prop) : Prop := ∀ s, ∀ a ∈ env.remaining s, P a

theorem offers_static {env : BindEnv} {args : List Argument} (h : env.source = .static args) :
    env.Offers (· ∈ args) := by
  intro s a ha
  rw [remaining, h, ArgumentSource.remaining] at ha
  exact List.mem_of_mem_filter ha

theorem freeIn_of_mem_remaining {env : BindEnv} {s : BindState} {a : Argument}
    (h : a ∈ env.remaining s) : a.FreeIn s := by
  have ha := (List.mem_filter.mp h).2
  intro b hb he
  have : (s.bound.any fun b => b.id == a.id) = true :=
    List.any_eq_true.mpr ⟨b, hb, by simpa using he⟩
  simp [this] at ha

/-- The token `t` changes the state, and the values `taken` go to an argument. -/
inductive Effect (env : BindEnv) (P : Argument → Prop) (t : Token) (s : BindState) :
    List Token → BindState → Prop
  /-- The literal of `--name=value`. -/
  | assigned {a : Argument} {name : String} {v input : Literal} {value : Value} (hP : P a)
      (hf : a.FreeIn s) (hk : t.kind = .named name (some v)) (he : v.isEmpty = false)
      (hi : input = v ∨ input = listOfRun (itemsOf v)) (h : a.Holds input value) :
      Effect env P t s [] (s.push ⟨a.id, input, value, .named⟩)
  | switch {a : Argument} {origin : BindOrigin} (hP : P a) (hf : a.FreeIn s)
      (hs : a.isSwitch = true) (ho : origin ≠ .default) :
      Effect env P t s [] (s.push ⟨a.id, .empty t.span, .bool true, origin⟩)
  /-- A switch with the truth value that follows it. -/
  | answer {a : Argument} {next : Token} {word : String} {b : Bool} (hP : P a) (hf : a.FreeIn s)
      (hs : a.isSwitch = true) (hw : next.word? = some word) (hb : readBool? word = some b) :
      Effect env P t s [next] (s.push ⟨a.id, .scalar word next.span, .bool b, .named⟩)
  | taken {a : Argument} {origin : BindOrigin} {k : Taken} {ts : List Token} (hP : P a)
      (hf : a.FreeIn s) (ho : origin ≠ .default) (ht : a.Takes ts k.input)
      (h : a.Holds k.input k.value) (hk : k.pending.Of (· = a)) :
      Effect env P t s ts (record s a origin k)
  /-- A value that may still be typed. -/
  | hanging {a : Argument} (hm : env.mode = .partialLine) (hP : P a) :
      Effect env P t s [] { s with pending := .value a }
  /-- More values of the open run. -/
  | extended {a : Argument} {items : List Literal} {values : List Value} {pending : Pending}
      {ts : List Token} (hr : s.openRun = some a) (hne : items ≠ [])
      (ht : ts.map Token.value? = items.map some)
      (h : List.Forall₂ (fun i v => a.type.convert i = .ok v) items values)
      (hp : pending.Of (· = a)) :
      Effect env P t s ts { s with
        bound := s.bound.map fun b => if b.id = a.id then appendRun items values b else b
        pending := pending }

/-- The arguments of a bundle are bound one after the other, each as a flag. -/
inductive FlagEffects (env : BindEnv) (P : Argument → Prop) (t : Token) :
    BindState → List Argument → List Token → BindState → Prop
  | nil {s : BindState} : FlagEffects env P t s [] [] s
  | cons {s s' s'' : BindState} {a : Argument} {as : List Argument} {ts us : List Token}
      (h : env.Effect P t s ts s')
      (hb : env.mode = .complete → ∃ b ∈ s'.bound, b.id = a.id ∧ b.origin = .flag)
      (hs : FlagEffects env P t s' as us s'') : FlagEffects env P t s (a :: as) (ts ++ us) s''

/-- What a token that belongs to the command does, with the tokens `used` after it. -/
inductive TokenEffect (env : BindEnv) (P : Argument → Prop) (t : Token) (s : BindState) :
    List Token → BindState → Prop
  | named {used : List Token} {s' : BindState} (hv : t.isValue = false)
      (h : env.Effect P t s used s') : TokenEffect env P t s used s'
  | unnamed {used : List Token} {s' : BindState} (hv : t.isValue = true)
      (h : env.Effect P t s (t :: used) s') : TokenEffect env P t s used s'
  | flags {letters : List Char} {bundle : List Argument} {used : List Token} {s' : BindState}
      (hl : t.shortFlags? = some letters) (hP : ∀ a ∈ bundle, P a)
      (hb : bundle.map (·.short) = letters.map some)
      (h : env.FlagEffects P t s bundle used s') : TokenEffect env P t s used s'

variable {env : BindEnv} {P : Argument → Prop} {s : BindState} {a : Argument} {t : Token}
  {c : TokenCursor}

/-! ### What is open -/

theorem pendingAfter_of (env : BindEnv) (a : Argument) (offset : Nat) (r : Run) :
    (env.pendingAfter a offset r).Of (· = a) := by
  unfold pendingAfter
  split
  · rfl
  · trivial

theorem takeValue_pendingOf {v : Literal} {k : Taken} (h : env.takeValue s a v c = .ok k) :
    k.pending.Of (· = a) := by
  unfold takeValue at h
  split at h
  · obtain ⟨w, -, rfl⟩ := exists_of_map_eq_ok h
    trivial
  · split at h
    · split at h
      · cases h
      · obtain ⟨w, -, rfl⟩ := exists_of_map_eq_ok h
        exact pendingAfter_of ..
    · obtain ⟨w, -, rfl⟩ := exists_of_map_eq_ok h
      trivial
  · split at h
    · cases h
    · obtain ⟨w, -, rfl⟩ := exists_of_map_eq_ok h
      exact pendingAfter_of ..

/-! ### Named arguments -/

theorem bindSwitch_effect (hP : P a) (hf : a.FreeIn s) (hs : a.isSwitch = true) :
    ∃ used, c.tokens = .prepend used (bindSwitch s a t c).2.tokens ∧
      env.Effect P t s used (bindSwitch s a t c).1 := by
  have habsent : env.Effect P t s [] (s.push ⟨a.id, .empty t.span, .bool true, .named⟩) :=
    .switch hP hf hs (by decide)
  unfold bindSwitch
  dsimp only
  split
  · rename_i next rest hc
    split
    · exact ⟨[], rfl, habsent⟩
    · rename_i word hw
      split
      · exact ⟨[], rfl, habsent⟩
      · rename_i b hb
        exact ⟨[next], by simp [hc, TokenCursor.past], .answer hP hf hs hw hb⟩
  · exact ⟨[], rfl, habsent⟩

/-- In a complete line the argument is bound with the origin given. -/
theorem bindFollowing_effect {origin : BindOrigin} {r : Bound} (hP : P a) (hf : a.FreeIn s)
    (ho : origin ≠ .default) (h : env.bindFollowing s a t origin c = .ok r) :
    ∃ used, c.tokens = .prepend used r.2.tokens ∧ env.Effect P t s used r.1 ∧
      (∀ b ∈ r.1.bound, b ∈ s.bound ∨ b.id = a.id) ∧
      (env.mode = .complete → ∃ b ∈ r.1.bound, b.id = a.id ∧ b.origin = origin) := by
  unfold bindFollowing at h
  split at h
  · cases h
  · split at h
    · rename_i hm
      cases h
      exact ⟨[], rfl, .hanging hm hP, fun b hb => .inl hb, fun hc => by rw [hc] at hm; cases hm⟩
    · cases h
  · rename_i next rest hc
    split at h
    · rename_i v hk
      obtain ⟨k, htake, rfl⟩ := exists_of_map_eq_ok h
      obtain ⟨hholds, used, hu, htakes⟩ := takeValue_spec hk htake
      refine ⟨next :: used, ?_, .taken hP hf ho htakes hholds (takeValue_pendingOf htake), ?_,
        fun _ => ?_⟩
      · rw [hc, Tokens.prepend_cons]
        exact congrArg _ hu
      · intro b hb
        rw [record_bound, BindState.mem_bound_push] at hb
        exact hb.imp_right fun he => by rw [he]
      · exact ⟨_, BindState.mem_bound_push.mpr (.inr rfl), rfl, rfl⟩
    · cases h

theorem findNamed?_mem {args : List Argument} {name : String}
    (h : env.findNamed? args name = some a) : a ∈ args :=
  List.mem_of_find?_eq_some h

theorem bindNamed_of_findNamed? {name : String}
    (hfind : env.findNamed? (env.remaining s) name = some a) (assigned : Option Literal) :
    env.bindNamed s t name assigned c =
      match assigned with
      | some (.empty _) => .error (env.noInput a t.span)
      | some v => (env.takeAssigned a v).map fun r => (s.push ⟨a.id, r.1, r.2, .named⟩, c)
      | none => if a.isSwitch then .ok (bindSwitch s a t c) else env.bindFollowing s a t .named c := by
  cases assigned with
  | none => simp only [bindNamed, hfind]
  | some v => cases v <;> simp only [bindNamed, hfind]

/-- A literal that is assigned to the name of an unbound argument goes to it. -/
theorem bindToken_assignment {name : String} {v : Literal} (ht : t.kind = .named name (some v))
    (he : v.isEmpty = false) (hfind : env.findNamed? (env.remaining s) name = some a) :
    env.bindToken s t c =
      (env.takeAssigned a v).map fun r => some (s.push ⟨a.id, r.1, r.2, .named⟩, c) := by
  have hnamed : env.bindNamed s t name (some v) c =
      (env.takeAssigned a v).map fun r => (s.push ⟨a.id, r.1, r.2, .named⟩, c) := by
    rw [bindNamed_of_findNamed? hfind]
    cases v with
    | empty span => cases he
    | _ => rfl
  rw [bindToken, ht]
  dsimp only
  rw [hnamed]
  cases env.takeAssigned a v <;> rfl

theorem bindNamed_effect {name : String} {assigned : Option Literal} {r : Bound}
    (hO : env.Offers P) (hk : t.kind = .named name assigned)
    (h : env.bindNamed s t name assigned c = .ok r) :
    ∃ used, c.tokens = .prepend used r.2.tokens ∧ env.Effect P t s used r.1 := by
  unfold bindNamed at h
  split at h
  · cases h
  · rename_i a ha
    have hm := findNamed?_mem ha
    have hf := freeIn_of_mem_remaining hm
    split at h
    · cases h
    · rename_i v hne
      obtain ⟨k, htake, rfl⟩ := exists_of_map_eq_ok h
      obtain ⟨hholds, hi⟩ := takeAssigned_spec htake
      have he : v.isEmpty = false := by
        cases v with
        | empty span => exact absurd rfl (hne span)
        | _ => rfl
      exact ⟨[], rfl, .assigned (hO s a hm) hf hk he hi hholds⟩
    · split at h
      · rename_i hs
        cases h
        exact bindSwitch_effect (hO s a hm) hf hs
      · obtain ⟨used, hu, he, -⟩ := bindFollowing_effect (hO s a hm) hf (by decide) h
        exact ⟨used, hu, he⟩

/-! ### Bundles of flags -/

theorem map_short_eq_iff {as : List Argument} {letters : List Char} :
    as.map (·.short) = letters.map some ↔
      List.Forall₂ (fun a l => Argument.short a = some l) as letters := by
  rw [← List.forall₂_eq_eq_eq, List.forall₂_map_left_iff, List.forall₂_map_right_iff]

/-- Letters name arguments if each is the short flag of one, and no two arguments have the same
id. -/
theorem flagArguments?_eq_some_iff {args : List Argument} : ∀ {letters : List Char}
    {taken as : List Argument}, flagArguments? args taken letters = some as ↔
      List.Forall₂ (fun a l => args.find? (fun b => b.short == some l) = some a) as letters ∧
        (∀ a ∈ as, ∀ b ∈ taken, b.id ≠ a.id) ∧ as.Pairwise (fun a b => a.id ≠ b.id)
  | [], taken, as => by
    rw [flagArguments?, List.forall₂_nil_right_iff]
    constructor
    · rintro ⟨⟩
      simp
    · rintro ⟨rfl, -⟩
      rfl
  | l :: letters, taken, as => by
    rw [flagArguments?, List.forall₂_cons_right_iff]
    cases hfind : args.find? fun a => a.short == some l with
    | none =>
      refine iff_of_false (by simp) ?_
      rintro ⟨⟨a, _, ha, -⟩, -⟩
      cases ha
    | some a =>
      by_cases hnew : ∀ b ∈ taken, b.id ≠ a.id
      · have hany : (taken.any fun b => b.id == a.id) = false := by simpa using hnew
        simp only [hany, Bool.false_eq_true, if_false, Option.map_eq_some_iff,
          flagArguments?_eq_some_iff, Option.some.injEq]
        constructor
        · rintro ⟨as, ⟨hletters, htaken, hpair⟩, rfl⟩
          refine ⟨⟨a, as, rfl, hletters, rfl⟩, List.forall_mem_cons.mpr ⟨hnew, fun x hx b hb => ?_⟩,
            List.pairwise_cons.mpr ⟨fun x hx => ?_, hpair⟩⟩
          · exact htaken x hx b (List.mem_cons_of_mem _ hb)
          · exact htaken x hx a List.mem_cons_self
        · rintro ⟨⟨_, as, rfl, hletters, rfl⟩, htaken, hpair⟩
          obtain ⟨ha, hpair⟩ := List.pairwise_cons.mp hpair
          refine ⟨as, ⟨hletters, fun x hx => List.forall_mem_cons.mpr ⟨ha x hx, ?_⟩, hpair⟩, rfl⟩
          exact htaken x (List.mem_cons_of_mem _ hx)
      · have hany : (taken.any fun b => b.id == a.id) = true := by simpa using hnew
        refine iff_of_false (by simp [hany]) ?_
        rintro ⟨⟨b, as, hb, -, rfl⟩, htaken, -⟩
        cases hb
        exact hnew (htaken a List.mem_cons_self)

/-- The arguments of a bundle are unbound ones, and no two have the same id. -/
theorem flagArguments?_spec {args taken as : List Argument} {letters : List Char}
    (h : flagArguments? args taken letters = some as) :
    (∀ a ∈ as, a ∈ args) ∧ as.Pairwise (fun a b => a.id ≠ b.id) ∧
      as.map (·.short) = letters.map some := by
  obtain ⟨hletters, -, hpair⟩ := flagArguments?_eq_some_iff.mp h
  have hall : List.Forall₂ (fun a l => a ∈ args ∧ a.short = some l) as letters :=
    hletters.imp fun a l hl => ⟨List.mem_of_find?_eq_some hl, by simpa using List.find?_some hl⟩
  obtain ⟨hmem, hshort⟩ := (List.forall₂_and_left _ _).mp hall
  exact ⟨hmem, hpair, map_short_eq_iff.mpr hshort⟩

theorem flagBundle?_spec {policy : ShortFlagPolicy} {args bundle : List Argument}
    (h : flagBundle? policy args t = some bundle) :
    ∃ letters, t.shortFlags? = some letters ∧ (∀ a ∈ bundle, a ∈ args) ∧
      bundle.Pairwise (fun a b => a.id ≠ b.id) ∧ bundle.map (·.short) = letters.map some := by
  unfold flagBundle? at h
  split at h
  · cases h
  · rename_i letters hl
    obtain ⟨hargs, -⟩ := Option.filter_eq_some_iff.mp h
    exact ⟨letters, hl, flagArguments?_spec hargs⟩

theorem bindFlags_effect {r : Bound} : ∀ {s : BindState} {as : List Argument} {c : TokenCursor},
    (∀ a ∈ as, P a) → (∀ a ∈ as, a.FreeIn s) → as.Pairwise (fun a b => a.id ≠ b.id) →
      env.bindFlags t s as c = .ok r →
        ∃ used, c.tokens = .prepend used r.2.tokens ∧ env.FlagEffects P t s as used r.1
  | s, [], c, _, _, _, h => by
    cases h
    exact ⟨[], rfl, .nil⟩
  | s, a :: as, c, hP, hf, hd, h => by
    obtain ⟨hPa, hPas⟩ := List.forall_mem_cons.mp hP
    obtain ⟨hfa, hfas⟩ := List.forall_mem_cons.mp hf
    obtain ⟨hda, hdas⟩ := List.pairwise_cons.mp hd
    -- whatever binds `a` leaves the arguments after it unbound
    have hfree : ∀ {s' : BindState}, (∀ b ∈ s'.bound, b ∈ s.bound ∨ b.id = a.id) →
        ∀ x ∈ as, x.FreeIn s' := by
      intro s' hs' x hx b hb
      rcases hs' b hb with hb | hb
      · exact hfas x hx b hb
      · exact hb ▸ hda x hx
    unfold bindFlags at h
    split at h
    · rename_i hs
      have hin : ∀ b ∈ (s.push ⟨a.id, .empty t.span, .bool true, .flag⟩).bound,
          b ∈ s.bound ∨ b.id = a.id := by
        intro b hb
        exact (BindState.mem_bound_push.mp hb).imp_right fun he => by rw [he]
      obtain ⟨used, hu, he⟩ := bindFlags_effect hPas (hfree hin) hdas h
      have hswitch : env.Effect P t s [] (s.push ⟨a.id, .empty t.span, .bool true, .flag⟩) :=
        .switch hPa hfa hs (by decide)
      exact ⟨used, hu, .cons hswitch
        (fun _ => ⟨_, BindState.mem_bound_push.mpr (.inr rfl), rfl, rfl⟩) he⟩
    · split at h
      · cases h
      · rename_i s' c' hb
        obtain ⟨u, hu, he, hin, hflag⟩ := bindFollowing_effect hPa hfa (by decide) hb
        obtain ⟨us, hus, hes⟩ := bindFlags_effect hPas (hfree hin) hdas h
        exact ⟨u ++ us, by simp [hu, hus], .cons he hflag hes⟩

/-! ### Unnamed values -/

theorem offer_effect {v : Literal} {r : Bound} (hk : t.kind = .value v) :
    ∀ {as : List Argument}, (∀ a ∈ as, P a ∧ a.FreeIn s) → env.offer s v c as = .ok (some r) →
      ∃ used, c.tokens = .prepend used r.2.tokens ∧ env.Effect P t s (t :: used) r.1
  | [], _, h => by cases h
  | a :: as, ha, h => by
    unfold offer at h
    split at h
    · rename_i k htake
      cases h
      obtain ⟨hP, hf⟩ := ha a List.mem_cons_self
      obtain ⟨hholds, used, hu, htakes⟩ := takeValue_spec hk htake
      exact ⟨used, hu, .taken hP hf (by decide) htakes hholds (takeValue_pendingOf htake)⟩
    · split at h
      · exact offer_effect hk (fun b hb => ha b (List.mem_cons_of_mem _ hb)) h
      · cases h

theorem extendRun_effect {v : Literal} {r : Bound} (hk : t.kind = .value v)
    (h : env.extendRun s v c = .ok (some r)) :
    ∃ used, c.tokens = .prepend used r.2.tokens ∧ env.Effect P t s (t :: used) r.1 := by
  unfold extendRun at h
  split at h
  · cases h
  · rename_i a hopen
    split at h
    · cases h
    · split at h
      · split at h
        · cases h
        · rename_i q hq
          obtain ⟨values, hvs, he⟩ := exists_of_map_eq_ok h
          cases he
          obtain ⟨items, used, hi, hu, hv⟩ := runFrom_used hq
          refine ⟨used, hu, .extended hopen (by simp [hi]) ?_ (convertEach_eq_ok hvs)
            (pendingAfter_of ..)⟩
          simp [hi, hv, Token.value?_eq_some.mpr hk]
      · cases h

/-! ### A token -/

/-- **A token that belongs to the command does one of these things.** -/
theorem bindToken_effect {r : Bound} (hO : env.Offers P) (h : env.bindToken s t c = .ok (some r)) :
    ∃ used, c.tokens = .prepend used r.2.tokens ∧ env.TokenEffect P t s used r.1 := by
  have hrem : ∀ a ∈ env.remaining s, P a ∧ a.FreeIn s :=
    fun a ha => ⟨hO s a ha, freeIn_of_mem_remaining ha⟩
  unfold bindToken at h
  split at h
  · cases h
  · rename_i name assigned hk
    obtain ⟨q, hq, he⟩ := exists_of_map_eq_ok h
    cases he
    obtain ⟨used, hu, he⟩ := bindNamed_effect hO hk hq
    exact ⟨used, hu, .named (Token.isValue_of_named hk) he⟩
  · rename_i v hk
    have hv := Token.isValue_of_kind hk
    split at h
    · rename_i bundle hb
      obtain ⟨q, hq, he⟩ := exists_of_map_eq_ok h
      cases he
      obtain ⟨letters, hl, hargs, hd, hshort⟩ := flagBundle?_spec hb
      have hP : ∀ a ∈ bundle, P a := fun a ha => (hrem a (hargs a ha)).1
      obtain ⟨used, hu, he⟩ :=
        bindFlags_effect hP (fun a ha => (hrem a (hargs a ha)).2) hd hq
      exact ⟨used, hu, .flags hl hP hshort he⟩
    · unfold bindUnnamed at h
      split at h
      · cases h
      · rename_i q hq
        cases h
        obtain ⟨used, hu, he⟩ := offer_effect hk hrem hq
        exact ⟨used, hu, .unnamed hv he⟩
      · obtain ⟨used, hu, he⟩ := extendRun_effect hk h
        exact ⟨used, hu, .unnamed hv he⟩

/-! ### Whose value is open -/

theorem Effect.openOf {ts : List Token} {s' : BindState} (h : env.Effect P t s ts s')
    (hs : s.OpenOf P) : s'.OpenOf P := by
  cases h with
  | assigned => exact hs
  | switch => exact hs
  | answer => exact hs
  | hanging _ hP => exact ⟨hP, hs.2⟩
  | @taken a origin k ts hP _ _ _ _ hk =>
    refine ⟨hk.mono fun b hb => hb ▸ hP, fun b hb => ?_⟩
    simp only [record, BindState.push] at hb
    split at hb
    · exact Option.some.inj hb ▸ hP
    · split at hb
      · cases hb
      · exact hs.2 b hb
  | extended hr _ _ _ hp => exact ⟨hp.mono fun b hb => hb ▸ hs.2 _ hr, hs.2⟩

theorem FlagEffects.openOf {as : List Argument} {ts : List Token} {s s' : BindState}
    (h : env.FlagEffects P t s as ts s') (hs : s.OpenOf P) : s'.OpenOf P := by
  induction h with
  | nil => exact hs
  | cons he _ _ ih => exact ih (he.openOf hs)

theorem TokenEffect.openOf {ts : List Token} {s' : BindState} (h : env.TokenEffect P t s ts s')
    (hs : s.OpenOf P) : s'.OpenOf P := by
  cases h with
  | named _ he => exact he.openOf hs
  | unnamed _ he => exact he.openOf hs
  | flags _ _ _ he => exact he.openOf hs

/-- What is open behind some tokens of a command belongs to an argument that has been offered. -/
theorem bindTokens_openOf (hO : env.Offers P) {b : Binding} (s : BindState) (c : TokenCursor) :
    s.OpenOf P → env.bindTokens s c = .ok b → b.state.OpenOf P := by
  fun_induction env.bindTokens s c with
  | case1 => intro hs h; cases h; exact hs
  | case2 => intro hs h; cases h
  | case3 => intro hs h; cases h; exact hs
  | case4 => intro hs h; cases h
  | case5 => intro hs h; cases h; exact hs
  | case6 s c t rest hc ht s' c' hb ih =>
    intro hs h
    obtain ⟨used, -, he⟩ := bindToken_effect hO hb
    exact ih (he.openOf hs) h

end BindEnv
end CommandConsole
