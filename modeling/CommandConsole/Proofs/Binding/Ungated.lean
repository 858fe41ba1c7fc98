/-
# Binding does not look at requirements

Take the requirements of all arguments away. Every step of the binder then does
what it did before, and leaves what it left before, without the requirements:
to take them away and to bind may be done in either order.

Key definitions: `Argument.ungated`, `ArgumentSource.ungated`, `BindState.ungated`,
`BindEnv.ungated`, `BindEnv.Nameable`.
Key theorems: `BindEnv.bindToken_ungated`, `BindEnv.bindTokens_ungated`, `BindEnv.bind_ungated`.
-/
import CommandConsole.Binding.Binder

namespace CommandConsole

/-! ### Without requirements -/

/-- The argument without its requirements. -/
def Argument.ungated (a : Argument) : Argument := { a with requirements := [] }

namespace Argument

variable (a : Argument)

@[simp] theorem ungated_id : a.ungated.id = a.id := rfl

@[simp] theorem ungated_type : a.ungated.type = a.type := rfl

@[simp] theorem ungated_isOptional : a.ungated.isOptional = a.isOptional := rfl

@[simp] theorem ungated_multiplicity : a.ungated.multiplicity = a.multiplicity := rfl

@[simp] theorem ungated_isSwitch : a.ungated.isSwitch = a.isSwitch := rfl

@[simp] theorem ungated_ungated : a.ungated.ungated = a.ungated := rfl

end Argument

def ArgumentSupplier.ungated (s : ArgumentSupplier) : ArgumentSupplier :=
  ⟨s.all.map Argument.ungated, fun bound => (s.remaining bound).map Argument.ungated⟩

namespace ArgumentSource

def ungated : ArgumentSource → ArgumentSource
  | .static arguments => .static (arguments.map Argument.ungated)
  | .dynamic supplier => .dynamic supplier.ungated

@[simp] theorem all_ungated (s : ArgumentSource) : s.ungated.all = s.all.map Argument.ungated := by
  cases s <;> rfl

theorem candidates_ungated (s : ArgumentSource) (bound : List BoundArgument) :
    s.ungated.candidates bound = (s.candidates bound).map Argument.ungated := by
  cases s <;> rfl

@[simp] theorem remaining_ungated (s : ArgumentSource) (bound : List BoundArgument) :
    s.ungated.remaining bound = (s.remaining bound).map Argument.ungated := by
  rw [remaining, candidates_ungated, List.filter_map]
  rfl

theorem ungated_ungated (s : ArgumentSource) : s.ungated.ungated = s.ungated := by
  cases s <;> simp [ungated, ArgumentSupplier.ungated, Function.comp_def]

end ArgumentSource

def Pending.ungated : Pending → Pending
  | .none => .none
  | .value a => .value a.ungated
  | .run a count => .run a.ungated count

def BindState.ungated (s : BindState) : BindState :=
  ⟨s.bound, s.pending.ungated, s.openRun.map Argument.ungated, s.stop⟩

@[simp] theorem BindState.ungated_bound (s : BindState) : s.ungated.bound = s.bound := rfl

def Taken.ungated (t : Taken) : Taken := { t with pending := t.pending.ungated }

namespace BindEnv

def ungated (env : BindEnv) : BindEnv := { env with source := env.source.ungated }

def Bound.ungated (r : Bound) : Bound := (r.1.ungated, r.2)

def Binding.ungated (b : Binding) : Binding := { b with state := b.state.ungated }

/-- The names that arguments are known by do not depend on their requirements. -/
def Nameable (env : BindEnv) : Prop := ∀ a : Argument, env.longNames a.ungated = env.longNames a

variable {env : BindEnv} {s : BindState} {a : Argument} {c : TokenCursor}

@[simp] theorem remaining_ungated (env : BindEnv) (s : BindState) :
    env.ungated.remaining s.ungated = (env.remaining s).map Argument.ungated :=
  env.source.remaining_ungated s.bound

theorem findNamed?_ungated (he : env.Nameable) (args : List Argument) (name : String) :
    env.ungated.findNamed? (args.map Argument.ungated) name =
      (env.findNamed? args name).map Argument.ungated := by
  have hnames : ((fun a => (env.longNames a).contains name) ∘ Argument.ungated) =
      fun a => (env.longNames a).contains name := by
    funext a
    rw [Function.comp_apply, he a]
  rw [findNamed?, List.find?_map]
  exact congrArg (fun p => (args.find? p).map Argument.ungated) hnames

end BindEnv

/-! ### Bundles of flags -/

theorem flagArguments?_ungated (args : List Argument) : ∀ (taken : List Argument) (cs : List Char),
    flagArguments? (args.map Argument.ungated) (taken.map Argument.ungated) cs =
      (flagArguments? args taken cs).map (List.map Argument.ungated)
  | taken, [] => rfl
  | taken, c :: cs => by
    have hfind : (args.map Argument.ungated).find? (fun a => a.short == some c) =
        (args.find? fun a => a.short == some c).map Argument.ungated := List.find?_map ..
    rw [flagArguments?, flagArguments?, hfind]
    cases args.find? fun a => a.short == some c with
    | none => rfl
    | some a =>
      have hany : (taken.map Argument.ungated).any (fun b => b.id == a.ungated.id) =
          taken.any fun b => b.id == a.id := List.any_map ..
      dsimp only [Option.map_some]
      rw [hany]
      split
      · rfl
      · rw [← List.map_cons, flagArguments?_ungated args (a :: taken) cs]
        cases flagArguments? args (a :: taken) cs <;> rfl

theorem bundleAllowed_ungated (policy : ShortFlagPolicy) (bundle : List Argument) :
    bundleAllowed policy (bundle.map Argument.ungated) = bundleAllowed policy bundle := by
  unfold bundleAllowed
  rw [List.getLast?_map, ← List.map_dropLast, List.all_map]
  cases bundle.getLast? <;> rfl

theorem flagBundle?_ungated (policy : ShortFlagPolicy) (args : List Argument) (t : Token) :
    flagBundle? policy (args.map Argument.ungated) t =
      (flagBundle? policy args t).map (List.map Argument.ungated) := by
  unfold flagBundle?
  cases t.shortFlags? with
  | none => rfl
  | some letters =>
    have hflags := flagArguments?_ungated args [] letters
    rw [List.map_nil] at hflags
    dsimp only
    rw [hflags]
    cases flagArguments? args [] letters with
    | none => rfl
    | some bundle =>
      simp only [Option.map_some, Option.filter_some, bundleAllowed_ungated]
      split <;> rfl

/-! ### Values and runs -/

namespace BindEnv

variable {env : BindEnv} {s : BindState} {a : Argument} {c : TokenCursor} {t : Token}

theorem runFrom_ungated (env : BindEnv) (s : BindState) (first : Literal) (c : TokenCursor) :
    env.ungated.runFrom s.ungated first c = env.runFrom s first c := by
  have hstops : (fun t => (flagBundle? env.policy (env.ungated.remaining s.ungated) t).isSome) =
      fun t => (flagBundle? env.policy (env.remaining s) t).isSome := by
    funext t
    rw [remaining_ungated, flagBundle?_ungated, Option.isSome_map]
  have hpolicy : env.ungated.policy = env.policy := rfl
  unfold runFrom
  rw [hpolicy, hstops]
  rfl

theorem pendingAfter_ungated (env : BindEnv) (a : Argument) (offset : Nat) (r : Run) :
    env.ungated.pendingAfter a.ungated offset r = (env.pendingAfter a offset r).ungated := by
  have hmode : env.ungated.mode = env.mode := rfl
  unfold pendingAfter
  rw [hmode]
  split <;> rfl

theorem convert_ungated (env : BindEnv) (a : Argument) (input : Literal) :
    env.ungated.convert a.ungated input = env.convert a input := rfl

theorem convertEach_ungated (env : BindEnv) (a : Argument) : ∀ (i : Nat) (items : List Literal),
    env.ungated.convertEach a.ungated i items = env.convertEach a i items
  | _, [] => rfl
  | i, item :: items => by
    rw [convertEach, convertEach, convertEach_ungated env a (i + 1) items]
    rfl

theorem takeValue_ungated (env : BindEnv) (s : BindState) (a : Argument) (first : Literal)
    (c : TokenCursor) : env.ungated.takeValue s.ungated a.ungated first c =
      (env.takeValue s a first c).map Taken.ungated := by
  unfold takeValue
  rw [Argument.ungated_multiplicity, convert_ungated, runFrom_ungated]
  cases a.multiplicity with
  | single => cases env.convert a first <;> rfl
  | multiple =>
    have hstarts : startsListRun a.ungated first = startsListRun a first := rfl
    dsimp only
    rw [hstarts]
    split
    · cases env.runFrom s first c with
      | error f => rfl
      | ok r =>
        dsimp only
        rw [convert_ungated, pendingAfter_ungated]
        cases env.convert a (listOfRun r.items) <;> rfl
    · cases env.convert a first <;> rfl
  | vararg =>
    cases env.runFrom s first c with
    | error f => rfl
    | ok r =>
      dsimp only
      rw [convertEach_ungated, pendingAfter_ungated]
      cases env.convertEach a 0 r.items <;> rfl

theorem takeAssigned_ungated (env : BindEnv) (a : Argument) (input : Literal) :
    env.ungated.takeAssigned a.ungated input = env.takeAssigned a input := by
  unfold takeAssigned
  rw [Argument.ungated_multiplicity, convertEach_ungated]
  rfl

/-! ### Tokens -/

theorem record_ungated (s : BindState) (a : Argument) (origin : BindOrigin) (k : Taken) :
    record s.ungated a.ungated origin k.ungated = (record s a origin k).ungated := by
  unfold record BindState.ungated
  rw [Argument.ungated_multiplicity]
  split
  · rfl
  · split <;> rfl

theorem bindSwitch_ungated (s : BindState) (a : Argument) (t : Token) (c : TokenCursor) :
    bindSwitch s.ungated a.ungated t c = (bindSwitch s a t c).ungated := by
  unfold bindSwitch
  cases c.tokens with
  | finished stop => rfl
  | broken start failure => rfl
  | more next rest =>
    dsimp only
    cases next.word? with
    | none => rfl
    | some word =>
      dsimp only
      cases readBool? word <;> rfl

theorem bindFollowing_ungated (env : BindEnv) (s : BindState) (a : Argument) (t : Token)
    (origin : BindOrigin) (c : TokenCursor) :
    env.ungated.bindFollowing s.ungated a.ungated t origin c =
      (env.bindFollowing s a t origin c).map Bound.ungated := by
  unfold bindFollowing
  cases c.tokens with
  | broken start failure => rfl
  | finished stop =>
    have hmode : env.ungated.mode = env.mode := rfl
    dsimp only
    rw [hmode]
    split <;> rfl
  | more next rest =>
    dsimp only
    cases next.kind with
    | separator => rfl
    | named name assigned => rfl
    | value v =>
      dsimp only
      rw [takeValue_ungated]
      cases env.takeValue s a v (.past next rest) with
      | error f => rfl
      | ok k => exact congrArg (fun s => Except.ok (s, k.cursor)) (record_ungated s a origin k)

theorem bindNamed_ungated (he : env.Nameable) (s : BindState) (t : Token) (name : String)
    (assigned : Option Literal) (c : TokenCursor) :
    env.ungated.bindNamed s.ungated t name assigned c =
      (env.bindNamed s t name assigned c).map Bound.ungated := by
  unfold bindNamed
  rw [remaining_ungated, findNamed?_ungated he]
  cases env.findNamed? (env.remaining s) name with
  | none => rfl
  | some a =>
    dsimp only [Option.map_some]
    cases assigned with
    | none =>
      dsimp only
      rw [Argument.ungated_isSwitch]
      split
      · exact congrArg Except.ok (bindSwitch_ungated s a t c)
      · exact bindFollowing_ungated env s a t .named c
    | some v =>
      cases v with
      | empty span => rfl
      | scalar text span =>
        dsimp only
        rw [takeAssigned_ungated]
        cases env.takeAssigned a (.scalar text span) <;> rfl
      | list items span =>
        dsimp only
        rw [takeAssigned_ungated]
        cases env.takeAssigned a (.list items span) <;> rfl
      | map entries span =>
        dsimp only
        rw [takeAssigned_ungated]
        cases env.takeAssigned a (.map entries span) <;> rfl

theorem bindFlags_ungated (env : BindEnv) (t : Token) : ∀ (s : BindState) (as : List Argument)
    (c : TokenCursor), env.ungated.bindFlags t s.ungated (as.map Argument.ungated) c =
      (env.bindFlags t s as c).map Bound.ungated
  | s, [], c => rfl
  | s, a :: as, c => by
    rw [List.map_cons, bindFlags, bindFlags, Argument.ungated_isSwitch]
    split
    · exact bindFlags_ungated env t (s.push ⟨a.id, .empty t.span, .bool true, .flag⟩) as c
    · rw [bindFollowing_ungated]
      cases env.bindFollowing s a t .flag c with
      | error f => rfl
      | ok r => exact bindFlags_ungated env t r.1 as r.2

theorem offer_ungated (env : BindEnv) (s : BindState) (v : Literal) (c : TokenCursor) :
    ∀ as : List Argument, env.ungated.offer s.ungated v c (as.map Argument.ungated) =
      (env.offer s v c as).map (Option.map Bound.ungated)
  | [] => rfl
  | a :: as => by
    rw [List.map_cons, offer, offer, takeValue_ungated]
    cases env.takeValue s a v c with
    | ok k =>
      exact congrArg (fun s => Except.ok (some (s, k.cursor))) (record_ungated s a .positional k)
    | error f =>
      have hrejects : rejectsFirst a.ungated f = rejectsFirst a f := rfl
      dsimp only [Except.map]
      rw [Argument.ungated_isOptional, hrejects]
      split
      · exact offer_ungated env s v c as
      · rfl

theorem extendRun_ungated (env : BindEnv) (s : BindState) (v : Literal) (c : TokenCursor) :
    env.ungated.extendRun s.ungated v c =
      (env.extendRun s v c).map (Option.map Bound.ungated) := by
  have hopen : s.ungated.openRun = s.openRun.map Argument.ungated := rfl
  unfold extendRun
  rw [hopen]
  cases s.openRun with
  | none => rfl
  | some a =>
    dsimp only [Option.map_some, Argument.ungated_id, BindState.ungated_bound]
    cases s.bound.find? fun b => b.id == a.id with
    | none => rfl
    | some b =>
      dsimp only
      rw [Argument.ungated_type, runFrom_ungated]
      split
      · cases env.runFrom s v c with
        | error f => rfl
        | ok r =>
          dsimp only
          rw [convertEach_ungated, pendingAfter_ungated]
          cases env.convertEach a (runLength b) r.items <;> rfl
      · rfl

theorem bindUnnamed_ungated (env : BindEnv) (s : BindState) (v : Literal) (c : TokenCursor) :
    env.ungated.bindUnnamed s.ungated v c =
      (env.bindUnnamed s v c).map (Option.map Bound.ungated) := by
  unfold bindUnnamed
  rw [remaining_ungated, offer_ungated]
  cases env.offer s v c (env.remaining s) with
  | error f => rfl
  | ok r =>
    cases r with
    | none => exact extendRun_ungated env s v c
    | some r => rfl

/-- **A token is bound to the same argument**, with or without the requirements. -/
theorem bindToken_ungated (he : env.Nameable) (s : BindState) (t : Token) (c : TokenCursor) :
    env.ungated.bindToken s.ungated t c =
      (env.bindToken s t c).map (Option.map Bound.ungated) := by
  unfold bindToken
  cases t.kind with
  | separator => rfl
  | named name assigned =>
    dsimp only
    rw [bindNamed_ungated he]
    cases env.bindNamed s t name assigned c <;> rfl
  | value v =>
    have hpolicy : env.ungated.policy = env.policy := rfl
    dsimp only
    rw [remaining_ungated, hpolicy, flagBundle?_ungated]
    cases flagBundle? env.policy (env.remaining s) t with
    | none => exact bindUnnamed_ungated env s v c
    | some bundle =>
      dsimp only [Option.map_some]
      rw [bindFlags_ungated]
      cases env.bindFlags t s bundle c <;> rfl

/-! ### Commands -/

theorem bindTokens_ungated (he : env.Nameable) (s : BindState) (c : TokenCursor) :
    env.ungated.bindTokens s.ungated c = (env.bindTokens s c).map Binding.ungated := by
  fun_induction env.bindTokens s c with
  | case1 s c stop hc =>
    rw [bindTokens_finished hc]
    rfl
  | case2 s c start failure hc =>
    rw [bindTokens_broken hc]
    rfl
  | case3 s c t rest hc ht =>
    rw [bindTokens_separator hc ht]
    rfl
  | case4 s c t rest hc ht f hb =>
    have hbind := bindToken_ungated he s t (.past t rest)
    rw [hb] at hbind
    rw [bindTokens_error hc (by simpa using ht) hbind]
    rfl
  | case5 s c t rest hc ht hb =>
    have hbind := bindToken_ungated he s t (.past t rest)
    rw [hb] at hbind
    rw [bindTokens_none hc (by simpa using ht) hbind]
    rfl
  | case6 s c t rest hc ht s' c' hb ih =>
    have hbind := bindToken_ungated he s t (.past t rest)
    rw [hb] at hbind
    rw [bindTokens_some hc (by simpa using ht) hbind]
    exact ih

theorem bindDefaults_ungated (s : BindState) (unbound : List Argument) :
    bindDefaults s.ungated (unbound.map Argument.ungated) = (bindDefaults s unbound).ungated := by
  unfold bindDefaults
  rw [List.filterMap_map]
  rfl

theorem finish_ungated (env : BindEnv) (s : BindState) :
    env.ungated.finish s.ungated = (env.finish s).map BindState.ungated := by
  have hmode : env.ungated.mode = env.mode := rfl
  unfold finish
  rw [hmode]
  cases env.mode with
  | partialLine => rfl
  | complete =>
    have hrequired : ((env.remaining s).map Argument.ungated).find? (fun a => !a.isOptional) =
        ((env.remaining s).find? fun a => !a.isOptional).map Argument.ungated := List.find?_map ..
    dsimp only
    rw [remaining_ungated, hrequired]
    cases (env.remaining s).find? fun a => !a.isOptional with
    | some a => rfl
    | none => exact congrArg Except.ok (bindDefaults_ungated s (env.remaining s))

/-- **The arguments of a command are bound alike**, with or without their requirements. -/
theorem bind_ungated (he : env.Nameable) (c : TokenCursor) :
    env.ungated.bind c = (env.bind c).map Binding.ungated := by
  have hstart : (BindState.start c.position).ungated = .start c.position := rfl
  unfold bind
  rw [← hstart, bindTokens_ungated he, hstart]
  cases env.bindTokens (.start c.position) c with
  | error f => rfl
  | ok b =>
    dsimp only [Except.map, Binding.ungated]
    rw [finish_ungated]
    cases env.finish b.state <;> rfl

end BindEnv
end CommandConsole
